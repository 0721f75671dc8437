/-!
# Diagnostics

A problem with a token never stops a compilation. The token or the rule concerned is dropped, or its
value is taken as it is, and the problem is reported beside the output.
-/

namespace UtilityCss

/-- A problem that was found while compiling. -/
inductive Diagnostic where
  /-- A token has a short name that stands for no property. -/
  | unknownProperty (token property : String)
  /-- A token names a breakpoint that is not defined. -/
  | unknownBreakpoint (token breakpoint : String)
  /-- A list of values has more than one part, but not three. -/
  | malformedClamp (token : String) (parts : Nat)
  /-- A text asks for the classes of an element that it does not hold. -/
  | unresolvedElement (id : String)
deriving DecidableEq, Repr

namespace Diagnostic

/-- The wording of the problem. -/
def message : Diagnostic → String
  | unknownProperty token property =>
    "Unknown property '" ++ property ++ "' in '" ++ token ++ "'"
  | unknownBreakpoint token breakpoint =>
    "Unknown breakpoint '" ++ breakpoint ++ "' in '" ++ token ++ "'"
  | malformedClamp token parts =>
    "clamp() requires exactly 3 values, found " ++ toString parts ++ " in '" ++ token ++ "'"
  | unresolvedElement id => "Element not found for class copy: #" ++ id

/-- The token that the problem concerns, if it concerns one. -/
def token? : Diagnostic → Option String
  | unknownProperty token _ => some token
  | unknownBreakpoint token _ => some token
  | malformedClamp token _ => some token
  | unresolvedElement _ => none

end Diagnostic

end UtilityCss
