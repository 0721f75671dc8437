import UtilityCss.Property
import UtilityCss.Value.Basic

/-!
# What a token means

A token sets the properties behind its short name. It sets them to one value everywhere, or to
different values under different media conditions, with or without a value for the case that no
condition holds. A token that cannot be read means nothing.
-/

namespace UtilityCss

/-- A value that holds under a media condition. -/
structure MediaRule where
  /-- The value. -/
  value : Value
  /-- The name of the breakpoint. -/
  breakpoint : String
  /-- The media condition that the breakpoint stands for. -/
  condition : String
deriving DecidableEq, Repr

/-- What a token means. -/
inductive Meaning where
  /-- One value, under no condition. -/
  | plain (property : Property) (value : Value)
  /-- Values with a breakpoint each, and perhaps one without. -/
  | responsive (property : Property) (base : Option Value) (rules : List MediaRule)
  /-- Breakpoints with a value each. -/
  | mediaQuery (property : Property) (rules : List MediaRule)
  /-- Nothing. -/
  | unrecognized
deriving DecidableEq, Repr

namespace Meaning

/-- The name of the kind of meaning; a single value is named by its own kind. -/
def kind : Meaning → String
  | plain _ (.verbatim _) => "literal"
  | plain _ (.calculation _) => "calc"
  | plain _ (.clamp ..) => "clamp"
  | plain _ (.rgb ..) => "rgb"
  | responsive .. => "responsive"
  | mediaQuery .. => "media-query"
  | unrecognized => "unrecognized"

/-- The values of a meaning: the one without a condition first, then the others in order. -/
def values : Meaning → List Value
  | plain _ value => [value]
  | responsive _ base rules => base.toList ++ rules.map MediaRule.value
  | mediaQuery _ rules => rules.map MediaRule.value
  | unrecognized => []

/-- **The references that a meaning depends on**, in the order of its values. -/
def references (m : Meaning) : List Reference := m.values.flatMap Value.references

end Meaning

end UtilityCss
