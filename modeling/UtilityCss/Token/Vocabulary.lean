import UtilityCss.Diagnostic
import UtilityCss.Table
import UtilityCss.Theme
import UtilityCss.Token.Meaning
import UtilityCss.Token.Shape
import UtilityCss.Text.Letter
import UtilityCss.Value.Color

/-!
# Reading tokens

A vocabulary says what the short names, the breakpoints and the named values of a project stand
for. Under a vocabulary a token is read by a fixed sequence of questions, and the first one that
applies decides:

1. the token has a shape `name[content]` or `name|content|`;
2. the short name is in the property table;
3. a content with an `@` lists values by breakpoint, `@Phone[1px], @Tablet[2px]`;
4. a content with a colon lists breakpoints by value, `1px:Phone, 2px`, unless a reference
   `#id:property` accounts for the colon;
5. a content in brackets of its own is a clamp, a calculation, or a text as it is;
6. a content with an operator is a calculation;
7. three numbers are a colour;
8. three parts are a clamp, and any other list of parts is reported and taken as it is;
9. what is left is a plain value, looked up in the theme.

Reading has no effect but its answer. A reference is registered at the moment when it is replaced in
a calculation, before it is known what becomes of the value, and a problem is reported at the moment
when it is found. So every reading brings along, besides its result, the references and the problems
that came up on the way, in order.
-/

namespace UtilityCss

open UtilityCss.Text

/-- What the names in tokens stand for. -/
structure Vocabulary where
  /-- Short names and the properties that they stand for. -/
  properties : Table String Property
  /-- Breakpoints and the media conditions that they stand for. -/
  breakpoints : Table String String
  /-- Named values. -/
  theme : Theme

instance : Inhabited Vocabulary := ⟨⟨∅, ∅, ∅⟩⟩

/-- A meaning with what came up on the way to it. -/
structure Reading where
  /-- What the token means. -/
  meaning : Meaning
  /-- The references that were registered, one for each that was replaced. -/
  references : List Reference
  /-- The problems, in the order in which they were found. -/
  diagnostics : List Diagnostic
deriving DecidableEq, Repr

/-- A value with what came up on the way to it. -/
structure ValueReading where
  /-- The value. -/
  value : Value
  /-- The references that were registered. -/
  references : List Reference
  /-- The problems. -/
  diagnostics : List Diagnostic
deriving DecidableEq, Repr

/-- What one part of a list of values contributes: a rule, a value without condition, or nothing,
and what came up on the way. -/
structure PartReading where
  /-- The value without a condition. -/
  base : Option Value
  /-- The rule under a condition. -/
  rule : Option MediaRule
  /-- The references that were registered. -/
  references : List Reference
  /-- The problems. -/
  diagnostics : List Diagnostic
deriving DecidableEq, Repr

namespace PartReading

/-- A part that contributes nothing. -/
def nothing : PartReading := ⟨none, none, [], []⟩

/-- A part that contributes a problem only. -/
def problem (d : Diagnostic) : PartReading := ⟨none, none, [], [d]⟩

end PartReading

namespace Vocabulary

/-- A plain value, looked up in the theme. -/
def plainValue (v : Vocabulary) (text : List Char) : Value :=
  .verbatim (v.theme.resolve (String.ofList text))

/-- The calculation that a text writes. Each of its references is registered when it is replaced. -/
def calculate (text : List Char) : ValueReading :=
  ⟨Value.ofExpression text, Value.registered text, []⟩

/-- The clamp that a list of values writes; a list that has not three parts is reported and taken
as it is. -/
def clampValue (token : String) (text : List Char) : ValueReading :=
  match Value.clampOf? (Value.parts text) with
  | some value => ⟨value, [], []⟩
  | none =>
    ⟨.verbatim (String.ofList (trim text)), [],
      [.malformedClamp token (Value.parts text).length]⟩

/-! ### Values by breakpoint -/

/-- The name and the value of a part `@name[value]`. The name starts with a letter, and the value
is not empty and stands on one line. -/
def mediaPart? (part : List Char) : Option (List Char × List Char) :=
  match part with
  | '@' :: rest =>
    let name := rest.takeWhile isNameChar
    match rest.drop name.length with
    | '[' :: tail =>
      let inner := tail.dropLast
      if name.head?.any isLetter && tail.getLast? = some ']' && !inner.isEmpty
          && !inner.contains '\n' then
        some (name, trim inner)
      else none
    | _ => none
  | _ => none

/-- The value of a part under a breakpoint: a list of values is a clamp, then come calculations,
and what is left is looked up in the theme. -/
def mediaValue (v : Vocabulary) (token : String) (text : List Char) : ValueReading :=
  if 1 < (Value.parts text).length then clampValue token text
  else if Value.hasCalculation text then calculate text
  else ⟨v.plainValue text, [], []⟩

/-- What a part of a list of values by breakpoint contributes. A part that is not of the form
`@name[value]` is passed over. -/
def readMediaPart (v : Vocabulary) (token : String) (part : List Char) : PartReading :=
  match mediaPart? part with
  | none => .nothing
  | some (name, text) =>
    let breakpoint := String.ofList name
    match v.breakpoints.get? breakpoint with
    | none => .problem (.unknownBreakpoint token breakpoint)
    | some condition =>
      let reading := v.mediaValue token text
      ⟨none, some ⟨reading.value, breakpoint, condition⟩, reading.references, reading.diagnostics⟩

/-- The reading of a content that lists values by breakpoint. -/
def readMediaQuery (v : Vocabulary) (token : String) (property : Property)
    (content : List Char) : Reading :=
  let readings := (Value.parts content).map (v.readMediaPart token)
  ⟨.mediaQuery property (readings.filterMap PartReading.rule),
    readings.flatMap PartReading.references, readings.flatMap PartReading.diagnostics⟩

/-! ### Breakpoints by value -/

/-- The value and the breakpoint of a part `value:breakpoint`, both trimmed. Without a colon the
breakpoint is empty. -/
def responsivePart (part : List Char) : List Char × List Char :=
  match part.dropWhile (· != ':') with
  | [] => (part, [])
  | _ :: breakpoint => (trim (part.takeWhile (· != ':')), trim breakpoint)

/-- What a part of a list of breakpoints by value contributes. -/
def readResponsivePart (v : Vocabulary) (token : String) (part : List Char) : PartReading :=
  let (value, name) := responsivePart part
  if name.isEmpty then ⟨some (v.plainValue value), none, [], []⟩
  else
    let breakpoint := String.ofList name
    match v.breakpoints.get? breakpoint with
    | none => .problem (.unknownBreakpoint token breakpoint)
    | some condition => ⟨none, some ⟨v.plainValue value, breakpoint, condition⟩, [], []⟩

/-- The reading of a content that lists breakpoints by value. Of several values without a
breakpoint the last one counts. -/
def readResponsive (v : Vocabulary) (token : String) (property : Property)
    (content : List Char) : Reading :=
  let readings := (Value.parts content).map (v.readResponsivePart token)
  ⟨.responsive property (readings.filterMap PartReading.base).getLast?
      (readings.filterMap PartReading.rule),
    readings.flatMap PartReading.references, readings.flatMap PartReading.diagnostics⟩

/-! ### Single values -/

/-- The value of a content in brackets of its own. It is never reported and never looked up in the
theme. -/
def bracketedValue (inner : List Char) : ValueReading :=
  match Value.clampOf? (Value.parts inner) with
  | some value => ⟨value, [], []⟩
  | none =>
    if Value.hasCalculation inner then calculate inner
    else ⟨.verbatim (String.ofList inner), [], []⟩

/-- The value of a content that lists no breakpoints. -/
def singleValue (v : Vocabulary) (token : String) (content : List Char) : ValueReading :=
  match Value.unwrap? content with
  | some inner => bracketedValue inner
  | none =>
    if Value.hasCalculation content then calculate content
    else
      match Value.rgbOf? content with
      | some value => ⟨value, [], []⟩
      | none =>
        if 1 < (Value.parts content).length then clampValue token content
        else ⟨v.plainValue content, [], []⟩

/-! ### Tokens -/

/-- Whether a content lists breakpoints by value: it has a colon, and no reference accounts for
it. -/
def isResponsive (content : List Char) : Bool :=
  content.contains ':' && !Reference.occursIn content

/-- The reading of the content behind a known short name. -/
def readContent (v : Vocabulary) (token : String) (property : Property)
    (content : List Char) : Reading :=
  if content.contains '@' then v.readMediaQuery token property content
  else if isResponsive content then v.readResponsive token property content
  else
    let reading := v.singleValue token content
    ⟨.plain property reading.value, reading.references, reading.diagnostics⟩

/-- **The reading of a token.** -/
def read (v : Vocabulary) (token : String) : Reading :=
  match Token.shape? token.toList with
  | none => ⟨.unrecognized, [], []⟩
  | some shape =>
    let name := String.ofList shape.name
    match v.properties.get? name with
    | none => ⟨.unrecognized, [], [.unknownProperty token name]⟩
    | some property => v.readContent token property shape.content

end Vocabulary

end UtilityCss
