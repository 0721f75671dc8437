import UtilityCss.Glob.Match

/-!
# Patterns as regular expressions

A pattern is shorthand for a regular expression on bytes. Matching does not need the expression, but
two things about it are part of what a pattern may be: how deep it is nested, for which there is a
limit, and its text, which a message quotes.

Some patterns need no expression, because comparing texts decides them; some ask for an extension
first; some look at the file name only. The rest are looked at together, and a message says which of
them is too deep (`depthError?`).
-/

namespace UtilityCss.Glob

/-- A regular expression on bytes. -/
inductive Expression where
  /-- The mark that the expression is about bytes. -/
  | bytewise
  /-- The start of the text. -/
  | textStart
  /-- The end of the text. -/
  | textEnd
  /-- A byte. -/
  | byte (b : UInt8)
  /-- Any byte. -/
  | anyByte
  /-- A byte in one of some ranges, or, negated, in none of them. -/
  | set (negated : Bool) (ranges : List (UInt8 × UInt8))
  /-- An expression or nothing. -/
  | optional (e : Expression)
  /-- An expression any number of times. -/
  | repeated (e : Expression)
  /-- An expression in brackets. -/
  | group (e : Expression)
  /-- Several expressions one after another. -/
  | sequence (es : List Expression)
  /-- One of several expressions. -/
  | choice (es : List Expression)

namespace Expression

/-! ### Depth -/

/-- How many levels a list of expressions needs whose members need at most `deepest`. A list of one
is that one. -/
def levelsOf (count deepest : Nat) : Nat := if count ≤ 1 then deepest else deepest + 1

mutual

/-- **How deep an expression is nested.** -/
def depth : Expression → Nat
  | bytewise | textStart | textEnd | byte _ | anyByte => 0
  | set _ ranges => levelsOf ranges.length 0 + 1
  | optional e | repeated e | group e => e.depth + 1
  | sequence es => levelsOf es.length (deepest es)
  | choice es => levelsOf es.length (deepest es)

/-- The depth of the deepest of several expressions. -/
def deepest : List Expression → Nat
  | [] => 0
  | e :: es => max e.depth (deepest es)

end

/-! ### Text -/

/-- The characters that mean something in expressions and so need a backslash. -/
def special : List Char := "\\.+*?()|[]\x7b\x7d^$#&-~".toList

/-- A byte as it is written: as its character, or by its two hexadecimal digits. -/
def byteText (b : UInt8) : String :=
  if b < 128 then
    let c := Char.ofNat b.toNat
    if special.contains c then String.ofList ['\\', c] else String.singleton c
  else "\\x" ++ String.ofList (Nat.toDigits 16 b.toNat)

/-- A range of bytes as it is written. -/
def rangeText (range : UInt8 × UInt8) : String :=
  if range.1 = range.2 then byteText range.1 else byteText range.1 ++ "-" ++ byteText range.2

mutual

/-- **The text of an expression.** -/
def text : Expression → String
  | bytewise => "(?-u)"
  | textStart => "^"
  | textEnd => "$"
  | byte b => byteText b
  | anyByte => "."
  | set negated ranges =>
    "[" ++ (if negated then "^" else "") ++ String.join (ranges.map rangeText) ++ "]"
  | optional e => e.text ++ "?"
  | repeated e => e.text ++ "*"
  | group e => "(?:" ++ e.text ++ ")"
  | sequence es => String.join (texts es)
  | choice es => "|".intercalate (texts es)

/-- The texts of several expressions. -/
def texts : List Expression → List String
  | [] => []
  | e :: es => e.text :: texts es

end

end Expression

/-! ### The expression of a pattern -/

open Expression

/-- Any byte but a slash. -/
def nameByte : Expression := set true [(slash, slash)]

mutual

/-- The expressions that a token stands for, one after another. -/
def Token.expressions : Token → List Expression
  | .literal c => (bytesOfChar c).map byte
  | .any => [nameByte]
  | .star => [repeated nameByte]
  | .leading =>
    [group (choice [optional (byte slash), sequence [repeated anyByte, byte slash]])]
  | .between =>
    [group (choice [byte slash, sequence [byte slash, repeated anyByte, byte slash]])]
  | .trailing => [byte slash, repeated anyByte]
  | .oneOf negated ranges => [set negated (ranges.flatMap byteRanges)]
  | .choice [] => []
  | .choice (first :: more) =>
    [group (choice (sequence (expressionsAll first) :: sequences more))]

/-- The expressions that a sequence of tokens stands for. -/
def expressionsAll : List Token → List Expression
  | [] => []
  | t :: ts => t.expressions ++ expressionsAll ts

/-- The expressions that several sequences of tokens stand for, each as one. -/
def sequences : List (List Token) → List Expression
  | [] => []
  | ts :: more => sequence (expressionsAll ts) :: sequences more

end

/-- **The expression of a pattern.** -/
def expression (tokens : List Token) : Expression :=
  let inner := match tokens with
    | [.leading] => [repeated anyByte]
    | _ => expressionsAll tokens
  sequence ([bytewise, textStart] ++ inner ++ [textEnd])

/-! ### Patterns that are too deep -/

/-- How a pattern is decided. -/
inductive Method where
  /-- By comparing texts. -/
  | comparison
  /-- By its extension first, and then by an expression of its own. -/
  | extension
  /-- By an expression for the file name. -/
  | name
  /-- By an expression, together with other such patterns. -/
  | expression
deriving DecidableEq, Repr

/-- Whether a pattern is `**/*.` with an extension behind it. -/
def saysExtension : List Token → Bool
  | .leading :: .star :: .literal '.' :: rest =>
    rest.all fun t => t.literal?.any fun c => c != '.' && c != '/'
  | _ => false

/-- Whether a pattern is a directory with a `**` behind it. -/
def saysDirectory (tokens : List Token) : Bool :=
  match tokens.getLast? with
  | some .trailing => areLiteral tokens.dropLast
  | _ => false

/-- Whether a pattern is some text, from the start or from some directory on. -/
def saysText : List Token → Bool
  | [] => false
  | [.leading] => false
  | .leading :: rest => areLiteral rest
  | tokens => areLiteral tokens

/-- Whether a pattern ends in a dot and the characters of an extension. -/
def endsInExtension (tokens : List Token) : Bool :=
  let last := (tokens.map Token.literal?).reverse.takeWhile fun c => c.isSome && c != some '/'
  last.contains (some '.')

/-- Whether a token stands for some part of a name, as it never matches a slash. Alternatives are
not looked into. -/
def Token.staysInName : Token → Bool
  | .literal c => c != '/'
  | .any | .star => true
  | .oneOf negated ranges => ranges.any (fun r => r.1 ≤ '/' && '/' ≤ r.2) == negated
  | _ => false

/-- Whether a pattern is about the file name only: a `**` and something that stays in a name. -/
def saysName : List Token → Bool
  | .leading :: t :: ts => (t :: ts).all Token.staysInName
  | _ => false

/-- The method that decides a pattern. -/
def methodOf (tokens : List Token) : Method :=
  if saysText tokens || saysExtension tokens || saysDirectory tokens then .comparison
  else if endsInExtension tokens then .extension
  else if saysName tokens then .name
  else .expression

/-- How deep the expression of a pattern may be nested. -/
def depthLimit : Nat := 250

/-- Whether the expression of a pattern is nested too deep. -/
def isTooDeep (tokens : List Token) : Bool := depthLimit < (expression tokens).depth

/-- A pattern that is nested too deep. -/
inductive DepthError where
  /-- The pattern asks for an extension and has this expression. -/
  | single (expression : String)
  /-- The pattern is at this place among those that are decided by an expression. -/
  | listed (index : Nat)
deriving DecidableEq, Repr

/-- The wording of an error. -/
def DepthError.message : DepthError → String
  | single expression => "error parsing glob '" ++ expression ++ "': error parsing pattern 0"
  | listed index => "error parsing pattern " ++ toString index

/-- **Find a pattern that is nested too deep**; the ones that ask for an extension come first. -/
def depthError? (patterns : List (List Token)) : Option DepthError :=
  match (patterns.filter fun p => methodOf p = .extension).find? isTooDeep with
  | some p => some (.single (expression p).text)
  | none =>
    ((patterns.filter fun p => methodOf p = .expression).findIdx? isTooDeep).map .listed

end UtilityCss.Glob
