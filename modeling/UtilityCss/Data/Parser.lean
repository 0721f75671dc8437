import UtilityCss.Text.Find

/-!
# Parsers

A parser takes what it reads from the start of a text and leaves the rest, or fails. A failure says
nothing about its cause, and an alternative starts again where the failed one started, so a grammar
can be written down as it is.

Repetition is total because `many` never asks for more rounds than there are characters: a parser
that reads something in every round is never cut short.
-/

namespace UtilityCss.Data

/-- **A parser** for what stands at the start of a text. -/
abbrev Parser := StateT (List Char) Option

namespace Parser

variable {α : Type}

/-- The next character. -/
def next : Parser Char
  | [] => none
  | c :: rest => some (c, rest)

/-- The next character, if it satisfies a condition. -/
def satisfy (p : Char → Bool) : Parser Char
  | [] => none
  | c :: rest => if p c then some (c, rest) else none

/-- A given character. -/
def char (c : Char) : Parser Unit := do let _ ← satisfy (· = c)

/-- A given text. -/
def word (text : String) : Parser Unit := fun input =>
  (Text.strip? text.toList input).map fun rest => ((), rest)

/-- All characters up to the first that does not satisfy a condition. -/
def span (p : Char → Bool) : Parser (List Char) := fun input =>
  some (input.takeWhile p, input.dropWhile p)

/-- All characters up to the first that does not satisfy a condition, at least one. -/
def span1 (p : Char → Bool) : Parser (List Char) := do
  let cs ← span p
  guard !cs.isEmpty
  return cs

/-- The end of the text. -/
def done : Parser Unit
  | [] => some ((), [])
  | _ => none

/-- As many rounds of a parser as succeed, but not more than a text has characters. -/
def upTo (p : Parser α) : List Char → Parser (List α)
  | [], input => some ([], input)
  | _ :: bound, input =>
    match p input with
    | none => some ([], input)
    | some (a, rest) => (upTo p bound rest).map fun (as, rest) => (a :: as, rest)

/-- **As many rounds of a parser as succeed.** Each of them has to read something. -/
def many (p : Parser α) : Parser (List α) := fun input => upTo p input input

/-- What a parser reads, if it succeeds. -/
def maybe (p : Parser α) : Parser (Option α) := (some <$> p) <|> pure none

/-- Things with separators between them. -/
def separated (separator : Parser Unit) (p : Parser α) : Parser (List α) :=
  (do return (← p) :: (← many (do separator; p))) <|> pure []

/-- What a parser makes of a whole text. -/
def whole? (p : Parser α) (text : List Char) : Option α :=
  ((do let a ← p; done; return a : Parser α).run text).map Prod.fst

/-! ### Digits -/

/-- The value of a hexadecimal digit. -/
def hexValue (c : Char) : Nat :=
  if c.isDigit then c.toNat - '0'.toNat
  else if 'a' ≤ c && c ≤ 'f' then c.toNat - 'a'.toNat + 10
  else c.toNat - 'A'.toNat + 10

/-- Whether a character is a hexadecimal digit. -/
def isHexDigit (c : Char) : Bool := c.isDigit || ('a' ≤ c && c ≤ 'f') || ('A' ≤ c && c ≤ 'F')

/-- The number that digits write in a base. -/
def ofDigits (base : Nat) (digits : List Char) : Nat :=
  digits.foldl (fun n c => n * base + hexValue c) 0

/-- A fixed number of digits. -/
def digits (p : Char → Bool) : Nat → Parser (List Char)
  | 0 => pure []
  | n + 1 => do return (← satisfy p) :: (← digits p n)

end Parser

end UtilityCss.Data
