import UtilityCss.Data.Parser

/-!
# Numbers of TOML files

Nothing is done with a number, but a file that holds a malformed one is refused: an integer that
does not fit 64 bits, or a fraction above the range of double precision. So the parsers here check
and give nothing back.
-/

namespace UtilityCss.Data.Toml

open UtilityCss.Data.Parser

/-- Digits in which single underscores may stand between two of them. -/
def digitGroups (p : Char → Bool) : Parser (List Char) := do
  let first ← satisfy p
  let more ← many (do
    let _ ← maybe (char '_')
    satisfy p)
  return first :: more

/-- A sign; whether it is a minus. -/
def sign : Parser Bool := do
  return (← maybe (satisfy fun c => c = '+' || c = '-')) == some '-'

/-- A whole number in decimal digits, with no zero in front. -/
def decimal : Parser (Bool × List Char) := do
  let negative ← sign
  let digits ← digitGroups Char.isDigit
  guard (digits.head? != some '0' || digits.length = 1)
  return (negative, digits)

/-- The largest number of 64 bits with a sign. -/
def largestInteger : Nat := Nat.pow 2 63 - 1

/-- A whole number. -/
def integer : Parser Unit :=
  (do
    let (base, p) ←
      (do word "0x"; return (16, isHexDigit))
        <|> (do word "0o"; return (8, fun c => '0' ≤ c && c ≤ '7'))
        <|> (do word "0b"; return (2, fun c => c = '0' || c = '1'))
    let digits ← digitGroups p
    guard (ofDigits base digits ≤ largestInteger))
    <|> (do
      let (negative, digits) ← decimal
      guard (ofDigits 10 digits ≤ largestInteger + negative.toNat))

/-- The least number that is out of the range of double precision. -/
def leastOverflow : Nat := (Nat.pow 2 54 - 1) * Nat.pow 2 970

/-- Whether digits times a power of ten are out of the range of double precision. The exponent is
looked at first, so that no power is computed that is far beyond the range. -/
def overflows (digits : List Char) (exponent : Int) : Bool :=
  let digits := digits.dropWhile (· = '0')
  let size := exponent + digits.length
  if digits.isEmpty || size < 300 then false
  else if 320 < size then true
  else
    let n := ofDigits 10 digits
    match exponent with
    | .ofNat e => leastOverflow ≤ n * Nat.pow 10 e
    | .negSucc e => leastOverflow * Nat.pow 10 (e + 1) ≤ n

/-- The exponent of a fraction. -/
def exponent : Parser Int := do
  let _ ← satisfy fun c => c = 'e' || c = 'E'
  let negative ← sign
  let n := ofDigits 10 (← digitGroups Char.isDigit)
  return if negative then -(n : Int) else n

/-- A number with a fractional part, an exponent, or both. One that is too large is refused, and one
that is too small, far below zero, is not. -/
def fraction : Parser Unit := do
  let (negative, whole) ← decimal
  let part ← maybe (do char '.'; digitGroups Char.isDigit)
  let power ← maybe exponent
  guard (part.isSome || power.isSome)
  let part := part.getD []
  guard (negative || !overflows (whole ++ part) (power.getD 0 - part.length))

/-- A number that is none of the reals. -/
def specialNumber : Parser Unit := do
  let _ ← sign
  word "inf" <|> word "nan"

/-- **A number.** -/
def number : Parser Unit := fraction <|> specialNumber <|> integer

end UtilityCss.Data.Toml
