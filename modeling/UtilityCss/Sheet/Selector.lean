import UtilityCss.Text.Blank

/-!
# Class selectors

A token becomes a class selector by escaping. Letters, digits, hyphens, underscores and everything
beyond ASCII stand for themselves; a tab, a line feed, a form feed and a carriage return are written
as a backslash, the code point in lower-case hexadecimal and a space, because a backslash right
before a line end would not escape it; every other character gets a backslash.

`readName` is the other direction, by the rules of the style language: it reads escapes back until
an unescaped character ends the name. In a style sheet as it is written a space ends a selector
(`readSelector`); a minified sheet has no space there, so an opening brace ends it as well
(`readTightSelector`).
-/

namespace UtilityCss.Sheet

/-- Whether a character stands for itself in a selector. -/
def isBare (c : Char) : Bool := 128 ≤ c.toNat || c.isAlphanum || c == '-' || c == '_'

/-- Whether a character is written by its code point. -/
def needsCode (c : Char) : Bool := c == '\t' || c == '\n' || c == '\x0c' || c == '\r'

/-- A character as it is written in a selector. -/
def escapeChar (c : Char) : List Char :=
  if isBare c then [c]
  else if needsCode c then '\\' :: Nat.toDigits 16 c.toNat ++ [' ']
  else ['\\', c]

/-- The characters of a selector for a token. -/
def escapeChars (token : List Char) : List Char := token.flatMap escapeChar

/-- **The class selector of a token**, without the leading dot. -/
def escape (token : String) : String := String.ofList (escapeChars token.toList)

/-! ### Reading selectors -/

/-- The value of a hexadecimal digit. -/
def hexValue? (c : Char) : Option Nat :=
  if '0' ≤ c && c ≤ '9' then some (c.toNat - 48)
  else if 'a' ≤ c && c ≤ 'f' then some (c.toNat - 87)
  else if 'A' ≤ c && c ≤ 'F' then some (c.toNat - 55)
  else none

/-- The number that hexadecimal digits write. -/
def hexNumber (digits : List Char) : Nat :=
  digits.foldl (fun n c => 16 * n + (hexValue? c).getD 0) 0

/-- Whether a character is a hexadecimal digit. -/
def isHex (c : Char) : Bool := (hexValue? c).isSome

/-- Whether a character may end an escape by code point. -/
def endsCode (c : Char) : Bool := c == ' ' || needsCode c

/-- Where reading stands: outside escapes, right behind a backslash, or behind some digits of a
code point. -/
inductive EscapeState where
  /-- Outside escapes. -/
  | outside
  /-- Right behind a backslash. -/
  | opened
  /-- Behind the digits of a code point. -/
  | code (digits : List Char)
deriving DecidableEq, Repr

/-- Put a character in front of a name that was read. -/
def consName (c : Char) (r : List Char × List Char) : List Char × List Char := (c :: r.1, r.2)

/-- Read a name from a state on. `ends` says which characters end it where they are not escaped. -/
def readNameFrom (ends : Char → Bool) : EscapeState → List Char → List Char × List Char
  | .outside, [] => ([], [])
  | .outside, c :: rest =>
    if c = '\\' then readNameFrom ends .opened rest
    else if ends c then ([], c :: rest)
    else consName c (readNameFrom ends .outside rest)
  | .opened, [] => ([], [])
  | .opened, c :: rest =>
    if isHex c then readNameFrom ends (.code [c]) rest
    else consName c (readNameFrom ends .outside rest)
  | .code digits, [] => ([Char.ofNat (hexNumber digits)], [])
  | .code digits, c :: rest =>
    if isHex c && digits.length < 6 then readNameFrom ends (.code (digits ++ [c])) rest
    else
      consName (Char.ofNat (hexNumber digits))
        (if endsCode c then readNameFrom ends .outside rest
        else if c = '\\' then readNameFrom ends .opened rest
        else if ends c then ([], c :: rest)
        else consName c (readNameFrom ends .outside rest))

/-- **Read an escaped name**: the name, and the text from the character that ends it on. A backslash
followed by one to six hexadecimal digits and at most one blank is the character with that code
point, a backslash followed by any other character is that character, and every other character is
itself. -/
def readName (ends : Char → Bool) (text : List Char) : List Char × List Char :=
  readNameFrom ends .outside text

/-- Read a selector up to an unescaped space. -/
def readSelector (text : List Char) : List Char × List Char := readName (· == ' ') text

/-- Whether a character ends a selector in a minified style sheet. -/
def endsTight (c : Char) : Bool := c == ' ' || c == '\x7b'

/-- Read a selector up to an unescaped space or opening brace. -/
def readTightSelector (text : List Char) : List Char × List Char := readName endsTight text

end UtilityCss.Sheet
