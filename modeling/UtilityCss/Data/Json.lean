import UtilityCss.Data.Datum
import UtilityCss.Data.Parser

/-!
# JSON

The grammar is the strict one: no comments, no commas at the end, nothing before or after the one
value but blanks. A text is read as a list of code units first, since two escapes can spell one
character together; the units are joined into characters afterwards, which fails on a unit that has
no partner.
-/

namespace UtilityCss.Data.Json

open UtilityCss.Data.Parser

/-- The blanks between the parts of a value. -/
def blanks : Parser Unit := do let _ ← span ([' ', '\t', '\n', '\r'].contains ·)

/-! ### Texts -/

/-- The character that an escape of one letter stands for. -/
def escaped? : Char → Option Char
  | '\x22' => some '\x22'
  | '\\' => some '\\'
  | '/' => some '/'
  | 'b' => some '\x08'
  | 'f' => some '\x0c'
  | 'n' => some '\n'
  | 'r' => some '\r'
  | 't' => some '\t'
  | _ => none

/-- A code unit after a backslash. -/
def escape : Parser Nat := do
  let c ← next
  if c = 'u' then return ofDigits 16 (← digits isHexDigit 4)
  else
    match escaped? c with
    | some e => return e.toNat
    | none => failure

/-- A code unit of a text: an escape, or a character that is no control character. -/
def unit : Parser Nat := do
  let c ← satisfy fun c => 0x20 ≤ c.toNat && c != '\x22'
  if c = '\\' then escape else return c.toNat

/-- Whether a code unit is the first of two. -/
def isLeading (n : Nat) : Bool := 0xD800 ≤ n && n ≤ 0xDBFF

/-- Whether a code unit is the second of two. -/
def isTrailing (n : Nat) : Bool := 0xDC00 ≤ n && n ≤ 0xDFFF

/-- **The characters that code units spell.** -/
def joinUnits? : List Nat → Option (List Char)
  | [] => some []
  | [n] => if isLeading n || isTrailing n then none else some [Char.ofNat n]
  | n :: m :: rest =>
    -- The two halves of a character have to stand next to each other.
    if isLeading n then
      if isTrailing m then
        (joinUnits? rest).map (Char.ofNat (0x10000 + (n - 0xD800) * 0x400 + (m - 0xDC00)) :: ·)
      else none
    else if isTrailing n then none
    else (joinUnits? (m :: rest)).map (Char.ofNat n :: ·)

/-- A text in quotes. -/
def text : Parser (Option String) := do
  char '\x22'
  let units ← many unit
  char '\x22'
  return (joinUnits? units).map String.ofList

/-! ### Values -/

/-- A number. -/
def number : Parser Unit := do
  let _ ← maybe (char '-')
  let whole ← span1 Char.isDigit
  guard (whole.head? != some '0' || whole.length = 1)
  let _ ← maybe (do char '.'; span1 Char.isDigit)
  if (← maybe (satisfy fun c => c = 'e' || c = 'E')).isSome then
    let _ ← maybe (satisfy fun c => c = '+' || c = '-')
    let _ ← span1 Char.isDigit

/-- **A value** in which lists and tables are nested no deeper than a given number. -/
def value : Nat → Parser Datum
  | 0 => failure
  | depth + 1 => do
    blanks
    let found ←
      (do word "null"; return .null)
        <|> (do word "true"; return .boolean true)
        <|> (do word "false"; return .boolean false)
        <|> (.text <$> text)
        <|> (do
          char '['
          let items ← separated (char ',') (value depth)
          blanks
          char ']'
          return .list items)
        <|> (do
          char '\x7b'
          let entries ← separated (char ',') (do
            blanks
            let key ← text
            blanks
            char ':'
            return (key, ← value depth))
          blanks
          char '\x7d'
          return .table entries)
        <|> (do number; return .number)
    blanks
    return found

/-- **The value that a JSON text writes.** The length of the text bounds its nesting. -/
def read? (source : String) : Option Datum :=
  (value (source.toList.length + 1)).whole? source.toList

end UtilityCss.Data.Json
