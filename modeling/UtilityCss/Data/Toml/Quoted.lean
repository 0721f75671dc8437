import UtilityCss.Data.Parser

/-!
# Texts of TOML files

A text is written in one of four ways: in double quotes with escapes, in single quotes as it is, or
in three quotes of either kind over several lines. Within three quotes, one or two quotes in a row
are part of the text, and up to two more may stand right before the three that close it. A line
break right after the opening quotes is dropped, and a line break of either form reads as a line
feed.
-/

namespace UtilityCss.Data.Toml

open UtilityCss.Data.Parser

/-- The two characters that separate words on a line. -/
def isGap (c : Char) : Bool := c = ' ' || c = '\t'

/-- Blanks on a line. -/
def gap : Parser Unit := do let _ ← span isGap

/-- A line break. -/
def newline : Parser Unit := char '\n' <|> word "\r\n"

/-- Whether a character can stand in a comment: a tab, or no control character. -/
def isCommentChar (c : Char) : Bool := c = '\t' || (0x20 ≤ c.toNat && c.toNat != 0x7F)

/-- A comment. -/
def comment : Parser Unit := do
  char '#'
  let _ ← span isCommentChar

/-! ### Escapes -/

/-- The character of a code point that is written in hexadecimal digits. -/
def codePoint (count : Nat) : Parser Char := do
  let n := ofDigits 16 (← digits isHexDigit count)
  guard (n < 0xD800 || (0xE000 ≤ n && n ≤ 0x10FFFF))
  return Char.ofNat n

/-- An escape. -/
def escape : Parser Char := do
  char '\\'
  match ← next with
  | 'b' => return '\x08'
  | 'f' => return '\x0c'
  | 'n' => return '\n'
  | 'r' => return '\r'
  | 't' => return '\t'
  | '\\' => return '\\'
  | '\x22' => return '\x22'
  | 'u' => codePoint 4
  | 'U' => codePoint 8
  | _ => failure

/-- A backslash at the end of a line takes the line break and all blanks after it away. -/
def joinedLines : Parser Unit := do
  char '\\'
  gap
  newline
  let _ ← many (newline <|> do let _ ← satisfy isGap)

/-! ### Texts on one line -/

/-- A text in double quotes on one line. -/
def basicLine : Parser (List Char) := do
  char '\x22'
  let text ← many (satisfy (fun c => isCommentChar c && c != '\x22' && c != '\\') <|> escape)
  char '\x22'
  return text

/-- A text in single quotes on one line. -/
def literalLine : Parser (List Char) := do
  char '\x27'
  let text ← span fun c => isCommentChar c && c != '\x27'
  char '\x27'
  return text

/-! ### Texts over several lines -/

/-- One or two quotes within a text in three quotes. -/
def innerQuotes (quote : Char) : Parser (List Char) := do
  let quotes ← span1 (· = quote)
  guard (quotes.length ≤ 2)
  return quotes

/-- The quotes that close a text in three quotes, less those three. -/
def closingQuotes (quote : Char) : Parser (List Char) := do
  let quotes ← span1 (· = quote)
  guard (3 ≤ quotes.length && quotes.length ≤ 5)
  return quotes.drop 3

/-- A text in three quotes of a kind, made of given pieces. -/
def block (quote : Char) (piece : Parser (List Char)) : Parser (List Char) := do
  word (String.ofList [quote, quote, quote])
  let _ ← maybe newline
  let pieces ← many (piece <|> innerQuotes quote)
  return pieces.flatten ++ (← closingQuotes quote)

/-- A text in three double quotes. -/
def basicBlock : Parser (List Char) :=
  block '\x22'
    ((do return [← satisfy fun c => isCommentChar c && c != '\x22' && c != '\\'])
      <|> (do joinedLines; return [])
      <|> (do return [← escape])
      <|> (do newline; return ['\n']))

/-- A text in three single quotes. -/
def literalBlock : Parser (List Char) :=
  block '\x27'
    ((do return [← satisfy fun c => isCommentChar c && c != '\x27'])
      <|> (do newline; return ['\n']))

/-- **A text.** -/
def text : Parser String :=
  String.ofList <$> (basicBlock <|> basicLine <|> literalBlock <|> literalLine)

end UtilityCss.Data.Toml
