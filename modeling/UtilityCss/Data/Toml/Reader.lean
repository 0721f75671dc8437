import UtilityCss.Data.Toml.Moment
import UtilityCss.Data.Toml.Number
import UtilityCss.Data.Toml.Quoted
import UtilityCss.Data.Toml.Tree

/-!
# TOML

A file is a sequence of lines: blank, with a pair, or with a header, each with an optional comment
at its end. A list may go over several lines, with comments between its members; a table in braces
may not. Paths of keys and values in values have a limit, `nestingLimit`.
-/

namespace UtilityCss.Data.Toml

open UtilityCss.Data.Parser

/-- A path has fewer keys than this, and a value is nested less deep than this. -/
def nestingLimit : Nat := 80

/-! ### Keys -/

/-- Whether a character can stand in a key without quotes. -/
def isBareKeyChar (c : Char) : Bool := c.isAlphanum || c = '_' || c = '-'

/-- A single key. -/
def key : Parser String :=
  String.ofList <$> (basicLine <|> literalLine <|> span1 isBareKeyChar)

/-- **A path of keys**, with dots and optional blanks between them. -/
def keyPath : Parser KeyPath := do
  let keys ← separated (char '.') (do gap; let k ← key; gap; return k)
  guard (keys.length < nestingLimit)
  match keys.getLast? with
  | some last => return ⟨keys.dropLast, last⟩
  | none => failure

/-! ### Values -/

/-- What may stand between the members of a list: blanks, line breaks and comments. -/
def listGap : Parser Unit := do
  let _ ← many ((do let _ ← satisfy isGap) <|> newline <|> (do comment; newline))

/-- **A value** in which lists and tables are nested no deeper than a given number. -/
def value : Nat → Parser Datum
  | 0 => scalar
  | depth + 1 =>
    (do
      char '['
      let items ← separated (char ',') (do
        listGap
        let item ← value depth
        listGap
        return item)
      -- A comma may follow the last member, but there has to be one.
      if !items.isEmpty then let _ ← maybe (char ',')
      listGap
      char ']'
      return .list items)
      <|> (do
        char '\x7b'
        let pairs ← separated (char ',') (do
          let path ← keyPath
          char '='
          gap
          let datum ← value depth
          gap
          return (⟨path, datum⟩ : Pair))
        gap
        char '\x7d'
        match inlineTable? pairs with
        | some datum => return datum
        | none => failure)
      <|> scalar
where
  /-- A value that holds no other values. -/
  scalar : Parser Datum :=
    (do return .text (some (← text)))
      <|> (do return (← moment).datum)
      <|> (do number; return .number)
      <|> (do word "true"; return .boolean true)
      <|> (do word "false"; return .boolean false)

/-! ### Lines -/

/-- The end of a line or of the file. -/
def lineEnd : Parser Unit := newline <|> done

/-- What may stand after a pair or a header: blanks, a comment, and the end of the line. -/
def trailing : Parser Unit := do
  gap
  let _ ← maybe comment
  lineEnd

/-- The blank lines, and those that hold a comment only, before the next pair or header. -/
def blankLines : Parser Unit := do
  let _ ← many (do gap; let _ ← maybe comment; newline)
  gap
  let _ ← maybe (do comment; done)

/-- A line with a pair. -/
def pair : Parser Pair := do
  let path ← keyPath
  char '='
  gap
  let datum ← value (nestingLimit - 1)
  trailing
  return ⟨path, datum⟩

/-- A line with a header. -/
def header : Parser Header :=
  (do
    word "[["
    let path ← keyPath
    word "]]"
    trailing
    return .member path)
    <|> (do
      char '['
      let path ← keyPath
      char ']'
      trailing
      return .table path)

/-- Pairs on lines of their own. -/
def pairs : Parser (List Pair) := many (do blankLines; pair)

/-- A header with the pairs below it. -/
def part : Parser Section := do
  blankLines
  let h ← header
  return ⟨h, ← pairs⟩

/-- **The table that a TOML text writes.** A byte order mark at the start is dropped. -/
def read? (source : String) : Option Datum := do
  let input := match source.toList with
    | '\uFEFF' :: rest => rest
    | input => input
  let (first, parts) ← Parser.whole? (do
    let first ← pairs
    let parts ← many part
    blankLines
    return (first, parts)) input
  document? first parts

end UtilityCss.Data.Toml
