/-!
# Reading the occurrences of a form

A *reader* looks at the start of a text and either recognises a form there, giving what it read
and how many characters that took, or declines. `pieces` runs a reader over a whole text from left
to right: where the reader recognises the form the occurrence becomes one piece and reading goes
on behind it, elsewhere one character is passed over as it is. Occurrences found in this way are
leftmost and do not overlap.

The passed-over characters are kept, so one run serves both uses of a scan: `found` lists what was
read, and `passed` is the text with the occurrences cut out. An occurrence is at least one
character long; a reader that reports length zero is taken to have read one.
-/

namespace UtilityCss.Text

/-- A recogniser of a form at the start of a text: what it read, and the number of characters. -/
abbrev Reader (α : Type) := List Char → Option (α × Nat)

/-- A piece of a scanned text. -/
inductive Piece (α : Type) where
  /-- A character outside every occurrence. -/
  | plain (c : Char)
  /-- An occurrence of the form. -/
  | found (a : α)
deriving DecidableEq, Repr

/-- Scan a text, first passing over `skip` characters that belong to an occurrence already read. -/
def piecesFrom {α : Type} (read : Reader α) : (skip : Nat) → List Char → List (Piece α)
  | _, [] => []
  | skip + 1, _ :: rest => piecesFrom read skip rest
  | 0, c :: rest =>
    match read (c :: rest) with
    | some (a, n) => .found a :: piecesFrom read (n - 1) rest
    | none => .plain c :: piecesFrom read 0 rest

/-- **Scan a text** for the leftmost occurrences of a form that do not overlap. -/
def pieces {α : Type} (read : Reader α) (text : List Char) : List (Piece α) :=
  piecesFrom read 0 text

/-- What a piece read, if it is an occurrence. -/
def Piece.found? {α : Type} : Piece α → Option α
  | .plain _ => none
  | .found a => some a

/-- The character of a piece that is no occurrence. -/
def Piece.plain? {α : Type} : Piece α → Option Char
  | .plain c => some c
  | .found _ => none

/-- Write a piece, occurrences by `write`. -/
def Piece.text {α : Type} (write : α → List Char) : Piece α → List Char
  | .plain c => [c]
  | .found a => write a

/-- The occurrences of a form in a text, from left to right. -/
def found {α : Type} (read : Reader α) (text : List Char) : List α :=
  (pieces read text).filterMap Piece.found?

/-- The text without the occurrences of a form. -/
def passed {α : Type} (read : Reader α) (text : List Char) : List Char :=
  (pieces read text).filterMap Piece.plain?

end UtilityCss.Text
