import UtilityCss.Text.Blank
import UtilityCss.Text.Comment

/-!
# Minified style sheets

A style sheet is minified character by character: comments go first; then a run of blanks becomes
one space, or nothing at the start, at the end and next to a brace, a colon or a semicolon; and a
semicolon goes if a closing brace is the next character that is not blank. A backslash and the
character behind it are one unit and are kept whatever the character is.
-/

namespace UtilityCss.Sheet

open UtilityCss.Text

/-- Whether a character needs no blanks around it. -/
def isTight (c : Char) : Bool := c == '\x7b' || c == '\x7d' || c == ':' || c == ';'

/-- What minifying has to remember. -/
structure Spacing where
  /-- Whether anything has been written. -/
  started : Bool
  /-- Whether a run of blanks has just been read and waits for what follows. -/
  waiting : Bool
  /-- Whether the last character written was tight, so that the blanks behind it go. -/
  tight : Bool
deriving DecidableEq, Repr

namespace Spacing

/-- The state at the start of a style sheet. -/
def start : Spacing := ⟨false, false, false⟩

/-- The space that a run of blanks leaves before an ordinary character. -/
def gap (s : Spacing) : List Char := if s.waiting && s.started then [' '] else []

/-- The state behind an ordinary character. -/
def afterOther : Spacing := ⟨true, false, false⟩

/-- The state behind a tight character. -/
def afterTight : Spacing := ⟨true, false, true⟩

/-- The state behind a blank: right behind a tight character it does not count. -/
def afterBlank (s : Spacing) : Spacing := if s.tight then s else { s with waiting := true }

/-- The state behind a semicolon that was left out. -/
def afterOmitted (s : Spacing) : Spacing := { s with waiting := false, tight := false }

end Spacing

/-- The first character that is not blank. -/
def nextSolid? (text : List Char) : Option Char := text.find? fun c => !isBlank c

/-- Squeeze the blanks of a style sheet without comments. -/
def squeeze : Spacing → List Char → List Char
  | _, [] => []
  | s, '\\' :: [] => s.gap ++ ['\\']
  | s, '\\' :: c :: rest => s.gap ++ '\\' :: c :: squeeze .afterOther rest
  | s, c :: rest =>
    if isBlank c then squeeze s.afterBlank rest
    -- The blanks before a tight character are dropped with the space that they would leave.
    else if isTight c then
      if c = ';' ∧ nextSolid? rest = some '\x7d' then squeeze s.afterOmitted rest
      else c :: squeeze .afterTight rest
    else s.gap ++ c :: squeeze .afterOther rest

/-- The characters of a minified style sheet. -/
def minifyChars (css : List Char) : List Char := squeeze .start (withoutComments css)

/-- **Minify a style sheet.** -/
def minify (css : String) : String := String.ofList (minifyChars css.toList)

end UtilityCss.Sheet
