import UtilityCss.Text.Find
import UtilityCss.Text.Scan

/-!
# Block comments

Style sheets and scripts share one comment: it opens with a slash and a star and runs to the first
star and slash behind the opening, over any characters and lines. An opening that is never closed
is ordinary text. The two stars are different characters, so a slash, a star and a slash do not
make a comment.
-/

namespace UtilityCss.Text

/-- The opening of a block comment. -/
def commentOpening : List Char := ['/', '*']

/-- The end of a block comment. -/
def commentEnd : List Char := ['*', '/']

/-- Read a block comment at the start of a text. -/
def comment? : Reader Unit := fun text =>
  match strip? commentOpening text with
  | none => none
  | some body =>
    (indexOf? commentEnd body).map fun n =>
      ((), commentOpening.length + n + commentEnd.length)

/-- **Remove the block comments** of a text. -/
def withoutComments (text : List Char) : List Char := passed comment? text

end UtilityCss.Text
