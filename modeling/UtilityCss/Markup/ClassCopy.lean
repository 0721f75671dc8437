import UtilityCss.Markup.Chunk
import UtilityCss.Text.Letter
import UtilityCss.Text.Scan

/-!
# References to the classes of another element

`#card.classes` inside a class attribute asks for the classes of the element with the id `card`.
The id is a run of name characters as long as possible, so the reference is read in one way only.
-/

namespace UtilityCss.Markup

open UtilityCss.Text

/-- Read a reference to the classes of an element: its id. -/
def readClassCopy : Reader (List Char) := fun text =>
  match text with
  | '#' :: rest =>
    let id := rest.takeWhile isNameChar
    if id.isEmpty then none
    else (strip? classCopySuffix (rest.drop id.length)).map fun _ =>
      (id, 1 + id.length + classCopySuffix.length)
  | _ => none

/-- **The ids whose classes an attribute value asks for**, in order and with repetitions. -/
def classCopies (value : List Char) : List (List Char) := found readClassCopy value

end UtilityCss.Markup
