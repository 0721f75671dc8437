import UtilityCss.Text.CodeRange

/-!
# Blank characters and trimming

Every layer of the compiler treats the same characters as space: class attributes are cut at
them, values are trimmed of them, and expressions and style sheets are squeezed along them. The
class is the Unicode property `White_Space`, so it is wider than the ASCII blanks (no-break space,
the em and en spaces and the two line separators belong to it) and does not hold the zero-width
space or the byte order mark.

Text is handled as `List Char` wherever single characters matter, so that the functions on it are
plain recursions on the list.
-/

namespace UtilityCss.Text

/-- **The blank characters**, as ranges in increasing order. -/
def blankRanges : List CodeRange :=
  [⟨0x09, 0x0D⟩, ⟨0x20, 0x20⟩, ⟨0x85, 0x85⟩, ⟨0xA0, 0xA0⟩, ⟨0x1680, 0x1680⟩, ⟨0x2000, 0x200A⟩,
    ⟨0x2028, 0x2029⟩, ⟨0x202F, 0x202F⟩, ⟨0x205F, 0x205F⟩, ⟨0x3000, 0x3000⟩]

/-- Whether a character is blank. -/
def isBlank (c : Char) : Bool := blankRanges.any (·.holds c)

/-- Whether a text holds nothing but blanks. -/
def isBlankText (text : List Char) : Bool := text.all isBlank

/-! ### Trimming -/

/-- Drop the blanks at the start. -/
def trimStart (text : List Char) : List Char := text.dropWhile isBlank

/-- Drop the blanks at the end. -/
def trimEnd (text : List Char) : List Char := (text.reverse.dropWhile isBlank).reverse

/-- **Drop the blanks at both ends.** -/
def trim (text : List Char) : List Char := trimEnd (trimStart text)

@[simp] theorem trim_nil : trim [] = [] := rfl

end UtilityCss.Text
