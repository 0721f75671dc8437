import UtilityCss.Text.Cut

/-!
# Lists of values

The parts of a value are separated by commas, but a comma inside brackets or parentheses belongs to
its part: `rgb(1, 2, 3), 4px` has two parts. Both kinds of brackets count into one depth, and a
closing one at depth zero leaves the depth at zero. Parts are trimmed; a value always has at least
one part, and parts may be empty.
-/

namespace UtilityCss.Value

open UtilityCss.Text

/-- The depth after a character. -/
def nextDepth (depth : Nat) (c : Char) : Nat :=
  if c = '[' ∨ c = '(' then depth + 1
  else if c = ']' ∨ c = ')' then depth - 1
  else depth

/-- Whether a character separates two parts. -/
def separatesParts (depth : Nat) (c : Char) : Bool := c == ',' && depth == 0

/-- The parts as they are written. -/
def rawParts (value : List Char) : List (List Char) := cut separatesParts nextDepth 0 value

/-- **The parts of a value**: what stands between commas outside brackets and parentheses. -/
def parts (value : List Char) : List (List Char) := (rawParts value).map trim

end UtilityCss.Value
