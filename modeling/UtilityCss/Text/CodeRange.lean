/-!
# Ranges of code points

Character classes that come from a Unicode property are tables of closed ranges of code points.
-/

namespace UtilityCss.Text

/-- A closed range of code points. -/
structure CodeRange where
  /-- The least code point of the range. -/
  first : Nat
  /-- The greatest code point of the range. -/
  last : Nat
deriving DecidableEq, Repr

/-- Whether a character lies in the range. -/
def CodeRange.holds (r : CodeRange) (c : Char) : Bool :=
  r.first ≤ c.toNat && c.toNat ≤ r.last

end UtilityCss.Text
