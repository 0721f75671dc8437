import UtilityCss.Text.Cut
import UtilityCss.Text.Find

/-!
# Chunks of a class attribute

The value of a class attribute is a list of class names, but a utility token may hold blanks of its
own: `w[50%:Phone, 80%:Computer]` and `h|1 px|` are one class each. A chunk therefore ends at a
blank only where every bracket is closed and the number of pipes since the chunk began is even.

Two choices make the splitter forgiving:

* a closing bracket without an opening one leaves the depth at zero, so a stray `]` cannot swallow
  the chunks behind it;
* an opening bracket that is never closed takes the rest of the attribute into its chunk.

A pipe inside brackets does not count. Since a chunk can only end at depth zero, the state after a
separator is always the initial one: chunks are split independently of those before them.
-/

namespace UtilityCss.Markup

open UtilityCss.Text

/-- Where a position of a chunk stands: the bracket depth, and the number of pipes seen at depth
zero since the chunk began. -/
structure Nesting where
  /-- The number of brackets that are open. -/
  depth : Nat
  /-- The number of pipes outside brackets. -/
  pipes : Nat
deriving DecidableEq, Repr

namespace Nesting

/-- The state at the beginning of a chunk. -/
def start : Nesting := ⟨0, 0⟩

/-- Whether a blank ends the chunk here. -/
def isClosed (n : Nesting) : Bool := n.depth == 0 && n.pipes % 2 == 0

/-- Whether the character separates two chunks. -/
def separates (n : Nesting) (c : Char) : Bool := isBlank c && n.isClosed

/-- The state after a character. -/
def next (n : Nesting) (c : Char) : Nesting :=
  -- The next chunk begins with a clean slate.
  if n.separates c then start
  else if c = '[' then { n with depth := n.depth + 1 }
  else if c = ']' then { n with depth := n.depth - 1 }
  else if c = '|' ∧ n.depth = 0 then { n with pipes := n.pipes + 1 }
  else n

end Nesting

/-- The pieces of an attribute value between separating blanks, untrimmed and possibly empty. -/
def rawChunks (value : List Char) : List (List Char) :=
  cut Nesting.separates Nesting.next Nesting.start value

/-- **The chunks of an attribute value**: its pieces, trimmed, without the empty ones. -/
def chunks (value : List Char) : List (List Char) :=
  ((rawChunks value).map trim).filter fun chunk => !chunk.isEmpty

/-! ### Utility tokens -/

/-- The ending that marks a reference to the classes of another element, as in `#card.classes`. -/
def classCopySuffix : List Char := ".classes".toList

/-- Whether an opening bracket is followed by a closing one, anywhere behind it. -/
def hasBrackets (chunk : List Char) : Bool := (chunk.dropWhile (· != '[')).contains ']'

/-- Whether there are at least two pipes. -/
def hasPipes (chunk : List Char) : Bool := 2 ≤ chunk.count '|'

/-- **Whether a chunk looks like a utility token**: it has a pair of brackets or of pipes, and it
does not refer to the classes of another element. -/
def isUtility (chunk : List Char) : Bool :=
  !contains classCopySuffix chunk && (hasBrackets chunk || hasPipes chunk)

/-- The utility tokens of an attribute value, in order. -/
def utilityChunks (value : List Char) : List (List Char) := (chunks value).filter isUtility

/-- **The utility tokens of an attribute value**, in order and with repetitions. -/
def tokens (value : String) : List String := (utilityChunks value.toList).map String.ofList

end UtilityCss.Markup
