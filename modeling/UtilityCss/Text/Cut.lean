import UtilityCss.Text.Blank

/-!
# Cutting a text into pieces

`cut` is the one splitter of the library: it reads a text under a running state and starts a new
piece at every character that separates under the state reached so far. Class attributes, lists of
values and plain words differ in the state alone. The separators are dropped and nothing else is,
so the number of pieces is one more than the number of separators, and a text without a separator
is its own single piece.

On top of it stand the two operations on blanks that need pieces:

* `words` gives the maximal runs of characters that are not blank;
* `collapse` writes the words with one plain space between them.
-/

namespace UtilityCss.Text

/-- Put a character in front of the first piece. -/
def consPiece (c : Char) : List (List Char) → List (List Char)
  | [] => [[c]]
  | piece :: pieces => (c :: piece) :: pieces

/-- **Cut a text at its separators.** `separates s c` says whether `c` separates under the state
`s`, and `next s c` is the state after `c`. -/
def cut {σ : Type} (separates : σ → Char → Bool) (next : σ → Char → σ) :
    σ → List Char → List (List Char)
  | _, [] => [[]]
  | s, c :: rest =>
    if separates s c then [] :: cut separates next (next s c) rest
    else consPiece c (cut separates next (next s c) rest)

@[simp] theorem cut_nil {σ : Type} (separates : σ → Char → Bool) (next : σ → Char → σ) (s : σ) :
    cut separates next s [] = [[]] := rfl

/-- A text has at least one piece. -/
theorem cut_ne_nil {σ : Type} (separates : σ → Char → Bool) (next : σ → Char → σ) (s : σ)
    (text : List Char) : cut separates next s text ≠ [] := by
  cases text with
  | nil => simp
  | cons c rest =>
    rw [cut]
    split
    · simp
    · cases cut separates next (next s c) rest <;> simp [consPiece]

/-- The pieces of a text between single separating characters. -/
def cutAt (separates : Char → Bool) (text : List Char) : List (List Char) :=
  cut (fun (_ : Unit) c => separates c) (fun s _ => s) () text

/-! ### Words -/

/-- The maximal runs of characters that are not blank. -/
def words (text : List Char) : List (List Char) :=
  (cutAt isBlank text).filter fun word => !word.isEmpty

/-- **Collapse blanks**: the words of a text with one plain space between neighbours. -/
def collapse (text : List Char) : List Char := List.intercalate [' '] (words text)

end UtilityCss.Text
