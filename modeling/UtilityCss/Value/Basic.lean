import UtilityCss.Value.Arithmetic
import UtilityCss.Value.Parts

/-!
# Values of declarations

What a token or one part of it says after the short name becomes a *value*. Most values are written
into the style sheet as they are; the others are

* *calculations*, kept as the pieces of their expression: the references to other elements are
  pieces of their own, so that the text of the value and the list of elements it depends on come
  from the same data;
* *clamps* of three parts, and
* *colours* of three numbers.
-/

namespace UtilityCss

open UtilityCss.Text

/-- The value of a declaration. -/
inductive Value where
  /-- A text that is written as it is. -/
  | verbatim (text : String)
  /-- A calculation, as the pieces of its expression. -/
  | calculation (pieces : List (Piece Reference))
  /-- A value between two bounds. -/
  | clamp (low ideal high : String)
  /-- A colour by its three channels. -/
  | rgb (red green blue : String)
deriving DecidableEq, Repr

namespace Value

/-- The text of an expression, references replaced by the custom properties that carry them. -/
def expressionText (pieces : List (Piece Reference)) : String :=
  String.ofList (pieces.flatMap (Piece.text fun r => r.use.toList))

/-- **The text of a value** in the style sheet. -/
def text : Value → String
  | verbatim s => s
  | calculation pieces => "calc(" ++ expressionText pieces ++ ")"
  | clamp low ideal high => "clamp(" ++ low ++ ", " ++ ideal ++ ", " ++ high ++ ")"
  | rgb red green blue => "rgb(" ++ red ++ ", " ++ green ++ ", " ++ blue ++ ")"

/-- **The references of a value**, in the order in which they stand in it. -/
def references : Value → List Reference
  | calculation pieces => pieces.filterMap Piece.found?
  | _ => []

/-! ### Calculations -/

/-- The text between an opening bracket at the start and a closing one at the end, trimmed. -/
def unwrap? (text : List Char) : Option (List Char) :=
  match text with
  | '[' :: rest => if rest.getLast? = some ']' then some (trim rest.dropLast) else none
  | _ => none

/-- The expression of a calculation: trimmed, and without one pair of outer brackets. -/
def expression (text : List Char) : List Char := (unwrap? (trim text)).getD (trim text)

/-- **The calculation that a text writes.** Operators are spaced first, so that the hyphens inside
the names of custom properties stay as they are. -/
def ofExpression (text : List Char) : Value :=
  calculation (pieces Reference.read (spaceOperators (expression text)))

/-- The references that are registered while the calculation of a text is written: one for each
place where a reference is replaced. -/
def registered (text : List Char) : List Reference :=
  found Reference.read (spaceOperators (expression text))

/-! ### Clamps -/

/-- The clamp of exactly three parts. -/
def clampOf? : List (List Char) → Option Value
  | [low, ideal, high] =>
    some (clamp (String.ofList low) (String.ofList ideal) (String.ofList high))
  | _ => none

theorem clampOf?_eq_some_iff {parts : List (List Char)} {value : Value} :
    clampOf? parts = some value ↔
      ∃ low ideal high, parts = [low, ideal, high] ∧
        value = clamp (String.ofList low) (String.ofList ideal) (String.ofList high) := by
  constructor
  · intro h
    unfold clampOf? at h
    split at h
    · exact ⟨_, _, _, rfl, (Option.some.inj h).symm⟩
    · exact absurd h (by simp)
  · rintro ⟨low, ideal, high, rfl, rfl⟩
    rfl

end Value

end UtilityCss
