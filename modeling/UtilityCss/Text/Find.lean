/-!
# Finding text in text

Three questions about a fixed piece of text: does it stand at the start (`strip?`), where does it
stand first (`indexOf?`), and does it stand anywhere (`contains`).
-/

namespace UtilityCss.Text

/-- **What follows a lead**: the rest of the text after `lead`, if the text starts with it. -/
def strip? : (lead text : List Char) → Option (List Char)
  | [], text => some text
  | _ :: _, [] => none
  | l :: lead, c :: text => if l = c then strip? lead text else none

/-- A text starts with a lead exactly if it is the lead followed by what `strip?` gives. -/
theorem strip?_eq_some_iff {lead text rest : List Char} :
    strip? lead text = some rest ↔ text = lead ++ rest := by
  induction lead generalizing text with
  | nil => simp [strip?]
  | cons l lead ih =>
    cases text with
    | nil => simp [strip?]
    | cons c text =>
      by_cases h : l = c
      · simp [strip?, h, ih]
      · simp [strip?, h, Ne.symm h]

/-- The place of the first occurrence of a text, counted in characters. -/
def indexOf? (needle : List Char) : List Char → Option Nat
  | [] => if needle.isEmpty then some 0 else none
  | c :: rest =>
    if (strip? needle (c :: rest)).isSome then some 0
    else (indexOf? needle rest).map (· + 1)

/-- Whether a text occurs anywhere in another one. -/
def contains (needle text : List Char) : Bool := (indexOf? needle text).isSome

end UtilityCss.Text
