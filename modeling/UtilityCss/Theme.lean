import UtilityCss.Table

/-!
# Themes

A theme names values. A plain value that is such a name is replaced by what the name stands for:
colours are looked up before spacings, and a value that names neither stays as it is. The result is
not looked up again.
-/

namespace UtilityCss

/-- Named values. -/
structure Theme where
  /-- The named colours. -/
  colors : Table String String
  /-- The named spacings. -/
  spacing : Table String String

namespace Theme

/-- The theme without names. -/
def empty : Theme := ⟨∅, ∅⟩

instance : EmptyCollection Theme := ⟨empty⟩

instance : Inhabited Theme := ⟨empty⟩

/-- Whether the theme names nothing. -/
def isEmpty (t : Theme) : Bool := t.colors.isEmpty && t.spacing.isEmpty

/-- **What a value stands for**: a colour, else a spacing, else itself. -/
def resolve (t : Theme) (value : String) : String :=
  ((t.colors.get? value).orElse fun _ => t.spacing.get? value).getD value

/-- Under the theme without names every value stands for itself. -/
@[simp] theorem resolve_empty (value : String) : (∅ : Theme).resolve value = value := rfl

/-- Define the names of a second theme on top of the first. -/
def overlay (t u : Theme) : Theme := ⟨t.colors.overlay u.colors, t.spacing.overlay u.spacing⟩

end Theme

end UtilityCss
