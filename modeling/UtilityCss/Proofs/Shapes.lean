import UtilityCss.Proofs.ChunkLayout
import UtilityCss.Token.Shape

/-!
# Written tokens

A token is written with brackets or with pipes, `name[content]` or `name|content|`, and blanks may
stand around the content. `Token.Written` is a token taken apart in this way, with the conditions on
its parts, and `Written.text` puts it together again:

* `Written.shape?_text` and `exists_written_of_shape?` — a text has a shape exactly if it is a
  written token of that shape;
* `Written.text_injective` — a text is a written token in one way only: the letters in front are the
  name, the character behind them tells brackets from pipes, and the content starts and ends with a
  character that is not blank.

The shape of a text between delimiters does not depend on which delimiters they are (`shape?_wrap`).
-/

namespace UtilityCss

open UtilityCss.Text

namespace Token

/-! ### Delimiters -/

/-- The pairs of delimiters around the content of a token. -/
inductive Delimiters where
  /-- Square brackets. -/
  | brackets
  /-- Pipes. -/
  | pipes
deriving DecidableEq, Repr

namespace Delimiters

/-- The delimiter in front. -/
def opening : Delimiters → Char
  | brackets => '['
  | pipes => '|'

/-- The delimiter at the end. -/
def closing : Delimiters → Char
  | brackets => ']'
  | pipes => '|'

/-- A name with a text between delimiters behind it. -/
def wrap (d : Delimiters) (name inner : List Char) : List Char :=
  name ++ d.opening :: (inner ++ [d.closing])

/-- The opening delimiter tells which pair it is. -/
theorem opening_injective : Function.Injective opening := by
  rintro (_ | _) (_ | _) h
  · rfl
  · exact absurd h (by decide)
  · exact absurd h (by decide)
  · rfl

/-- A delimiter ends a name. -/
theorem isLetter_opening (d : Delimiters) : isLetter d.opening = false := by
  cases d <;> decide

theorem closer?_opening (d : Delimiters) : closer? d.opening = some d.closing := by
  cases d <;> rfl

/-- A character that has a closing one is an opening delimiter. -/
theorem exists_of_closer? {c close : Char} (h : closer? c = some close) :
    ∃ d : Delimiters, c = d.opening ∧ close = d.closing := by
  unfold closer? at h
  split at h
  · exact ⟨brackets, rfl, (Option.some.inj h).symm⟩
  · exact ⟨pipes, rfl, (Option.some.inj h).symm⟩
  · exact absurd h (by simp)

end Delimiters

/-- The text between delimiters is what stands between them, whatever that is. -/
theorem between?_eq_some_iff {text inner : List Char} :
    between? text = some inner ↔ ∃ d : Delimiters, text = d.opening :: (inner ++ [d.closing]) := by
  constructor
  · intro h
    unfold between? at h
    split at h
    · exact absurd h (by simp)
    · next c rest =>
      split at h
      · exact absurd h (by simp)
      · next close hclose =>
        -- The last character has to be the one that closes the first.
        obtain ⟨d, rfl, rfl⟩ := Delimiters.exists_of_closer? hclose
        split at h
        · next hlast =>
          obtain rfl : rest.dropLast = inner := Option.some.inj h
          exact ⟨d, by rw [List.dropLast_append_getLast? _ hlast]⟩
        · exact absurd h (by simp)
  · rintro ⟨d, rfl⟩
    -- The closing delimiter is the last character, whatever the text holds.
    simp [between?, d.closer?_opening]

theorem takeWhile_wrap {name : List Char} (hname : ∀ c ∈ name, isLetter c = true)
    (d : Delimiters) (inner : List Char) : (d.wrap name inner).takeWhile isLetter = name :=
  takeWhile_append_cons hname d.isLetter_opening _

theorem dropWhile_wrap {name : List Char} (hname : ∀ c ∈ name, isLetter c = true)
    (d : Delimiters) (inner : List Char) :
    (d.wrap name inner).dropWhile isLetter = d.opening :: (inner ++ [d.closing]) :=
  dropWhile_append_cons hname d.isLetter_opening _

/-- **The shape of a wrapped text** does not depend on the delimiters. -/
theorem shape?_wrap {name : List Char} (hname : ∀ c ∈ name, isLetter c = true) (d : Delimiters)
    (inner : List Char) :
    shape? (d.wrap name inner)
      = if name = [] ∨ trim inner = [] then none else some ⟨name, trim inner⟩ := by
  -- The delimiter is no letter, so the letters in front are the name.
  have hbetween : between? ((d.wrap name inner).dropWhile isLetter) = some inner :=
    between?_eq_some_iff.mpr ⟨d, dropWhile_wrap hname d inner⟩
  rw [shape?, takeWhile_wrap hname, hbetween]
  simp

/-! ### Written tokens -/

/-- **A short name**, as tokens have one: letters, and at least one. -/
structure IsShortName (name : List Char) : Prop where
  ne_nil : name ≠ []
  letters : ∀ c ∈ name, isLetter c = true

instance (name : List Char) : Decidable (IsShortName name) :=
  decidable_of_iff (name ≠ [] ∧ name.all isLetter = true)
    ⟨fun h => ⟨h.1, List.all_eq_true.mp h.2⟩, fun h => ⟨h.ne_nil, List.all_eq_true.mpr h.letters⟩⟩

/-- **A token taken apart**: its shape, the delimiters, and the blanks around the content. -/
structure Written where
  /-- The name and the content. -/
  shape : Shape
  /-- What stands around the content and its blanks. -/
  delimiters : Delimiters
  /-- The blanks before the content. -/
  before : List Char
  /-- The blanks after the content. -/
  after : List Char
  /-- The name is made of letters. -/
  isShortName : IsShortName shape.name
  /-- There is a content. -/
  content_ne_nil : shape.content ≠ []
  /-- The content has no blanks at its ends. -/
  trim_content : trim shape.content = shape.content
  /-- Nothing but blanks stands before the content. -/
  isBlank_before : ∀ c ∈ before, isBlank c = true
  /-- Nothing but blanks stands after the content. -/
  isBlank_after : ∀ c ∈ after, isBlank c = true

namespace Written

/-- The content with the blanks around it. -/
def inner (w : Written) : List Char := w.before ++ (w.shape.content ++ w.after)

/-- **The text of a written token.** -/
def text (w : Written) : List Char := w.delimiters.wrap w.shape.name w.inner

/-- The blanks around the content are trimmed off. -/
theorem trim_inner (w : Written) : trim w.inner = w.shape.content := by
  -- The blanks before the content go first, then those after it.
  have hbefore : trim w.inner = trim (w.shape.content ++ w.after) := by
    rw [trim, trimStart, inner, List.dropWhile_append_of_pos w.isBlank_before]
    rfl
  rw [hbefore, trim_append_blanks w.isBlank_after, w.trim_content]

/-- The blanks before the content end where it starts. -/
theorem takeWhile_inner (w : Written) : w.inner.takeWhile isBlank = w.before := by
  have hhead := not_isBlank_head_of_trim w.trim_content
  cases hcontent : w.shape.content with
  | nil => exact absurd hcontent w.content_ne_nil
  | cons c rest =>
    -- A trimmed content starts with a character that is not blank.
    rw [hcontent] at hhead
    rw [inner, hcontent, List.cons_append]
    exact takeWhile_append_cons w.isBlank_before (hhead c rfl) _

/-- The shape of a written token is read back. -/
theorem shape?_text (w : Written) : shape? w.text = some w.shape := by
  rw [text, shape?_wrap w.isShortName.letters, w.trim_inner, if_neg]
  exact not_or.mpr ⟨w.isShortName.ne_nil, w.content_ne_nil⟩

/-- **A text is a written token in one way only.** -/
theorem text_injective : Function.Injective text := by
  intro w w' h
  -- The name and the content are read back, and what is left behind the name is the same text.
  have hshape : w.shape = w'.shape := by
    have hread : some w.shape = some w'.shape := by rw [← shape?_text, h, shape?_text]
    exact Option.some.inj hread
  have hwrapped : w.delimiters.opening :: (w.inner ++ [w.delimiters.closing])
      = w'.delimiters.opening :: (w'.inner ++ [w'.delimiters.closing]) := by
    rw [← dropWhile_wrap w.isShortName.letters, ← dropWhile_wrap w'.isShortName.letters]
    exact congrArg (List.dropWhile isLetter) h
  obtain ⟨hopening, hrest⟩ := List.cons.inj hwrapped
  have hdelimiters : w.delimiters = w'.delimiters := Delimiters.opening_injective hopening
  have hinner : w.inner = w'.inner := (List.append_inj' hrest rfl).1
  -- The content starts with a character that is not blank, so the blanks before it are known.
  have hbefore : w.before = w'.before := by
    rw [← takeWhile_inner, hinner, takeWhile_inner]
  have hafter : w.after = w'.after := by
    rw [inner, inner, hbefore, hshape] at hinner
    exact List.append_cancel_left (List.append_cancel_left hinner)
  cases w
  cases w'
  cases hshape
  cases hdelimiters
  cases hbefore
  cases hafter
  rfl

end Written

/-- A text with a shape is a written token of that shape. -/
theorem exists_written_of_shape? {token : List Char} {shape : Shape}
    (h : shape? token = some shape) : ∃ w : Written, w.text = token ∧ w.shape = shape := by
  have hletters : ∀ c ∈ token.takeWhile isLetter, isLetter c = true :=
    List.all_eq_true.mp List.all_takeWhile
  cases hbetween : between? (token.dropWhile isLetter) with
  -- Without delimiters there is no shape.
  | none => exact absurd h (by simp [shape?, hbetween])
  | some inner =>
    obtain ⟨d, hdrop⟩ := between?_eq_some_iff.mp hbetween
    -- The letters at the start and the delimited text behind them are the whole token.
    have htoken : token = d.wrap (token.takeWhile isLetter) inner := by
      rw [Delimiters.wrap, ← hdrop, List.takeWhile_append_dropWhile]
    rw [htoken, shape?_wrap hletters] at h
    split at h
    · exact absurd h (by simp)
    · next hne =>
      obtain rfl := Option.some.inj h
      obtain ⟨hname, hcontent⟩ := not_or.mp hne
      -- What trimming takes off are the blanks of the written token.
      obtain ⟨before, after, hinner, hbefore, hafter⟩ := exists_trim inner
      exact ⟨⟨⟨token.takeWhile isLetter, trim inner⟩, d, before, after, ⟨hname, hletters⟩,
        hcontent, trim_trim inner, hbefore, hafter⟩,
        by rw [Written.text, Written.inner, ← hinner, ← htoken], rfl⟩

end Token

end UtilityCss
