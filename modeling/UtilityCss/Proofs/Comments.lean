import UtilityCss.Proofs.Scanning

/-!
# Comments

A comment is found by scanning, and this file says what that comes to. `Uncommented` describes a
text without its comments by where they are: the first one starts at the first opening and ends at
the first end behind it, and the next one is the first one of the rest. `uncommented_iff` says that
every text has exactly one form without comments, and that scanning finds it.

The other statements are about texts of which only a part is known:

* `withoutComments_comment` — a comment goes, and nothing behind it is touched;
* `withoutComments_append_opening` — what stands before the first opening stays;
* `not_pair_infix_append` — two texts that are put together have a pair of characters, such as an
  opening or an end, only if one of them has it or it arises where they meet.
-/

namespace UtilityCss.Text

/-! ### Pairs of characters -/

/-- No pair arises where two texts meet, unless the first one ends in its first character. -/
theorem not_pair_infix_append {a b : Char} {front back : List Char}
    (hfront : ¬ [a, b] <:+: front) (hback : ¬ [a, b] <:+: back)
    (hmeet : front.getLast? = some a → back.head? ≠ some b) : ¬ [a, b] <:+: front ++ back := by
  induction front with
  | nil => exact hback
  | cons c front ih =>
    have hrest : ¬ [a, b] <:+: front ++ back := by
      refine ih (fun hinfix => hfront (List.infix_cons hinfix)) fun hlast => hmeet ?_
      rw [List.getLast?_cons, hlast]
      rfl
    rw [List.cons_append, List.infix_cons_iff]
    rintro (hstart | hinfix)
    · -- The pair starts here: it is in the first text, or the two texts meet inside it.
      obtain ⟨rfl, hsecond⟩ := List.cons_prefix_cons.mp hstart
      cases front with
      | nil =>
        obtain ⟨after, rfl⟩ := hsecond
        exact hmeet rfl rfl
      | cons d front =>
        obtain ⟨rfl, -⟩ := List.cons_prefix_cons.mp hsecond
        exact hfront ⟨[], front, rfl⟩
    · exact hrest hinfix

/-- **The first occurrence** of a text: there is none before it, and whatever follows another
occurrence is a part of what follows this one. -/
theorem exists_first_infix {needle text : List Char} (hne : needle ≠ [])
    (h : needle <:+: text) :
    ∃ before rest, text = before ++ (needle ++ rest) ∧ ¬ needle <:+: before ∧
      ∀ other, needle ++ other <:+ text → other <:+ rest := by
  induction text with
  | nil => exact absurd (List.infix_nil.mp h) hne
  | cons c text ih =>
    by_cases hstart : needle <+: c :: text
    · obtain ⟨rest, hrest⟩ := hstart
      refine ⟨[], rest, hrest.symm, fun hnil => hne (List.infix_nil.mp hnil), ?_⟩
      intro other hother
      -- Both are ends of the text, and the other one is not longer.
      rw [← hrest] at hother
      have hlength := hother.length_le
      rw [List.length_append, List.length_append] at hlength
      exact List.suffix_of_suffix_length_le ((List.suffix_append needle other).trans hother)
        (List.suffix_append needle rest) (by omega)
    · -- There is none at this place, so the first one of the rest is the first one.
      have hlater : needle <:+: text := (List.infix_cons_iff.mp h).resolve_left hstart
      obtain ⟨before, rest, rfl, hbefore, hlast⟩ := ih hlater
      refine ⟨c :: before, rest, rfl, ?_, ?_⟩
      · rw [List.infix_cons_iff]
        rintro (hfront | hinfix)
        · exact hstart (hfront.trans (List.cons_prefix_cons.mpr ⟨rfl, List.prefix_append _ _⟩))
        · exact hbefore hinfix
      · intro other hother
        rcases List.suffix_cons_iff.mp hother with heq | hsuffix
        · exact absurd ⟨other, heq⟩ hstart
        · exact hlast other hsuffix

/-! ### Comments that end where they should -/

/-- The first end of a comment is found behind a body that has none. -/
theorem indexOf?_commentEnd {body : List Char} (h : ¬ commentEnd <:+: body) (rest : List Char) :
    indexOf? commentEnd (body ++ (commentEnd ++ rest)) = some body.length := by
  induction body with
  | nil => rfl
  | cons c body ih =>
    have hbody : ¬ commentEnd <:+: body := fun hinfix => h (List.infix_cons hinfix)
    -- An end at this place would be made of `c` and the next character, which is one of the body or
    -- the star of the real end.
    have hnot : (strip? commentEnd (c :: (body ++ (commentEnd ++ rest)))).isSome = false := by
      rw [Bool.eq_false_iff, Ne, strip?_isSome_iff]
      intro hstart
      obtain ⟨rfl, hslash⟩ := List.cons_prefix_cons.mp hstart
      cases body with
      | nil => exact absurd hslash (by simp [commentEnd])
      | cons d body =>
        obtain ⟨rfl, -⟩ := List.cons_prefix_cons.mp hslash
        exact h ⟨[], body, rfl⟩
    rw [List.cons_append, indexOf?, hnot, ih hbody]
    rfl

/-- **A comment is removed up to its first end**, and nothing behind it is touched. -/
theorem withoutComments_comment {body : List Char} (h : ¬ commentEnd <:+: body)
    (rest : List Char) :
    withoutComments (commentOpening ++ (body ++ (commentEnd ++ rest))) = withoutComments rest := by
  have hread : comment? (commentOpening ++ (body ++ (commentEnd ++ rest)))
      = some ((), body.length + 3 + 1) := by
    have hstrip : strip? commentOpening (commentOpening ++ (body ++ (commentEnd ++ rest)))
        = some (body ++ (commentEnd ++ rest)) := strip?_eq_some_iff.mpr rfl
    rw [comment?, hstrip]
    show (indexOf? commentEnd (body ++ (commentEnd ++ rest))).map _ = _
    rw [indexOf?_commentEnd h, Option.map_some]
    have hlength :
        commentOpening.length + body.length + commentEnd.length = body.length + 3 + 1 := by
      simp only [commentOpening, commentEnd, List.length_cons, List.length_nil]
      omega
    rw [hlength]
  have hdrop : (commentOpening ++ (body ++ (commentEnd ++ rest))).drop (body.length + 3 + 1)
      = rest := by
    have hlength : body.length + 3 + 1 = (commentOpening ++ (body ++ commentEnd)).length := by
      simp only [commentOpening, commentEnd, List.length_append, List.length_cons, List.length_nil]
      omega
    have hparts : commentOpening ++ (body ++ (commentEnd ++ rest))
        = (commentOpening ++ (body ++ commentEnd)) ++ rest := by
      simp only [List.append_assoc]
    rw [hlength, hparts, List.drop_left]
  rw [withoutComments, passed, pieces_of_some (by simp [commentOpening]) hread, hdrop]
  rfl

/-- What stands before the first opening stays. -/
theorem withoutComments_append_opening {before : List Char} (h : ¬ commentOpening <:+: before)
    (rest : List Char) :
    withoutComments (before ++ (commentOpening ++ rest))
      = before ++ withoutComments (commentOpening ++ rest) := by
  induction before with
  | nil => rfl
  | cons c before ih =>
    have hbefore : ¬ commentOpening <:+: before := fun hinfix => h (List.infix_cons hinfix)
    -- An opening at this place would be one in what stands before the first.
    have hnot : c ≠ '/' ∨ (before ++ (commentOpening ++ rest)).head? ≠ some '*' := by
      rw [← not_and_or]
      rintro ⟨rfl, hstar⟩
      cases before with
      | nil => exact absurd hstar (by simp [commentOpening])
      | cons d before =>
        obtain rfl : d = '*' := Option.some.inj hstar
        exact h ⟨[], before, rfl⟩
    rw [List.cons_append, withoutComments_cons hnot, ih hbefore, List.cons_append]

/-! ### A text without its comments -/

/-- **A text and what is left of it without its comments.** -/
inductive Uncommented : List Char → List Char → Prop
  /-- There is no comment. -/
  | clean {text : List Char} :
      (∀ body, ¬ commentOpening ++ body ++ commentEnd <:+: text) → Uncommented text text
  /-- The first comment starts at the first opening and ends at the first end behind it. -/
  | comment {before body rest bare : List Char} :
      ¬ commentOpening <:+: before → ¬ commentEnd <:+: body → Uncommented rest bare →
        Uncommented (before ++ (commentOpening ++ (body ++ (commentEnd ++ rest)))) (before ++ bare)

theorem Uncommented.eq_withoutComments {text bare : List Char} (h : Uncommented text bare) :
    bare = withoutComments text := by
  induction h with
  | clean hnone => exact (withoutComments_of_no_comment hnone).symm
  | comment hbefore hbody _ ih =>
    rw [withoutComments_append_opening hbefore, withoutComments_comment hbody, ← ih]

/-- Every text has a form without comments. -/
theorem exists_uncommented (text : List Char) : ∃ bare, Uncommented text bare := by
  -- The induction is on the length, since it goes on behind a comment.
  induction hlength : text.length using Nat.strongRecOn generalizing text with
  | _ n ih =>
    by_cases hcomment : ∃ body, commentOpening ++ body ++ commentEnd <:+: text
    · obtain ⟨body, front, back, htext⟩ := hcomment
      have hopening : commentOpening <:+: text :=
        ⟨front, body ++ commentEnd ++ back, by rw [← htext]; simp⟩
      obtain ⟨before, rest, rfl, hbefore, hlast⟩ :=
        exists_first_infix (by simp [commentOpening]) hopening
      -- The end of this comment is behind the first opening, so there is a first end behind it.
      have hend : commentEnd <:+: rest := by
        have hsuffix : body ++ commentEnd ++ back <:+ rest :=
          hlast _ ⟨front, by rw [← htext]; simp⟩
        have hinfix : commentEnd <:+: body ++ commentEnd ++ back := ⟨body, back, rfl⟩
        exact hinfix.trans hsuffix.isInfix
      obtain ⟨body', rest', rfl, hbody', -⟩ := exists_first_infix (by simp [commentEnd]) hend
      have hlt : rest'.length < n := by
        rw [← hlength]
        simp only [commentOpening, List.length_append, List.length_cons]
        omega
      obtain ⟨bare, hbare⟩ := ih rest'.length hlt rest' rfl
      exact ⟨before ++ bare, .comment hbefore hbody' hbare⟩
    · exact ⟨text, .clean (not_exists.mp hcomment)⟩

/-- **Every text has one form without comments**, and scanning finds it. -/
theorem uncommented_iff {text bare : List Char} :
    Uncommented text bare ↔ bare = withoutComments text := by
  constructor
  · exact Uncommented.eq_withoutComments
  · rintro rfl
    obtain ⟨bare, hbare⟩ := exists_uncommented text
    rw [← hbare.eq_withoutComments]
    exact hbare

end UtilityCss.Text
