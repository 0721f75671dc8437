import UtilityCss.Proofs.Comments
import UtilityCss.Proofs.MinifiedSelector

/-!
# What minifying does to a style sheet

`Sheet.squeeze` minifies in one pass over the characters, with a state that says whether something
was written, whether blanks wait, and what the last character was. This file describes the result
without the pass. A style sheet without comments is a list of *atoms*: a backslash with the
character behind it, and any other character. Minifying such a list takes two steps, which look at
all of it:

* `omitSemicolons` leaves out the semicolons before a closing brace;
* `joinWords` writes the words again, that is the runs of atoms that are not blank, with one space
  between two of them, unless an atom at the seam needs none.

`Spacing.written` is what a state makes of the atoms to come. Each step of the pass is a step of
`written` (`written_blank`, `written_tight`, `written_other`), and a semicolon that is left out
changes the state only where the state no longer matters, since a brace comes next. So the atoms of
the result are known (`atoms_squeeze`), and what is kept follows from the same three steps: all
atoms but blanks and the omitted semicolons (`solids_written`), and the runs of atoms between blanks
and tight atoms (`runs_written`, `runs_omitSemicolons`).
-/

namespace UtilityCss.Sheet

open UtilityCss.Text

/-! ### Atoms -/

/-- **An atom of a style sheet**: a backslash with the character behind it, or a character alone. -/
inductive Atom where
  | escaped (c : Char)
  | single (c : Char)
deriving DecidableEq, Repr

/-- **The atoms of a text.** A backslash at the end is a character alone. -/
def atoms : List Char → List Atom
  | [] => []
  | '\\' :: c :: rest => .escaped c :: atoms rest
  | c :: rest => .single c :: atoms rest

namespace Atom

def chars : Atom → List Char
  | escaped c => ['\\', c]
  | single c => [c]

/-- A blank behind a backslash is none. -/
def isBlank : Atom → Bool
  | escaped _ => false
  | single c => Text.isBlank c

/-- Whether no blanks are needed next to the atom. -/
def isTight : Atom → Bool
  | escaped _ => false
  | single c => Sheet.isTight c

end Atom

def charsOf (as : List Atom) : List Char := as.flatMap Atom.chars

/-- A character is an atom unless it is a backslash with something behind it. -/
theorem atoms_cons {c : Char} {rest : List Char} (h : c ≠ '\\' ∨ rest = []) :
    atoms (c :: rest) = .single c :: atoms rest := by
  rw [atoms]
  rintro d rest' rfl rfl
  exact h.elim (fun hc => hc rfl) (fun hnil => List.cons_ne_nil d rest' hnil)

/-- **The atoms of a text make the text.** -/
theorem charsOf_atoms (text : List Char) : charsOf (atoms text) = text := by
  fun_induction atoms text with
  | case1 => rfl
  | case2 c rest ih => exact congrArg ('\\' :: c :: ·) ih
  | case3 c rest _ ih => exact congrArg (c :: ·) ih

/-! ### Runs -/

section Runs

variable {separates : Atom → Bool} {a : Atom}

/-- **The runs of atoms between separators**, as long as possible and not empty. -/
def runs (separates : Atom → Bool) (as : List Atom) : List (List Atom) :=
  (as.splitOnP separates).filter fun run => !run.isEmpty

/-- A separator ends the runs before it. -/
theorem runs_append_separator (ha : separates a = true) (front rest : List Atom) :
    runs separates (front ++ a :: rest) = runs separates front ++ runs separates rest := by
  rw [runs, List.splitOnP_append_cons front rest ha, List.filter_append]
  rfl

theorem runs_cons_separator (ha : separates a = true) (rest : List Atom) :
    runs separates (a :: rest) = runs separates rest :=
  runs_append_separator ha [] rest

/-- Atoms without a separator are one run. -/
theorem runs_of_forall_not {as : List Atom} (hne : as ≠ [])
    (h : ∀ b ∈ as, separates b = false) : runs separates as = [as] := by
  rw [runs, List.splitOnP_eq_singleton h]
  exact List.filter_cons_of_pos (by simpa using hne)

/-- Whether a run ends before a list of atoms, that is at its end or at a separator. -/
def EndsRun (separates : Atom → Bool) (as : List Atom) : Prop :=
  ∀ b ∈ as.head?, separates b = true

theorem endsRun_cons {b : Atom} {rest : List Atom} :
    EndsRun separates (b :: rest) ↔ separates b = true := by
  simp [EndsRun]

theorem exists_of_not_endsRun {as : List Atom} (h : ¬EndsRun separates as) :
    ∃ b rest, separates b = false ∧ as = b :: rest := by
  cases as with
  | nil => exact absurd (by simp [EndsRun]) h
  | cons b rest => exact ⟨b, rest, Bool.eq_false_iff.mpr (mt endsRun_cons.mpr h), rfl⟩

/-- An atom before a separator, or at the end, is the end of its run. -/
theorem runs_cons_end (ha : separates a = false) {rest : List Atom}
    (hrest : EndsRun separates rest) :
    runs separates (a :: rest) = [a] :: runs separates rest := by
  have hsingle : runs separates [a] = [[a]] :=
    runs_of_forall_not (List.cons_ne_nil a []) (List.forall_mem_singleton.mpr ha)
  cases rest with
  | nil => exact hsingle
  | cons b rest =>
    have hb : separates b = true := hrest b rfl
    -- The separator splits the list right behind the atom.
    have hsplit := runs_append_separator hb [a] rest
    rw [List.singleton_append, hsingle] at hsplit
    rw [hsplit, runs_cons_separator hb]
    rfl

/-- The first run starts with the first atom, and one more atom goes in front of it. -/
theorem exists_runs_cons {b : Atom} (hb : separates b = false) (rest : List Atom) :
    ∃ run later, runs separates (b :: rest) = (b :: run) :: later ∧
      ∀ a, separates a = false → runs separates (a :: b :: rest) = (a :: b :: run) :: later := by
  -- A list is split into at least one stretch, and the atoms go in front of the first one.
  obtain ⟨run, later, hsplit⟩ :=
    List.exists_cons_of_ne_nil (List.splitOnP_ne_nil separates rest)
  refine ⟨run, later.filter fun r => !r.isEmpty, ?_, fun a ha => ?_⟩
  · rw [runs, List.splitOnP_cons_eq_if_modifyHead, if_neg (Bool.eq_false_iff.mp hb), hsplit]
    rfl
  · rw [runs, List.splitOnP_cons_eq_if_modifyHead, if_neg (Bool.eq_false_iff.mp ha),
      List.splitOnP_cons_eq_if_modifyHead, if_neg (Bool.eq_false_iff.mp hb), hsplit]
    rfl

/-- **The same atom in front** of lists with the same runs, if a run ends before both or before
none. -/
theorem runs_cons_congr (a : Atom) {as bs : List Atom}
    (hruns : runs separates as = runs separates bs)
    (hends : EndsRun separates as ↔ EndsRun separates bs) :
    runs separates (a :: as) = runs separates (a :: bs) := by
  cases ha : separates a with
  | true => rw [runs_cons_separator ha, runs_cons_separator ha, hruns]
  | false =>
    -- The atom is a run of its own before both lists, or it joins the first run of both.
    by_cases has : EndsRun separates as
    · rw [runs_cons_end ha has, runs_cons_end ha (hends.mp has), hruns]
    · obtain ⟨b, as, hb, rfl⟩ := exists_of_not_endsRun has
      obtain ⟨c, bs, hc, rfl⟩ := exists_of_not_endsRun (mt hends.mpr has)
      obtain ⟨run, later, heq, hcons⟩ := exists_runs_cons hb as
      obtain ⟨run', later', heq', hcons'⟩ := exists_runs_cons hc bs
      -- The runs are the same, so the atom joins the same one.
      obtain ⟨⟨rfl, rfl⟩, rfl⟩ : (b = c ∧ run = run') ∧ later = later' := by
        simpa [heq, heq'] using hruns
      rw [hcons a ha, hcons' a ha]

end Runs

/-! ### The declarative form -/

/-- Whether a closing brace is the first atom that is not blank. -/
def isBraceNext (as : List Atom) : Bool :=
  (as.dropWhile Atom.isBlank).head? == some (.single '\x7d')

/-- **Leave out the semicolons** before a closing brace, with or without blanks between them. -/
def omitSemicolons : List Atom → List Atom
  | [] => []
  | a :: rest =>
    if a = .single ';' ∧ isBraceNext rest = true then omitSemicolons rest
    else a :: omitSemicolons rest

/-- **The words of a style sheet**: the runs of atoms that are not blank. -/
def Atom.words (as : List Atom) : List (List Atom) := runs Atom.isBlank as

/-- The space before the next word, if there is one and it does not start with a tight atom. -/
def spaceBefore : List (List Atom) → List Atom
  | [] => []
  | word :: _ => if word.head?.any Atom.isTight then [] else [.single ' ']

/-- **Words one after another**, with a space between two of them unless a tight atom is next to
it. -/
def joinWords : List (List Atom) → List Atom
  | [] => []
  | word :: later =>
    word ++ ((if word.getLast?.any Atom.isTight then [] else spaceBefore later) ++ joinWords later)

/-- **What minifying makes of a style sheet without comments.** -/
def tidy (as : List Atom) : List Atom := joinWords (Atom.words (omitSemicolons as))

/-- The space before a word depends on its first atom. -/
theorem spaceBefore_words_cons {a : Atom} (ha : a.isBlank = false) (rest : List Atom) :
    spaceBefore (Atom.words (a :: rest)) = if a.isTight then [] else [.single ' '] := by
  obtain ⟨word, later, hwords, -⟩ := exists_runs_cons ha rest
  rw [Atom.words, hwords]
  rfl

/-- One more atom in front of the first word. -/
theorem joinWords_cons_cons (a b : Atom) (word : List Atom) (later : List (List Atom)) :
    joinWords ((a :: b :: word) :: later) = a :: joinWords ((b :: word) :: later) := by
  rw [joinWords, joinWords, List.getLast?_cons_cons, List.cons_append]

/-- A word of one atom. -/
theorem joinWords_singleton_cons (a : Atom) (later : List (List Atom)) :
    joinWords ([a] :: later)
      = a :: ((if a.isTight then [] else spaceBefore later) ++ joinWords later) := rfl

/-! ### What a state makes of the atoms to come -/

namespace Spacing

/-- Blanks do not wait behind a tight character. -/
def Sound (s : Spacing) : Prop := s.waiting = true → s.tight = false

/-- What the state makes of blanks before the first word. -/
def lead (s : Spacing) (as : List Atom) : List Atom :=
  if (s.waiting || as.head?.any Atom.isBlank) && s.started && !s.tight then
    spaceBefore (Atom.words as)
  else []

/-- **What is written for the atoms to come**, if no semicolon is left out any more. -/
def written (s : Spacing) (as : List Atom) : List Atom := s.lead as ++ joinWords (Atom.words as)

/-- A blank keeps the state sound. -/
theorem sound_afterBlank {s : Spacing} (h : s.Sound) : s.afterBlank.Sound := by
  unfold afterBlank
  split
  · exact h
  · next htight => exact fun _ => Bool.eq_false_iff.mpr htight

/-- At the start nothing is written before the first word. -/
theorem written_start (as : List Atom) : start.written as = joinWords (Atom.words as) := by
  have hlead : start.lead as = [] := by simp [lead, start]
  rw [written, hlead, List.nil_append]

/-- **A blank is a step of the state.** -/
theorem written_blank {a : Atom} (ha : a.isBlank = true) (s : Spacing) (as : List Atom) :
    s.written (a :: as) = s.afterBlank.written as := by
  have hwords : Atom.words (a :: as) = Atom.words as := runs_cons_separator ha as
  have hlead : s.lead (a :: as) = s.afterBlank.lead as := by
    rw [lead, lead, hwords, afterBlank]
    -- Behind a tight character the blank does not count, and otherwise it waits.
    cases htight : s.tight <;> simp [ha, htight]
  rw [written, written, hlead, hwords]

/-- Behind a tight atom no space is left. -/
theorem written_afterTight (as : List Atom) :
    afterTight.written as = joinWords (Atom.words as) := by
  have hlead : afterTight.lead as = [] := by simp [lead, afterTight]
  rw [written, hlead, List.nil_append]

/-- Behind another atom blanks leave a space. -/
theorem written_afterOther_of_isBlank {as : List Atom} (h : EndsRun Atom.isBlank as) :
    afterOther.written as = spaceBefore (Atom.words as) ++ joinWords (Atom.words as) := by
  cases as with
  | nil => rfl
  | cons b rest => simp [written, lead, afterOther, h b rfl]

/-- Where no blanks are, no space is left. -/
theorem written_afterOther_of_not_isBlank {b : Atom} (hb : b.isBlank = false)
    (rest : List Atom) :
    afterOther.written (b :: rest) = joinWords (Atom.words (b :: rest)) := by
  have hlead : afterOther.lead (b :: rest) = [] := by simp [lead, afterOther, hb]
  rw [written, hlead, List.nil_append]

/-- **The word that an atom starts**, and what is written behind the atom. -/
theorem joinWords_words_cons {a : Atom} (ha : a.isBlank = false) (as : List Atom) :
    joinWords (Atom.words (a :: as))
      = a :: (if a.isTight then afterTight else afterOther).written as := by
  by_cases hhead : EndsRun Atom.isBlank as
  · -- The atom is a word of its own.
    have hwords : Atom.words (a :: as) = [a] :: Atom.words as := runs_cons_end ha hhead
    rw [hwords, joinWords_singleton_cons]
    split
    · rw [written_afterTight, List.nil_append]
    · rw [written_afterOther_of_isBlank hhead]
  · -- The atom goes in front of the word that starts behind it.
    obtain ⟨b, rest, hb, rfl⟩ := exists_of_not_endsRun hhead
    obtain ⟨word, later, hwords, hcons⟩ := exists_runs_cons hb rest
    have hjoin : joinWords (Atom.words (a :: b :: rest))
        = a :: joinWords (Atom.words (b :: rest)) := by
      rw [Atom.words, Atom.words, hcons a ha, hwords, joinWords_cons_cons]
    rw [hjoin]
    split
    · rw [written_afterTight]
    · rw [written_afterOther_of_not_isBlank hb]

/-- **A tight atom is written at once**, whatever waits. -/
theorem written_tight {a : Atom} (ha : a.isBlank = false) (htight : a.isTight = true)
    (s : Spacing) (as : List Atom) : s.written (a :: as) = a :: afterTight.written as := by
  have hlead : s.lead (a :: as) = [] := by
    rw [lead, spaceBefore_words_cons ha, if_pos htight, ite_self]
  rw [written, hlead, List.nil_append, joinWords_words_cons ha, if_pos htight]

/-- **Another atom is written behind the space that waits**, if there is one. -/
theorem written_other {a : Atom} (ha : a.isBlank = false) (htight : a.isTight = false)
    {s : Spacing} (hs : s.Sound) (as : List Atom) :
    s.written (a :: as) = s.gap.map .single ++ a :: afterOther.written as := by
  have hlead : s.lead (a :: as) = s.gap.map .single := by
    rw [lead, spaceBefore_words_cons ha, if_neg (Bool.eq_false_iff.mp htight), gap]
    -- The space is there just if blanks wait and something was written before them.
    cases hwaiting : s.waiting with
    | false => simp [ha]
    | true => cases hstarted : s.started <;> simp [hs hwaiting]
  rw [written, hlead, joinWords_words_cons ha, if_neg (Bool.eq_false_iff.mp htight)]

/-- Before a tight atom the state does not matter. -/
theorem written_congr {as : List Atom} (h : spaceBefore (Atom.words as) = []) (s t : Spacing) :
    s.written as = t.written as := by
  have hlead : ∀ u : Spacing, u.lead as = [] := fun u => by rw [lead, h, ite_self]
  rw [written, written, hlead, hlead]

end Spacing

/-! ### The pass -/

/-- The next character that is not blank is that of the first atom that is not blank. -/
theorem nextSolid?_charsOf_cons (a : Atom) (rest : List Atom) :
    nextSolid? (charsOf (a :: rest))
      = if a.isBlank then nextSolid? (charsOf rest) else a.chars.head? := by
  cases a with
  | escaped c => rfl
  | single c =>
    show List.find? _ (c :: charsOf rest) = _
    cases hc : Text.isBlank c <;> simp [Atom.isBlank, Atom.chars, hc, nextSolid?]

/-- **The pass looks for the brace among characters**, and finds it where a brace is the next atom:
the brace of an escape has a backslash before it. -/
theorem nextSolid?_charsOf_iff (as : List Atom) :
    nextSolid? (charsOf as) = some '\x7d' ↔ isBraceNext as = true := by
  induction as with
  | nil => decide
  | cons a rest ih =>
    rw [nextSolid?_charsOf_cons, isBraceNext]
    cases hblank : a.isBlank with
    | true =>
      rw [List.dropWhile_cons_of_pos hblank, if_pos rfl]
      exact ih
    | false =>
      rw [List.dropWhile_cons_of_neg (Bool.eq_false_iff.mp hblank), if_neg Bool.false_ne_true]
      cases a with
      -- The character that is found is the backslash.
      | escaped c => simp [Atom.chars]
      | single c => simp [Atom.chars]

theorem omitSemicolons_cons {a : Atom} {rest : List Atom}
    (h : ¬(a = .single ';' ∧ isBraceNext rest = true)) :
    omitSemicolons (a :: rest) = a :: omitSemicolons rest := by
  rw [omitSemicolons, if_neg h]

theorem omitSemicolons_cons_single {c : Char} (hc : c ≠ ';') (rest : List Atom) :
    omitSemicolons (.single c :: rest) = .single c :: omitSemicolons rest :=
  omitSemicolons_cons fun h => hc (Atom.single.inj h.1)

/-- Before a closing brace there are only blanks. -/
theorem isBlank_or_eq_brace {a : Atom} {rest : List Atom} (h : isBraceNext (a :: rest) = true) :
    a.isBlank = true ∧ isBraceNext rest = true ∨ a = .single '\x7d' := by
  unfold isBraceNext at h
  cases hblank : a.isBlank with
  | true =>
    rw [List.dropWhile_cons_of_pos hblank] at h
    exact Or.inl ⟨rfl, h⟩
  | false =>
    rw [List.dropWhile_cons_of_neg (Bool.eq_false_iff.mp hblank)] at h
    exact Or.inr (Option.some.inj (beq_iff_eq.mp h))

/-- What stands before a closing brace stays, being blank or the brace itself. -/
theorem omitSemicolons_cons_of_isBraceNext {a : Atom} {rest : List Atom}
    (h : isBraceNext (a :: rest) = true) :
    omitSemicolons (a :: rest) = a :: omitSemicolons rest := by
  refine omitSemicolons_cons ?_
  rintro ⟨rfl, -⟩
  -- A semicolon is neither blank nor a brace.
  obtain ⟨hblank, -⟩ | hbrace := isBlank_or_eq_brace h
  · exact absurd hblank (by decide)
  · exact absurd hbrace (by decide)

/-- No space is left before a closing brace, wherever it stands behind the blanks. -/
theorem spaceBefore_omitSemicolons {as : List Atom} (h : isBraceNext as = true) :
    spaceBefore (Atom.words (omitSemicolons as)) = [] := by
  induction as with
  | nil => rfl
  | cons a rest ih =>
    rw [omitSemicolons_cons_of_isBraceNext h]
    -- Blanks are passed over; the brace itself is tight.
    obtain ⟨hblank, hrest⟩ | rfl := isBlank_or_eq_brace h
    · rw [Atom.words, runs_cons_separator hblank]
      exact ih hrest
    · exact spaceBefore_words_cons (by decide) _

/-- A space that waits is an atom of its own. -/
theorem atoms_gap_append (s : Spacing) (text : List Char) :
    atoms (s.gap ++ text) = s.gap.map .single ++ atoms text := by
  unfold Spacing.gap
  split
  · exact atoms_cons (Or.inl (by decide))
  · rfl

/-- A character that is neither blank nor tight, a backslash at the end too. -/
theorem squeeze_other {c : Char} {rest : List Char} (h : c ≠ '\\' ∨ rest = [])
    (hblank : isBlank c = false) (htight : isTight c = false) (s : Spacing) :
    squeeze s (c :: rest) = s.gap ++ c :: squeeze .afterOther rest := by
  -- A backslash at the end has a case of its own in the pass.
  by_cases hc : c = '\\'
  · obtain rfl := h.resolve_left fun hne => hne hc
    rw [hc]
    rfl
  · rw [squeeze_cons hc, hblank, htight]
    rfl

/-- A tight character is written at once, unless it is a semicolon that is left out. -/
theorem squeeze_tight {c : Char} (hblank : isBlank c = false) (htight : isTight c = true)
    (s : Spacing) (rest : List Char) :
    squeeze s (c :: rest)
      = if Atom.single c = .single ';' ∧ isBraceNext (atoms rest) = true then
          squeeze s.afterOmitted rest
        else c :: squeeze .afterTight rest := by
  have hne : c ≠ '\\' := ne_of_test htight (by decide)
  rw [squeeze_cons hne, if_neg (Bool.eq_false_iff.mp hblank), if_pos htight]
  refine if_congr ?_ rfl rfl
  -- The pass looks at the characters to come, and these are the characters of the atoms.
  rw [Atom.single.injEq, ← nextSolid?_charsOf_iff, charsOf_atoms]

/-- **The atoms of what is written** from a state on. -/
theorem atoms_squeeze (text : List Char) {s : Spacing} (hs : s.Sound) :
    atoms (squeeze s text) = s.written (omitSemicolons (atoms text)) := by
  -- The induction is on the atoms, since the pass takes an escaped character with its backslash.
  fun_induction atoms text generalizing s with
  | case1 =>
    show [] = s.written []
    rw [Spacing.written_congr rfl s .start]
    rfl
  | case2 c rest ih =>
    -- An escape is written as it is and is never tight.
    have hother : Spacing.afterOther.Sound := Bool.noConfusion
    have hatoms : atoms ('\\' :: c :: squeeze .afterOther rest)
        = .escaped c :: Spacing.afterOther.written (omitSemicolons (atoms rest)) :=
      congrArg (Atom.escaped c :: ·) (ih hother)
    rw [squeeze_escaped, atoms_gap_append, hatoms, omitSemicolons_cons (by simp),
      Spacing.written_other rfl rfl hs]
  | case3 c rest hc ih =>
    have hc : c ≠ '\\' ∨ rest = [] := by
      cases rest with
      | nil => exact Or.inr rfl
      | cons d rest => exact Or.inl fun heq => hc d rest heq rfl
    cases hblank : isBlank c with
    | true =>
      rw [squeeze_blank hblank, ih (Spacing.sound_afterBlank hs),
        omitSemicolons_cons_single (ne_of_test hblank (by decide)),
        Spacing.written_blank (a := .single c) hblank]
    | false =>
      cases htight : isTight c with
      | true =>
        rw [squeeze_tight hblank htight, omitSemicolons]
        split
        · next homit =>
          -- The state differs from the one before, but a brace comes next.
          have hfree := spaceBefore_omitSemicolons homit.2
          rw [ih (s := s.afterOmitted) Bool.noConfusion, Spacing.written_congr hfree]
        · have hsound : Spacing.afterTight.Sound := Bool.noConfusion
          rw [atoms_cons (Or.inl (ne_of_test htight (by decide))), ih hsound,
            Spacing.written_tight (a := .single c) hblank htight]
      | false =>
        have hsound : Spacing.afterOther.Sound := Bool.noConfusion
        have hne : c ≠ ';' := by
          rintro rfl
          exact absurd htight (by decide)
        -- A backslash that was at the end is still at the end.
        have hrest : c ≠ '\\' ∨ squeeze .afterOther rest = [] := hc.imp_right fun h => by
          rw [h]
          rfl
        rw [squeeze_other hc hblank htight, atoms_gap_append, atoms_cons hrest, ih hsound,
          omitSemicolons_cons_single hne, Spacing.written_other (a := .single c) hblank htight hs]

/-! ### What is kept -/

/-- Whether words end at the atom, because it is blank or tight. -/
def Atom.isLoose (a : Atom) : Bool := a.isBlank || a.isTight

theorem isLoose_of_isBlank {a : Atom} (h : a.isBlank = true) : a.isLoose = true := by
  rw [Atom.isLoose, h, Bool.true_or]

theorem isLoose_of_isTight {a : Atom} (h : a.isTight = true) : a.isLoose = true := by
  rw [Atom.isLoose, h, Bool.or_true]

/-- The atoms that are not blank. -/
def solids (as : List Atom) : List Atom := as.filter fun a => !a.isBlank

theorem solids_cons_of_isBlank {a : Atom} (h : a.isBlank = true) (as : List Atom) :
    solids (a :: as) = solids as :=
  List.filter_cons_of_neg (by simp [h])

theorem solids_cons {a : Atom} (h : a.isBlank = false) (as : List Atom) :
    solids (a :: as) = a :: solids as :=
  List.filter_cons_of_pos (by simp [h])

theorem solids_gap_append (s : Spacing) (as : List Atom) :
    solids (s.gap.map .single ++ as) = solids as := by
  unfold Spacing.gap
  split
  · exact solids_cons_of_isBlank (by decide) as
  · rfl

/-- A word ends where a space may be left out. -/
theorem endsRun_spaceBefore_append (words : List (List Atom)) :
    EndsRun Atom.isLoose (spaceBefore words ++ joinWords words) := by
  cases words with
  | nil => simp [EndsRun, spaceBefore, joinWords]
  | cons word later =>
    cases word with
    | nil => exact endsRun_cons.mpr rfl
    | cons a word =>
      rw [spaceBefore, List.head?_cons, Option.any_some]
      split
      · next htight => exact endsRun_cons.mpr (isLoose_of_isTight htight)
      · exact endsRun_cons.mpr rfl

/-- **Behind an atom that is not tight**, a word ends in the result just if it ended before. -/
theorem endsRun_written_iff (as : List Atom) :
    EndsRun Atom.isLoose (Spacing.afterOther.written as) ↔ EndsRun Atom.isLoose as := by
  cases as with
  | nil => simp [EndsRun, Spacing.written, Spacing.lead, Atom.words, runs, spaceBefore, joinWords]
  | cons b rest =>
    rw [endsRun_cons]
    -- A blank leaves a space, or the next word starts with a tight atom.
    cases hblank : b.isBlank with
    | true =>
      rw [Spacing.written_afterOther_of_isBlank (endsRun_cons.mpr hblank)]
      exact iff_of_true (endsRun_spaceBefore_append _) (isLoose_of_isBlank hblank)
    | false =>
      rw [Spacing.written_afterOther_of_not_isBlank hblank,
        Spacing.joinWords_words_cons hblank, endsRun_cons]

/-- A space that waits belongs to no run. -/
theorem runs_gap_append (s : Spacing) (as : List Atom) :
    runs Atom.isLoose (s.gap.map .single ++ as) = runs Atom.isLoose as := by
  unfold Spacing.gap
  split
  · exact runs_cons_separator (isLoose_of_isBlank (by decide)) as
  · rfl

/-- **The state never fuses words**, and never separates what is next to each other. -/
theorem runs_written (as : List Atom) {s : Spacing} (hs : s.Sound) :
    runs Atom.isLoose (s.written as) = runs Atom.isLoose as := by
  induction as generalizing s with
  | nil => rw [Spacing.written_congr rfl s .start]; rfl
  | cons a as ih =>
    cases hblank : a.isBlank with
    | true =>
      rw [Spacing.written_blank hblank, ih (Spacing.sound_afterBlank hs),
        runs_cons_separator (isLoose_of_isBlank hblank)]
    | false =>
      cases htight : a.isTight with
      | true =>
        have hloose := isLoose_of_isTight htight
        rw [Spacing.written_tight hblank htight, runs_cons_separator hloose,
          runs_cons_separator hloose, ih Bool.noConfusion]
      | false =>
        rw [Spacing.written_other hblank htight hs, runs_gap_append]
        -- An atom joins the same run in both, since the runs behind it start alike.
        exact runs_cons_congr a (ih Bool.noConfusion) (endsRun_written_iff as)

/-- **The state keeps every atom that is not blank.** -/
theorem solids_written (as : List Atom) {s : Spacing} (hs : s.Sound) :
    solids (s.written as) = solids as := by
  induction as generalizing s with
  | nil => rw [Spacing.written_congr rfl s .start]; rfl
  | cons a as ih =>
    cases hblank : a.isBlank with
    | true =>
      rw [Spacing.written_blank hblank, ih (Spacing.sound_afterBlank hs),
        solids_cons_of_isBlank hblank]
    | false =>
      cases htight : a.isTight with
      | true =>
        rw [Spacing.written_tight hblank htight, solids_cons hblank, solids_cons hblank,
          ih Bool.noConfusion]
      | false =>
        rw [Spacing.written_other hblank htight hs, solids_gap_append, solids_cons hblank,
          solids_cons hblank, ih Bool.noConfusion]

/-- A semicolon that is left out is next to a blank or to a brace. -/
theorem endsRun_omitSemicolons_iff (as : List Atom) :
    EndsRun Atom.isLoose (omitSemicolons as) ↔ EndsRun Atom.isLoose as := by
  cases as with
  | nil => rfl
  | cons a rest =>
    by_cases homit : a = .single ';' ∧ isBraceNext rest = true
    · obtain ⟨rfl, hnext⟩ := homit
      rw [omitSemicolons, if_pos ⟨rfl, hnext⟩]
      -- The semicolon ends a word, and so does what follows it.
      refine iff_of_true ?_ (endsRun_cons.mpr rfl)
      cases rest with
      | nil => exact absurd hnext (by decide)
      | cons b rest =>
        rw [omitSemicolons_cons_of_isBraceNext hnext, endsRun_cons]
        obtain ⟨hblank, -⟩ | rfl := isBlank_or_eq_brace hnext
        · exact isLoose_of_isBlank hblank
        · rfl
    · rw [omitSemicolons_cons homit, endsRun_cons, endsRun_cons]

/-- **A semicolon that is left out belongs to no run.** -/
theorem runs_omitSemicolons (as : List Atom) :
    runs Atom.isLoose (omitSemicolons as) = runs Atom.isLoose as := by
  induction as with
  | nil => rfl
  | cons a as ih =>
    rw [omitSemicolons]
    split
    · next homit =>
      rw [ih, runs_cons_separator]
      rw [homit.1]
      rfl
    · exact runs_cons_congr a ih (endsRun_omitSemicolons_iff as)

/-- **Minifying a style sheet**, without the pass. The comments go, and there is one way in which
they can go. Then the semicolons before a closing brace go, and the blanks are made as few as
possible.

So the backslashes stay with what is behind them, and no atom is lost but blanks and those
semicolons; no two words are fused, and none is cut in two. -/
theorem minify_eq_tidy (css : String) :
    ∃ bare, (∀ other, Uncommented css.toList other ↔ other = bare) ∧
      (minify css).toList = charsOf (tidy (atoms bare)) ∧
      atoms (minify css).toList = tidy (atoms bare) ∧
      solids (atoms (minify css).toList) = solids (omitSemicolons (atoms bare)) ∧
      runs Atom.isLoose (atoms (minify css).toList) = runs Atom.isLoose (atoms bare) := by
  have hstart : Spacing.start.Sound := Bool.noConfusion
  have hatoms : atoms (minify css).toList = tidy (atoms (withoutComments css.toList)) := by
    rw [minify, String.toList_ofList, minifyChars, atoms_squeeze _ hstart, Spacing.written_start,
      tidy]
  refine ⟨withoutComments css.toList, fun other => uncommented_iff, ?_, hatoms, ?_, ?_⟩
  · rw [← hatoms, charsOf_atoms]
  · rw [hatoms, tidy, ← Spacing.written_start, solids_written _ hstart]
  · rw [hatoms, tidy, ← Spacing.written_start, runs_written _ hstart, runs_omitSemicolons]

end UtilityCss.Sheet
