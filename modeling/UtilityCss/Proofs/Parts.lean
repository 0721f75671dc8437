import UtilityCss.Proofs.Chunks
import UtilityCss.Value.Parts

/-!
# Nested brackets and the parts of a value

The parts of a value are told apart by a depth that counts both kinds of brackets together and does
not notice a closing bracket of the wrong kind. On a text with properly nested brackets that makes
no difference. This file relates three views of such a text:

* `Nested` — the grammar: every bracket is closed by one of its kind, and what stands between the
  two is nested again;
* `awaitedBehind` — a reader that keeps the closing brackets which are still to come. `nested_iff`
  says that a text is nested just if none is left at its end. The reader goes through a text from
  left to right, so it says what is left of a nested text when a nested part is taken away;
* the depth, which is the number of the awaited brackets (`nextDepth_eq`). So the parts of a nested
  text are nested (`nested_of_mem_parts`), and a text without a comma outside its brackets is not
  cut (`Undivided.uncut`).

`Row` says of parts that they can be written with commas between them: none is cut, and each one
that has others behind it leads to depth zero. Such parts are read again (`Row.parts_joinParts`).
The parts of any text, nested or not, are in a row (`row_rawParts`), so a part has no parts but
itself (`parts_of_mem_parts`).
-/

namespace UtilityCss

open UtilityCss.Text

/-! ### Blanks at the ends -/

namespace Text

/-- A blank at the start of a text is trimmed off. -/
theorem trim_cons_blank {c : Char} (hc : isBlank c = true) (rest : List Char) :
    trim (c :: rest) = trim rest := by
  rw [trim, trimStart, List.dropWhile_cons_of_pos hc]
  rfl

/-- Blanks at the end are trimmed off there. -/
theorem trimEnd_append_blanks {blanks : List Char} (h : ∀ c ∈ blanks, isBlank c = true)
    (text : List Char) : trimEnd (text ++ blanks) = trimEnd text := by
  have hblanks : ∀ c ∈ blanks.reverse, isBlank c = true := fun c hc => h c (List.mem_reverse.mp hc)
  rw [trimEnd, List.reverse_append, List.dropWhile_append_of_pos hblanks]
  rfl

/-- Blanks at the end of a text are trimmed off. -/
theorem trim_append_blanks {blanks : List Char} (h : ∀ c ∈ blanks, isBlank c = true)
    (text : List Char) : trim (text ++ blanks) = trim text := by
  induction text with
  -- If there is nothing but blanks, all of it goes.
  | nil =>
    have hstart : trimStart blanks = [] := List.dropWhile_eq_nil_iff.mpr h
    rw [List.nil_append, trim, hstart]
    rfl
  | cons c rest ih =>
    cases hc : isBlank c with
    | true => rw [List.cons_append, trim_cons_blank hc, trim_cons_blank hc, ih]
    | false =>
      have hstart : ∀ tail, trimStart (c :: tail) = c :: tail :=
        fun tail => List.dropWhile_cons_of_neg (Bool.eq_false_iff.mp hc)
      rw [List.cons_append, trim, trim, hstart, hstart, ← List.cons_append,
        trimEnd_append_blanks h]

/-- Trimming the start first makes no difference. -/
theorem trim_trimStart (text : List Char) : trim (trimStart text) = trim text := by
  rw [trim, trimStart, trimStart, List.dropWhile_idempotent]
  rfl

/-- Trimming the end first makes no difference. -/
theorem trim_trimEnd (text : List Char) : trim (trimEnd text) = trim text := by
  have hsplit : trimEnd text ++ text.rtakeWhile isBlank = text :=
    List.rdropWhile_append_rtakeWhile ..
  conv_rhs => rw [← hsplit]
  exact (trim_append_blanks (fun c hc => List.mem_rtakeWhile_imp hc) _).symm

/-- Trimming a text does not reach over a character that is not blank. -/
theorem trim_append_cons {c : Char} (hc : isBlank c = false) (front rest : List Char) :
    trim (front ++ c :: rest) = trimStart front ++ c :: trimEnd rest := by
  have hstart : trimStart (front ++ c :: rest) = trimStart front ++ c :: rest := by
    rw [trimStart, List.dropWhile_append]
    cases hdrop : front.dropWhile isBlank with
    | nil => simp [trimStart, hdrop, hc]
    | cons d later => simp [trimStart, hdrop]
  have hend : ∀ text : List Char, trimEnd (text ++ c :: rest) = text ++ c :: trimEnd rest := by
    intro text
    rw [trimEnd, List.reverse_append, List.reverse_cons, List.append_assoc, List.dropWhile_append]
    cases hdrop : rest.reverse.dropWhile isBlank with
    | nil => simp [trimEnd, hdrop, hc]
    | cons d later => simp [trimEnd, hdrop]
  rw [trim, hstart, hend]

/-- **A text is its trimmed form** between two runs of blanks. -/
theorem exists_trim (text : List Char) :
    ∃ front back, text = front ++ (trim text ++ back) ∧ (∀ c ∈ front, isBlank c = true) ∧
      ∀ c ∈ back, isBlank c = true := by
  refine ⟨text.takeWhile isBlank, (trimStart text).rtakeWhile isBlank, ?_, ?_, ?_⟩
  · have hend : trim text ++ (trimStart text).rtakeWhile isBlank = trimStart text :=
      List.rdropWhile_append_rtakeWhile ..
    rw [hend, trimStart, List.takeWhile_append_dropWhile]
  · exact List.all_eq_true.mp List.all_takeWhile
  · exact fun c hc => List.mem_rtakeWhile_imp hc

/-- Trimming takes no character away that is not blank. -/
theorem filter_trim {test : Char → Bool} (h : ∀ c, isBlank c = true → test c = false)
    (text : List Char) : (trim text).filter test = text.filter test := by
  obtain ⟨front, back, htext, hfront, hback⟩ := exists_trim text
  have hnone : ∀ blanks : List Char, (∀ c ∈ blanks, isBlank c = true) →
      blanks.filter test = [] := by
    intro blanks hblanks
    rw [List.filter_eq_nil_iff]
    exact fun c hc => Bool.eq_false_iff.mp (h c (hblanks c hc))
  conv_rhs => rw [htext]
  rw [List.filter_append, List.filter_append, hnone front hfront, hnone back hback,
    List.nil_append, List.append_nil]

/-- A character that is not blank is not trimmed off. -/
theorem mem_trim_iff {c : Char} (hc : isBlank c = false) {text : List Char} :
    c ∈ trim text ↔ c ∈ text := by
  have hblank : ∀ d, isBlank d = true → (d == c) = false :=
    fun d hd => beq_false_of_ne (ne_of_test hd hc)
  have hmem : ∀ t : List Char, c ∈ t ↔ c ∈ t.filter (· == c) := by simp
  rw [hmem, filter_trim hblank, ← hmem]

/-- Characters that separate in no state stay with the last piece. -/
theorem exists_cut_append {σ : Type} {separates : σ → Char → Bool} (next : σ → Char → σ)
    {back : List Char} (hback : ∀ c ∈ back, ∀ s, separates s c = false) (s : σ)
    (text : List Char) :
    ∃ pieces last, cut separates next s text = pieces ++ [last] ∧
      cut separates next s (text ++ back) = pieces ++ [last ++ back] := by
  induction text generalizing s with
  | nil =>
    refine ⟨[], [], rfl, ?_⟩
    rw [List.nil_append]
    induction back generalizing s with
    | nil => rfl
    | cons c back ih =>
      obtain ⟨hc, hback⟩ := List.forall_mem_cons.mp hback
      rw [cut, hc, ih hback]
      rfl
  | cons c rest ih =>
    obtain ⟨pieces, last, hcut, hcutBack⟩ := ih (next s c)
    rw [List.cons_append, cut, cut, hcut, hcutBack]
    split
    · exact ⟨[] :: pieces, last, rfl, rfl⟩
    · -- The character goes to the first piece, which is the last one if there is no other.
      cases pieces with
      | nil => exact ⟨[], c :: last, rfl, rfl⟩
      | cons piece pieces => exact ⟨(c :: piece) :: pieces, last, rfl, rfl⟩

end Text

namespace Value

/-! ### Nested texts -/

/-- The brackets that values nest, each with the one that closes it. -/
def brackets : List (Char × Char) := [('[', ']'), ('(', ')')]

/-- **A text with properly nested brackets.** -/
abbrev Nested (text : List Char) : Prop := Balanced brackets text

/-- Whether a character is a bracket. -/
def isBracket (c : Char) : Bool := c == '[' || c == ']' || c == '(' || c == ')'

/-- A test that no bracket passes. -/
theorem isBracket_of_test {test : Char → Bool} (htest : ['[', ']', '(', ')'].any test = false)
    {c : Char} (h : test c = true) : isBracket c = false := by
  have hne : ∀ d ∈ ['[', ']', '(', ')'], c ≠ d :=
    fun d hd => ne_of_test h (Bool.eq_false_iff.mpr (List.any_eq_false.mp htest d hd))
  simp [isBracket, hne '[' (by simp), hne ']' (by simp), hne '(' (by simp), hne ')' (by simp)]

theorem isBracket_of_isBlank {c : Char} (h : isBlank c = true) : isBracket c = false :=
  isBracket_of_test (by decide) h

theorem isBracket_of_isNameChar {c : Char} (h : isNameChar c = true) : isBracket c = false :=
  isBracket_of_test (by decide) h

/-- Being no bracket, said of the table of pairs and as a test. -/
theorem not_brackets_iff {c : Char} :
    (∀ pair ∈ brackets, c ≠ pair.1 ∧ c ≠ pair.2) ↔ isBracket c = false := by
  simp only [brackets, List.forall_mem_cons, List.not_mem_nil, false_imp_iff, implies_true,
    isBracket, Bool.or_eq_false_iff, beq_eq_false_iff_ne]
  tauto

/-- A text without brackets is nested. -/
theorem nested_of_forall_not {text : List Char} (h : ∀ c ∈ text, isBracket c = false) :
    Nested text := by
  induction text with
  | nil => exact .nil
  | cons c rest ih =>
    obtain ⟨hc, hrest⟩ := List.forall_mem_cons.mp h
    exact .plain (not_brackets_iff.mpr hc) (ih hrest)

/-- The closing brackets that are to come behind a character, the next one first; nothing if the
character closes another bracket than the last one that was opened. -/
def awaitedAfter (awaited : List Char) (c : Char) : Option (List Char) :=
  if c = '[' then some (']' :: awaited)
  else if c = '(' then some (')' :: awaited)
  else if c = ']' ∨ c = ')' then
    if awaited.head? = some c then some awaited.tail else none
  else some awaited

/-- **The closing brackets that are to come** behind a text. -/
def awaitedBehind (awaited text : List Char) : Option (List Char) :=
  text.foldlM awaitedAfter awaited

theorem awaitedBehind_cons (awaited : List Char) (c : Char) (rest : List Char) :
    awaitedBehind awaited (c :: rest) = (awaitedAfter awaited c).bind (awaitedBehind · rest) :=
  List.foldlM_cons

theorem awaitedBehind_append (awaited front rest : List Char) :
    awaitedBehind awaited (front ++ rest)
      = (awaitedBehind awaited front).bind (awaitedBehind · rest) :=
  List.foldlM_append

/-- Behind other characters the same brackets are to come. -/
theorem awaitedAfter_of_not_isBracket {c : Char} (hc : isBracket c = false)
    (awaited : List Char) : awaitedAfter awaited c = some awaited := by
  simp only [isBracket, Bool.or_eq_false_iff, beq_eq_false_iff_ne] at hc
  obtain ⟨⟨⟨hsquare, hsquare'⟩, hround⟩, hround'⟩ := hc
  rw [awaitedAfter, if_neg hsquare, if_neg hround, if_neg (not_or.mpr ⟨hsquare', hround'⟩)]

/-- A pair of brackets is opened and closed. -/
theorem awaitedAfter_of_mem_brackets {opening closing : Char}
    (h : (opening, closing) ∈ brackets) (awaited : List Char) :
    awaitedAfter awaited opening = some (closing :: awaited) ∧
      awaitedAfter (closing :: awaited) closing = some awaited := by
  simp only [brackets, List.mem_cons, List.not_mem_nil, or_false] at h
  rcases h with h | h <;> obtain ⟨rfl, rfl⟩ := Prod.mk.inj h <;> exact ⟨rfl, rfl⟩

/-- **A nested text leaves nothing to come.** -/
theorem Nested.awaitedBehind_eq {text : List Char} (h : Nested text) (awaited : List Char) :
    awaitedBehind awaited text = some awaited := by
  induction h generalizing awaited with
  | nil => rfl
  | plain hc _ ih =>
    rw [awaitedBehind_cons, awaitedAfter_of_not_isBracket (not_brackets_iff.mp hc)]
    exact ih awaited
  | nested hpair _ _ ihInner ihRest =>
    obtain ⟨hopening, hclosing⟩ := awaitedAfter_of_mem_brackets hpair awaited
    rw [awaitedBehind_cons, hopening, Option.bind_some, awaitedBehind_append, ihInner,
      Option.bind_some, awaitedBehind_cons, hclosing]
    exact ihRest awaited

/-- The three things that a character can be for the reader. -/
theorem awaitedAfter_cases {awaited awaited' : List Char} {c : Char}
    (h : awaitedAfter awaited c = some awaited') :
    (isBracket c = false ∧ awaited' = awaited) ∨
      (∃ closing, (c, closing) ∈ brackets ∧ awaited' = closing :: awaited) ∨
      awaited = c :: awaited' := by
  cases hc : isBracket c with
  | false =>
    rw [awaitedAfter_of_not_isBracket hc] at h
    exact .inl ⟨rfl, (Option.some.inj h).symm⟩
  | true =>
    -- A bracket opens a pair of either kind, or it closes the one that is awaited next.
    unfold awaitedAfter at h
    split at h
    · next heq => exact .inr (.inl ⟨']', by simp [heq, brackets], (Option.some.inj h).symm⟩)
    · split at h
      · next heq => exact .inr (.inl ⟨')', by simp [heq, brackets], (Option.some.inj h).symm⟩)
      · split at h
        · split at h
          · next hhead =>
            obtain ⟨later, hlater⟩ := List.head?_eq_some_iff.mp hhead
            rw [hlater] at h ⊢
            exact .inr (.inr (by rw [← Option.some.inj h]; rfl))
          · exact absurd h (by simp)
        · next hsquare hround hclosing =>
          simp only [not_or] at hclosing
          simp [isBracket, hsquare, hround, hclosing] at hc

/-- A text behind which nothing is to come closes the awaited brackets one after another, with
nested texts between them. -/
theorem nested_of_awaitedBehind {awaited text : List Char}
    (h : awaitedBehind awaited text = some []) :
    (awaited = [] → Nested text) ∧
      ∀ c later, awaited = c :: later →
        ∃ inner rest, text = inner ++ c :: rest ∧ Nested inner ∧
          awaitedBehind later rest = some [] := by
  -- The induction is on the length, since a bracket is followed by what stands behind its end.
  induction hlength : text.length using Nat.strongRecOn generalizing awaited text with
  | _ n ih =>
    cases text with
    | nil =>
      obtain rfl : awaited = [] := Option.some.inj h
      exact ⟨fun _ => .nil, fun c later hcons => absurd hcons.symm (List.cons_ne_nil c later)⟩
    | cons c rest =>
      rw [awaitedBehind_cons, Option.bind_eq_some_iff] at h
      obtain ⟨awaited', hstep, hrest⟩ := h
      have hlt : rest.length < n := by rw [← hlength]; exact Nat.lt_succ_self _
      obtain ⟨hnested, hclosed⟩ := ih rest.length hlt hrest rfl
      rcases awaitedAfter_cases hstep with ⟨hplain, rfl⟩ | ⟨closing, hpair, rfl⟩ | rfl
      · -- A plain character goes in front of what follows.
        refine ⟨fun hnil => .plain (not_brackets_iff.mpr hplain) (hnested hnil), ?_⟩
        intro d later hcons
        obtain ⟨inner, rest', rfl, hinner, hlater⟩ := hclosed d later hcons
        exact ⟨c :: inner, rest', rfl, .plain (not_brackets_iff.mpr hplain) hinner, hlater⟩
      · -- An opening bracket makes a pair with the one that closes it.
        obtain ⟨inner, rest', rfl, hinner, hbehind⟩ := hclosed closing awaited rfl
        have hlt' : rest'.length < n := by
          rw [List.length_append, List.length_cons] at hlt
          omega
        obtain ⟨hnested', hclosed'⟩ := ih rest'.length hlt' hbehind rfl
        refine ⟨fun hnil => .nested hpair hinner (hnested' hnil), ?_⟩
        intro d later hcons
        obtain ⟨inner', rest'', rfl, hinner', hlater⟩ := hclosed' d later hcons
        refine ⟨c :: (inner ++ closing :: inner'), rest'', ?_, .nested hpair hinner hinner', hlater⟩
        simp
      · -- A closing bracket is the next one that is awaited.
        refine ⟨fun hnil => absurd hnil (List.cons_ne_nil _ _), ?_⟩
        intro d later hcons
        obtain ⟨rfl, rfl⟩ := List.cons.inj hcons
        exact ⟨[], rest, rfl, .nil, hrest⟩

/-- **A text is nested just if nothing is to come** behind it. -/
theorem nested_iff {text : List Char} : Nested text ↔ awaitedBehind [] text = some [] :=
  ⟨fun h => h.awaitedBehind_eq [], fun h => (nested_of_awaitedBehind h).1 rfl⟩

instance (text : List Char) : Decidable (Nested text) := decidable_of_iff _ nested_iff.symm

/-- In front of a text, a nested one makes no difference. -/
theorem nested_append_left_iff {front rest : List Char} (h : Nested front) :
    Nested (front ++ rest) ↔ Nested rest := by
  rw [nested_iff, awaitedBehind_append, h.awaitedBehind_eq, Option.bind_some, nested_iff]

/-- Behind a text, a nested one makes no difference. -/
theorem nested_append_right_iff {front rest : List Char} (h : Nested rest) :
    Nested (front ++ rest) ↔ Nested front := by
  rw [nested_iff, nested_iff, awaitedBehind_append]
  have hrest : (awaitedBehind · rest) = some := funext h.awaitedBehind_eq
  rw [hrest, Option.bind_fun_some]

/-- A pair of brackets around a nested text. -/
theorem Nested.wrap {opening closing : Char} (hpair : (opening, closing) ∈ brackets)
    {text : List Char} (h : Nested text) : Nested (opening :: (text ++ [closing])) :=
  .nested hpair h .nil

/-- Only the brackets of a text matter. -/
theorem awaitedBehind_filter (awaited text : List Char) :
    awaitedBehind awaited (text.filter isBracket) = awaitedBehind awaited text := by
  induction text generalizing awaited with
  | nil => rfl
  | cons c rest ih =>
    cases hc : isBracket c with
    | true =>
      rw [List.filter_cons_of_pos hc, awaitedBehind_cons, awaitedBehind_cons]
      exact congrArg _ (funext ih)
    | false =>
      rw [List.filter_cons_of_neg (by simp [hc]), ih, awaitedBehind_cons,
        awaitedAfter_of_not_isBracket hc, Option.bind_some]

/-- Texts with the same brackets are nested or not together. -/
theorem nested_congr {text text' : List Char}
    (h : text.filter isBracket = text'.filter isBracket) : Nested text ↔ Nested text' := by
  rw [nested_iff, nested_iff, ← awaitedBehind_filter, h, awaitedBehind_filter]

/-- Trimming makes no difference either. -/
theorem nested_trim_iff {text : List Char} : Nested (trim text) ↔ Nested text :=
  nested_congr (filter_trim (fun _ => isBracket_of_isBlank) text)

/-! ### Depth and parts -/

/-- **The depth is the number of the awaited brackets.** -/
theorem nextDepth_eq {awaited awaited' : List Char} {c : Char}
    (h : awaitedAfter awaited c = some awaited') :
    nextDepth awaited.length c = awaited'.length := by
  unfold awaitedAfter at h
  unfold nextDepth
  split at h
  · next heq =>
    rw [if_pos (.inl heq), ← Option.some.inj h]
    rfl
  · next hsquare =>
    split at h
    · next heq =>
      rw [if_pos (.inr heq), ← Option.some.inj h]
      rfl
    · next hround =>
      rw [if_neg (not_or.mpr ⟨hsquare, hround⟩)]
      split at h
      · next hclosing =>
        rw [if_pos hclosing]
        split at h
        · -- The counter does not look at the kind of the bracket, and it is the awaited one here.
          rw [← Option.some.inj h, List.length_tail]
        · exact absurd h (by simp)
      · next hclosing => rw [if_neg hclosing, Option.some.inj h]

/-- The first piece closes what was open before it, and all others are nested on their own. -/
theorem nested_of_mem_cut {awaited text : List Char} (h : awaitedBehind awaited text = some []) :
    ∃ first others, cut separatesParts nextDepth awaited.length text = first :: others ∧
      awaitedBehind awaited first = some [] ∧ ∀ other ∈ others, Nested other := by
  induction text generalizing awaited with
  | nil => exact ⟨[], [], rfl, h, fun other hother => absurd hother List.not_mem_nil⟩
  | cons c rest ih =>
    rw [awaitedBehind_cons, Option.bind_eq_some_iff] at h
    obtain ⟨awaited', hstep, hrest⟩ := h
    -- The cut and the reader go through the text together, since the depth is what is awaited.
    obtain ⟨first, others, hcut, hfirst, hothers⟩ := ih hrest
    rw [cut, nextDepth_eq hstep, hcut]
    split
    · next hseparates =>
      -- A comma at depth zero: nothing is awaited, before it and behind it.
      simp only [separatesParts, Bool.and_eq_true, beq_iff_eq, List.length_eq_zero_iff]
        at hseparates
      obtain ⟨rfl, rfl⟩ := hseparates
      obtain rfl : [] = awaited' := Option.some.inj hstep
      refine ⟨[], first :: others, rfl, rfl, List.forall_mem_cons.mpr ⟨nested_iff.mpr hfirst, ?_⟩⟩
      exact hothers
    · refine ⟨c :: first, others, rfl, ?_, hothers⟩
      rw [awaitedBehind_cons, hstep]
      exact hfirst

/-- **The parts of a nested text are nested.** -/
theorem nested_of_mem_parts {text part : List Char} (h : Nested text) (hpart : part ∈ parts text) :
    Nested part := by
  obtain ⟨raw, hraw, rfl⟩ := List.mem_map.mp hpart
  obtain ⟨first, others, hcut, hfirst, hothers⟩ := nested_of_mem_cut (nested_iff.mp h)
  have hmem : raw ∈ first :: others := hcut ▸ hraw
  rw [nested_trim_iff]
  rcases List.mem_cons.mp hmem with rfl | hmem
  · exact nested_iff.mpr hfirst
  · exact hothers raw hmem

/-- A blank in front of a text belongs to its first part, where it is trimmed off. -/
theorem parts_cons_blank {c : Char} (hc : isBlank c = true) (rest : List Char) :
    parts (c :: rest) = parts rest := by
  have hne : ∀ d, isBlank d = false → c ≠ d := fun d hd => ne_of_test hc hd
  have hnot : separatesParts 0 c = false := by simp [separatesParts, hne ',' (by decide)]
  have hdepth : nextDepth 0 c = 0 := by
    simp [nextDepth, hne '[' (by decide), hne '(' (by decide), hne ']' (by decide),
      hne ')' (by decide)]
  obtain ⟨first, others, hcut⟩ :=
    List.exists_cons_of_ne_nil (cut_ne_nil separatesParts nextDepth 0 rest)
  rw [parts, parts, rawParts, rawParts, cut, hnot, hdepth, hcut]
  simp only [Bool.false_eq_true, if_false, consPiece, List.map_cons, trim_cons_blank hc]

/-- Blanks behind a text belong to its last part. -/
theorem parts_append_blanks {blanks : List Char} (h : ∀ c ∈ blanks, isBlank c = true)
    (text : List Char) : parts (text ++ blanks) = parts text := by
  have hnot : ∀ c ∈ blanks, ∀ depth, separatesParts depth c = false := by
    intro c hc depth
    simp [separatesParts, ne_of_test (h c hc) (x := ',') (by decide)]
  obtain ⟨pieces, last, hcut, hcutBack⟩ := exists_cut_append nextDepth hnot 0 text
  rw [parts, parts, rawParts, rawParts, hcut, hcutBack, List.map_append, List.map_append,
    List.map_singleton, List.map_singleton, trim_append_blanks h]

/-- **Blanks around a text are no concern of its parts.** -/
theorem parts_trim (text : List Char) : parts (trim text) = parts text := by
  obtain ⟨front, back, htext, hfront, hback⟩ := exists_trim text
  conv_rhs => rw [htext]
  clear htext
  -- The blanks at the front are taken off one by one.
  induction front with
  | nil => rw [List.nil_append, parts_append_blanks hback]
  | cons c front ih =>
    obtain ⟨hc, hfront⟩ := List.forall_mem_cons.mp hfront
    rw [List.cons_append, parts_cons_blank hc]
    exact ih hfront

/-! ### Texts that are one part -/

/-- **A nested text without a comma outside its brackets.** -/
inductive Undivided : List Char → Prop
  /-- An empty text. -/
  | nil : Undivided []
  /-- A character that is neither a bracket nor a comma. -/
  | plain {c : Char} {rest : List Char} :
      isBracket c = false → c ≠ ',' → Undivided rest → Undivided (c :: rest)
  /-- A nested text in a pair of brackets. -/
  | nested {opening closing : Char} {inner rest : List Char} :
      (opening, closing) ∈ brackets → Nested inner → Undivided rest →
        Undivided (opening :: (inner ++ closing :: rest))

/-- Such a text is nested. -/
theorem Undivided.isNested {text : List Char} (h : Undivided text) : Nested text := by
  induction h with
  | nil => exact .nil
  | plain hc _ _ ih => exact .plain (not_brackets_iff.mpr hc) ih
  | nested hpair hinner _ ih => exact .nested hpair hinner ih

/-- Two such texts make one. -/
theorem Undivided.append {front rest : List Char} (hfront : Undivided front)
    (hrest : Undivided rest) : Undivided (front ++ rest) := by
  induction hfront with
  | nil => exact hrest
  | plain hc hcomma _ ih => exact .plain hc hcomma ih
  | nested hpair hinner _ ih =>
    rw [List.cons_append, List.append_assoc, List.cons_append]
    exact .nested hpair hinner ih

/-- A text without brackets and commas is one part. -/
theorem undivided_of_forall_not {text : List Char}
    (h : ∀ c ∈ text, isBracket c = false ∧ c ≠ ',') : Undivided text := by
  induction text with
  | nil => exact .nil
  | cons c rest ih =>
    obtain ⟨hc, hrest⟩ := List.forall_mem_cons.mp h
    exact .plain hc.1 hc.2 (ih hrest)

/-- The counter goes up and down again for a pair of brackets. -/
theorem nextDepth_of_mem_brackets {opening closing : Char} (h : (opening, closing) ∈ brackets)
    (depth : Nat) :
    nextDepth depth opening = depth + 1 ∧ nextDepth (depth + 1) closing = depth := by
  simp only [brackets, List.mem_cons, List.not_mem_nil, or_false] at h
  rcases h with h | h <;> obtain ⟨rfl, rfl⟩ := Prod.mk.inj h <;> exact ⟨rfl, rfl⟩

/-- The counter stays for other characters. -/
theorem nextDepth_of_not_isBracket {c : Char} (hc : isBracket c = false) (depth : Nat) :
    nextDepth depth c = depth := by
  simp only [isBracket, Bool.or_eq_false_iff, beq_eq_false_iff_ne] at hc
  simp [nextDepth, hc]

/-- In brackets no comma separates. -/
theorem separatesParts_succ (depth : Nat) (c : Char) : separatesParts (depth + 1) c = false := by
  simp [separatesParts]

/-- Only commas separate. -/
theorem separatesParts_of_ne {c : Char} (hc : c ≠ ',') (depth : Nat) :
    separatesParts depth c = false := by
  simp [separatesParts, hc]

/-- In brackets nothing is cut. -/
theorem Nested.uncut {text : List Char} (h : Nested text) (depth : Nat) :
    Uncut separatesParts nextDepth (depth + 1) text (depth + 1) := by
  induction h generalizing depth with
  | nil => exact .nil
  | plain hc _ ih =>
    refine .cons (separatesParts_succ depth _) ?_
    rw [nextDepth_of_not_isBracket (not_brackets_iff.mp hc)]
    exact ih depth
  -- The inner text is read one level deeper, and its closing bracket leads back.
  | nested hpair _ _ ihInner ihRest =>
    obtain ⟨hopening, hclosing⟩ := nextDepth_of_mem_brackets hpair (depth + 1)
    refine .cons (separatesParts_succ depth _) ?_
    rw [hopening]
    refine (ihInner (depth + 1)).append (.cons (separatesParts_succ _ _) ?_)
    rw [hclosing]
    exact ihRest depth

/-- **A text without a comma outside its brackets is not cut.** -/
theorem Undivided.uncut {text : List Char} (h : Undivided text) :
    Uncut separatesParts nextDepth 0 text 0 := by
  induction h with
  | nil => exact .nil
  | plain hc hcomma _ ih =>
    refine .cons (separatesParts_of_ne hcomma 0) ?_
    rw [nextDepth_of_not_isBracket hc]
    exact ih
  | @nested opening closing _ _ hpair hinner _ ih =>
    obtain ⟨hopening, hclosing⟩ := nextDepth_of_mem_brackets hpair 0
    -- At depth zero a comma would cut, but an opening bracket is none.
    have hcomma : opening ≠ ',' := by
      rintro rfl
      exact absurd hopening (by decide)
    refine .cons (separatesParts_of_ne hcomma 0) ?_
    rw [hopening]
    refine (hinner.uncut 0).append (.cons (separatesParts_succ _ _) ?_)
    rw [hclosing]
    exact ih

/-- A text that is not cut is one part. -/
theorem parts_of_uncut {text : List Char} {depth : Nat}
    (h : Uncut separatesParts nextDepth 0 text depth) : parts text = [trim text] := by
  rw [parts, rawParts, h.cut_eq]
  rfl

/-- A text without a comma outside its brackets is one part. -/
theorem Undivided.parts_eq {text : List Char} (h : Undivided text) : parts text = [trim text] :=
  parts_of_uncut h.uncut

/-! ### Parts in a row -/

/-- **Parts that can stand in a row**, the first of them read from a given depth. None of them is
cut, and all but the last one lead to depth zero, where a comma separates. -/
inductive Row : Nat → List (List Char) → Prop
  /-- The last part may lead to any depth. -/
  | last {depth depth' : Nat} {p : List Char} :
      Uncut separatesParts nextDepth depth p depth' → Row depth [p]
  /-- A part with others behind it. -/
  | cons {depth : Nat} {p : List Char} {ps : List (List Char)} :
      Uncut separatesParts nextDepth depth p 0 → Row 0 ps → Row depth (p :: ps)

theorem Row.ne_nil {depth : Nat} {ps : List (List Char)} (h : Row depth ps) : ps ≠ [] := by
  cases h <;> exact List.cons_ne_nil _ _

/-- Texts that are one part each can stand in a row. -/
theorem row_of_undivided {ps : List (List Char)} (hne : ps ≠ []) (h : ∀ p ∈ ps, Undivided p) :
    Row 0 ps := by
  induction ps with
  | nil => exact absurd rfl hne
  | cons p ps ih =>
    obtain ⟨hp, hps⟩ := List.forall_mem_cons.mp h
    cases ps with
    | nil => exact .last hp.uncut
    | cons q ps => exact .cons hp.uncut (ih (List.cons_ne_nil q ps) hps)

/-- Parts one after another, with a comma and a space between them. -/
def joinParts (ps : List (List Char)) : List Char := [',', ' '].intercalate ps

/-- **Parts in a row are read back** from what they are written as. -/
theorem Row.parts_joinParts {ps : List (List Char)} (h : Row 0 ps) :
    parts (joinParts ps) = ps.map trim := by
  generalize hdepth : 0 = depth at h
  induction h with
  | last huncut =>
    rw [← hdepth] at huncut
    rw [joinParts, List.intercalate_singleton, parts_of_uncut huncut, List.map_singleton]
  | @cons _ p ps huncut hrow ih =>
    rw [← hdepth] at huncut
    obtain ⟨q, others, rfl⟩ := List.exists_cons_of_ne_nil hrow.ne_nil
    have hjoin : joinParts (p :: q :: others) = p ++ ',' :: ' ' :: joinParts (q :: others) := by
      rw [joinParts, List.intercalate_cons_cons, List.append_assoc]
      rfl
    -- The comma stands at depth zero, so it separates, and the space behind it is trimmed off.
    have hcut : rawParts (p ++ ',' :: ' ' :: joinParts (q :: others))
        = p :: rawParts (' ' :: joinParts (q :: others)) := huncut.cut_append_cons rfl _
    rw [hjoin, parts, hcut, List.map_cons, ← parts, parts_cons_blank (by decide), ih rfl]
    rfl

/-- What separates is a comma at depth zero. -/
theorem eq_comma_of_separatesParts {depth : Nat} {c : Char} (h : separatesParts depth c = true) :
    c = ',' ∧ depth = 0 := by
  simpa [separatesParts] using h

/-- **What is cut is in a row.** -/
theorem row_cut (depth : Nat) (text : List Char) :
    Row depth (cut separatesParts nextDepth depth text) := by
  induction text generalizing depth with
  | nil => exact .last .nil
  | cons c rest ih =>
    rw [cut]
    split
    · next hseparates =>
      -- A comma is at depth zero, and behind it the depth is still zero.
      obtain ⟨rfl, rfl⟩ := eq_comma_of_separatesParts hseparates
      exact .cons .nil (ih 0)
    · next hseparates =>
      have hc : separatesParts depth c = false := Bool.eq_false_iff.mpr hseparates
      -- The character joins the first of the others, which is read from the depth behind it.
      have hrest := ih (nextDepth depth c)
      generalize cut separatesParts nextDepth (nextDepth depth c) rest = pieces at hrest ⊢
      cases hrest with
      | last huncut => exact .last (.cons hc huncut)
      | cons huncut hrow => exact .cons (.cons hc huncut) hrow

theorem row_rawParts (text : List Char) : Row 0 (rawParts text) := row_cut 0 text

/-- No part of a row that starts at depth zero is cut. -/
theorem Row.exists_uncut {ps : List (List Char)} (h : Row 0 ps) :
    ∀ p ∈ ps, ∃ depth, Uncut separatesParts nextDepth 0 p depth := by
  generalize hdepth : 0 = depth at h
  induction h with
  | last huncut => exact List.forall_mem_singleton.mpr ⟨_, huncut⟩
  | cons huncut _ ih => exact List.forall_mem_cons.mpr ⟨⟨0, huncut⟩, hdepth ▸ ih rfl⟩

/-- **A part is not divided again.** -/
theorem parts_of_mem_parts {text p : List Char} (h : p ∈ parts text) : parts p = [p] := by
  obtain ⟨raw, hraw, rfl⟩ := List.mem_map.mp h
  obtain ⟨depth, huncut⟩ := (row_rawParts text).exists_uncut raw hraw
  rw [parts_trim, parts_of_uncut huncut]

/-- Texts that are one part each are read back from a list of them. -/
theorem parts_joinParts {ps : List (List Char)} (hne : ps ≠ []) (h : ∀ p ∈ ps, Undivided p) :
    parts (joinParts ps) = ps.map trim :=
  (row_of_undivided hne h).parts_joinParts

end Value

end UtilityCss
