import UtilityCss.Text.Comment
import UtilityCss.Text.Find
import UtilityCss.Text.Letter
import UtilityCss.Text.Lines
import UtilityCss.Text.Scan
import Mathlib.Data.List.DropRight

/-!
# Finding and scanning

What the searches and scans over a text compute, stated without their recursions:

* `contains_iff_infix` — a text holds another one if it is cut around it in some way;
* `pieces_cons_of_none`, `pieces_of_some` — the two steps of a scan: pass over a character, or take
  an occurrence and go on right behind it;
* `withoutComments_cons` and `withoutComments_append` — characters that no comment can reach stay:
  those before which no opening stands, and a text without a comment end, whatever is written in
  front of it;
* `infix_trim` and `infix_of_mem_cut` — trimming and cutting take characters away from the ends
  only, and `trim_trim` — trimming takes all there is to take away;
* `lines_append` and `lines_flatMap` — a line feed ends a line for good, so lines are read back from
  the text that they were written into.
-/

namespace UtilityCss.Text

/-- Characters that a test tells apart are different. -/
theorem ne_of_test {test : Char → Bool} {c x : Char} (hc : test c = true) (hx : test x = false) :
    c ≠ x := by
  rintro rfl
  rw [hc] at hx
  exact Bool.noConfusion hx

/-- A property of ASCII characters can be checked one by one. -/
theorem forall_ascii {P : Char → Prop} (h : ∀ n < 128, P (Char.ofNat n)) {c : Char}
    (hc : c.toNat < 128) : P c := by
  have hP := h c.toNat hc
  rwa [Char.ofNat_toNat] at hP

/-- Name characters are ASCII. -/
theorem toNat_lt_of_isNameChar {c : Char} (h : isNameChar c = true) : c.toNat < 128 := by
  have hcases : c.isAlphanum = true ∨ c = '-' ∨ c = '_' := by
    simpa [isNameChar, or_assoc] using h
  rcases hcases with halphanum | rfl | rfl
  · -- The classes of characters are ranges of code points, all below 128.
    delta Char.isAlphanum Char.isAlpha Char.isUpper Char.isLower Char.isDigit at halphanum
    simp only [Bool.or_eq_true, Bool.and_eq_true, decide_eq_true_eq, UInt32.le_iff_toNat_le]
      at halphanum
    change ((65 ≤ c.toNat ∧ c.toNat ≤ 90) ∨ (97 ≤ c.toNat ∧ c.toNat ≤ 122)) ∨
      (48 ≤ c.toNat ∧ c.toNat ≤ 57) at halphanum
    omega
  · decide
  · decide

/-- No name character is blank. -/
theorem isBlank_of_isNameChar {c : Char} (h : isNameChar c = true) : isBlank c = false :=
  -- The name characters that have to be looked at are finitely many.
  forall_ascii (P := fun c => isNameChar c = true → isBlank c = false) (by decide +kernel)
    (toNat_lt_of_isNameChar h) h

/-- A run of characters that pass a test ends before one that does not. -/
theorem takeWhile_append_cons {test : Char → Bool} {run : List Char} {x : Char}
    (hrun : ∀ c ∈ run, test c = true) (hx : test x = false) (rest : List Char) :
    (run ++ x :: rest).takeWhile test = run := by
  rw [List.takeWhile_append_of_pos hrun, List.takeWhile_cons_of_neg (Bool.eq_false_iff.mp hx),
    List.append_nil]

/-- What is left behind such a run starts with the character that ended it. -/
theorem dropWhile_append_cons {test : Char → Bool} {run : List Char} {x : Char}
    (hrun : ∀ c ∈ run, test c = true) (hx : test x = false) (rest : List Char) :
    (run ++ x :: rest).dropWhile test = x :: rest := by
  rw [List.dropWhile_append_of_pos hrun, List.dropWhile_cons_of_neg (Bool.eq_false_iff.mp hx)]

/-! ### Finding -/

/-- A lead can be taken off just if the text starts with it. -/
theorem strip?_isSome_iff {lead text : List Char} : (strip? lead text).isSome ↔ lead <+: text := by
  rw [Option.isSome_iff_exists]
  constructor
  · rintro ⟨rest, h⟩
    exact ⟨rest, (strip?_eq_some_iff.mp h).symm⟩
  · rintro ⟨rest, h⟩
    exact ⟨rest, strip?_eq_some_iff.mpr h.symm⟩

/-- The first occurrence of a text is an occurrence. -/
theorem eq_append_of_indexOf? {needle text : List Char} {n : Nat}
    (h : indexOf? needle text = some n) :
    ∃ before rest, text = before ++ needle ++ rest ∧ before.length = n := by
  induction text generalizing n with
  | nil =>
    unfold indexOf? at h
    split at h
    · next hempty =>
      obtain rfl : needle = [] := List.isEmpty_iff.mp hempty
      obtain rfl : 0 = n := Option.some.inj h
      exact ⟨[], [], rfl, rfl⟩
    · exact absurd h (by simp)
  | cons c text ih =>
    unfold indexOf? at h
    split at h
    · next hsome =>
      -- The text stands here, with nothing before it.
      obtain ⟨rest, hrest⟩ := strip?_isSome_iff.mp hsome
      obtain rfl : 0 = n := Option.some.inj h
      exact ⟨[], rest, hrest.symm, rfl⟩
    · -- It does not stand here, so it is the first occurrence behind this character.
      obtain ⟨m, hm, rfl⟩ := Option.map_eq_some_iff.mp h
      obtain ⟨before, rest, htext, hlength⟩ := ih hm
      exact ⟨c :: before, rest, by rw [htext]; rfl, by rw [List.length_cons, hlength]⟩

/-- A text that holds another one has a first occurrence of it. -/
theorem indexOf?_isSome_of_infix {needle text : List Char} (h : needle <:+: text) :
    (indexOf? needle text).isSome := by
  induction text with
  | nil =>
    obtain rfl : needle = [] := List.infix_nil.mp h
    rfl
  | cons c text ih =>
    unfold indexOf?
    split
    · rfl
    · next hnone =>
      -- The text does not stand here, so it stands further on.
      rcases List.infix_cons_iff.mp h with hprefix | hinfix
      · exact absurd (strip?_isSome_iff.mpr hprefix) hnone
      · rw [Option.isSome_map]
        exact ih hinfix

/-- **A text holds another one** just if it can be cut around it. -/
theorem contains_iff_infix {needle text : List Char} :
    contains needle text = true ↔ needle <:+: text := by
  constructor
  · intro h
    obtain ⟨n, hn⟩ := Option.isSome_iff_exists.mp h
    obtain ⟨before, rest, htext, -⟩ := eq_append_of_indexOf? hn
    exact ⟨before, rest, htext.symm⟩
  · exact indexOf?_isSome_of_infix

/-! ### Scanning -/

section Scanning

variable {α : Type} {read : Reader α}

/-- Characters of an occurrence that was already read are passed over at once. -/
theorem piecesFrom_eq_pieces_drop (read : Reader α) (skip : Nat) (text : List Char) :
    piecesFrom read skip text = pieces read (text.drop skip) := by
  induction text generalizing skip with
  | nil => cases skip <;> rfl
  | cons c text ih =>
    cases skip with
    | zero => rfl
    | succ skip => exact ih skip

/-- A character where nothing is read is passed over. -/
theorem pieces_cons_of_none {c : Char} {rest : List Char} (h : read (c :: rest) = none) :
    pieces read (c :: rest) = .plain c :: pieces read rest := by
  rw [pieces, piecesFrom, h]
  rfl

/-- What is read is found, and the scan goes on right behind it. -/
theorem pieces_of_some {text : List Char} {a : α} {n : Nat} (htext : text ≠ [])
    (h : read text = some (a, n + 1)) :
    pieces read text = .found a :: pieces read (text.drop (n + 1)) := by
  cases text with
  | nil => exact absurd rfl htext
  | cons c rest =>
    -- The first character is passed over by this step, and the others are skipped one by one.
    rw [pieces, piecesFrom, h]
    exact congrArg (Piece.found a :: ·) (piecesFrom_eq_pieces_drop read n rest)

end Scanning

/-! ### Comments -/

/-- A comment starts at a slash with a star behind it. -/
theorem comment?_eq_none {c : Char} {rest : List Char} (h : c ≠ '/' ∨ rest.head? ≠ some '*') :
    comment? (c :: rest) = none := by
  have hstrip : strip? commentOpening (c :: rest) = none := by
    rw [← Option.not_isSome_iff_eq_none, strip?_isSome_iff]
    -- An opening at this place would be the slash and the star.
    rintro ⟨body, hbody⟩
    obtain ⟨rfl, rfl⟩ := List.cons.inj hbody
    exact h.elim (fun hc => hc rfl) (fun hstar => hstar rfl)
  rw [comment?, hstrip]

/-- A character at which no comment can start stays. -/
theorem withoutComments_cons {c : Char} {rest : List Char}
    (h : c ≠ '/' ∨ rest.head? ≠ some '*') :
    withoutComments (c :: rest) = c :: withoutComments rest := by
  rw [withoutComments, passed, pieces_cons_of_none (comment?_eq_none h)]
  rfl

/-- A comment is an opening, a body and an end. -/
theorem eq_append_of_comment? {text : List Char} {n : Nat} (h : comment? text = some ((), n)) :
    ∃ body rest, text = (commentOpening ++ body ++ commentEnd) ++ rest ∧
      (commentOpening ++ body ++ commentEnd).length = n := by
  unfold comment? at h
  split at h
  · exact absurd h (by simp)
  · next tail htail =>
    -- The body goes up to the first end behind the opening.
    obtain ⟨k, hk, heq⟩ := Option.map_eq_some_iff.mp h
    obtain ⟨body, rest, rfl, rfl⟩ := eq_append_of_indexOf? hk
    obtain rfl := (Prod.mk.inj heq).2
    refine ⟨body, rest, ?_, by simp [Nat.add_assoc]⟩
    rw [strip?_eq_some_iff.mp htail]
    simp

/-- A text without a comment stays as it is. -/
theorem withoutComments_of_no_comment {text : List Char}
    (h : ∀ body, ¬ commentOpening ++ body ++ commentEnd <:+: text) :
    withoutComments text = text := by
  induction text with
  | nil => rfl
  | cons c rest ih =>
    -- A comment that is read at this place would stand in the text.
    have hnone : comment? (c :: rest) = none := by
      cases hsome : comment? (c :: rest) with
      | none => rfl
      | some result =>
        obtain ⟨body, tail, htext, -⟩ := eq_append_of_comment? hsome
        exact absurd ⟨[], tail, htext.symm⟩ (h body)
    have hrest : ∀ body, ¬ commentOpening ++ body ++ commentEnd <:+: rest :=
      fun body hinfix => h body (List.infix_cons hinfix)
    rw [withoutComments, passed, pieces_cons_of_none hnone]
    exact congrArg (c :: ·) (ih hrest)

/-- A text without an opening has no comment, so it stays. -/
theorem withoutComments_of_no_opening {text : List Char} (h : ¬ commentOpening <:+: text) :
    withoutComments text = text := by
  refine withoutComments_of_no_comment fun body hcomment => h (List.IsInfix.trans ?_ hcomment)
  rw [List.append_assoc]
  exact (List.prefix_append commentOpening (body ++ commentEnd)).isInfix

/-- A text without an end has no comment, so it stays. -/
theorem withoutComments_of_no_end {text : List Char} (h : ¬ commentEnd <:+: text) :
    withoutComments text = text :=
  withoutComments_of_no_comment fun body hcomment =>
    h ((List.suffix_append (commentOpening ++ body) commentEnd).isInfix.trans hcomment)

/-- Where a comment in front of a text could end, if the text has no comment end and no slash that
would complete one: in front of the text. -/
theorem comment_ends_before {front text body rest : List Char} (hend : ¬ commentEnd <:+: text)
    (hslash : text.head? ≠ some '/')
    (h : front ++ text = (commentOpening ++ body ++ commentEnd) ++ rest) :
    ∃ between, front = (commentOpening ++ body ++ commentEnd) ++ between ∧
      rest = between ++ text := by
  rcases List.append_eq_append_iff.mp h with ⟨excess, hexcess, htext⟩ | ⟨between, hfront, hrest⟩
  · -- The comment would run over into the text by `excess`, which ends like the comment.
    have hsuffix : excess <:+ commentOpening ++ body ++ commentEnd := ⟨front, hexcess.symm⟩
    have hexcess_end : excess <:+ commentEnd ∨ commentEnd <:+ excess :=
      List.suffix_or_suffix_of_suffix hsuffix (List.suffix_append _ _)
    have hnot : ¬ commentEnd <:+ excess := by
      intro hin
      refine hend (hin.isInfix.trans ?_)
      rw [htext]
      exact (List.prefix_append _ _).isInfix
    rcases hexcess_end.resolve_right hnot with ⟨lead, hlead⟩
    -- So `excess` is what is left of the two characters of a comment end without some of them.
    match lead, hlead with
    | [], hlead => exact absurd ⟨[], hlead.symm⟩ hnot
    | [_], hlead =>
      obtain rfl : excess = ['/'] := (List.cons.inj hlead).2
      exact absurd (by rw [htext]; rfl) hslash
    | [_, _], hlead =>
      obtain rfl : excess = [] := (List.cons.inj (List.cons.inj hlead).2).2
      exact ⟨[], by rw [hexcess, List.append_nil, List.append_nil], by rw [htext]; rfl⟩
    | _ :: _ :: _ :: _, hlead => exact absurd (congrArg List.length hlead) (by simp [commentEnd])
  · exact ⟨between, hfront, hrest⟩

/-- **A text without a comment end stays**, whatever is written in front of it. -/
theorem withoutComments_append {text : List Char} (hend : ¬ commentEnd <:+: text)
    (hslash : text.head? ≠ some '/') (front : List Char) :
    ∃ kept, withoutComments (front ++ text) = kept ++ text := by
  -- The induction is on the length, since a comment takes many characters at once.
  induction hlength : front.length using Nat.strongRecOn generalizing front with
  | _ n ih =>
    cases front with
    | nil => exact ⟨[], withoutComments_of_no_end hend⟩
    | cons c front =>
      have hlt : front.length < n := by rw [← hlength]; exact Nat.lt_succ_self _
      -- The first character of `front` is kept, or a comment starts with it.
      cases hcomment : comment? (c :: front ++ text) with
      | none =>
        obtain ⟨kept, hkept⟩ := ih front.length hlt front rfl
        refine ⟨c :: kept, ?_⟩
        rw [List.cons_append] at hcomment ⊢
        rw [withoutComments, passed, pieces_cons_of_none hcomment]
        exact congrArg (c :: ·) hkept
      | some result =>
        obtain ⟨body, rest, htext, hsize⟩ := eq_append_of_comment? hcomment
        -- The comment ends in `front`, so what is left of `front` is shorter and `text` is not
        -- touched.
        obtain ⟨between, hfront, hrest⟩ := comment_ends_before hend hslash htext
        have hshort : between.length < n := by
          rw [← hlength, hfront, List.length_append]
          simp [commentOpening]
        obtain ⟨kept, hkept⟩ := ih between.length hshort between rfl
        refine ⟨kept, ?_⟩
        obtain ⟨m, hm⟩ : ∃ m, result.2 = m + 1 := by
          rw [← hsize]
          exact ⟨_, by simp [commentOpening]; rfl⟩
        have hsome : comment? (c :: front ++ text) = some ((), m + 1) := by rw [hcomment, ← hm]
        have hdrop : (c :: front ++ text).drop (m + 1) = between ++ text := by
          rw [htext, ← hm, ← hsize, List.drop_left, hrest]
        rw [withoutComments, passed, pieces_of_some (by simp) hsome, hdrop]
        exact hkept

/-! ### Trimming and cutting -/

theorem prefix_trimEnd (text : List Char) : trimEnd text <+: text := by
  rw [← List.reverse_suffix, trimEnd, List.reverse_reverse]
  exact List.dropWhile_suffix _

theorem infix_trim (text : List Char) : trim text <:+: text :=
  (prefix_trimEnd _).isInfix.trans (List.dropWhile_suffix _).isInfix

/-- A trimmed text does not start with a blank. -/
theorem not_isBlank_head_trim (text : List Char) :
    ∀ c ∈ (trim text).head?, isBlank c = false := by
  intro c hc
  -- The first character is that of the text without the blanks at its start.
  obtain ⟨tail, htail⟩ : trim text <+: trimStart text := prefix_trimEnd _
  have hhead : (text.dropWhile isBlank).head? = some c := by
    rw [← trimStart, ← htail, List.head?_append, hc]
    rfl
  have hnot := List.head?_dropWhile_not isBlank text
  rw [hhead] at hnot
  exact hnot

/-- A trimmed text does not end with a blank. -/
theorem not_isBlank_getLast_trim (text : List Char) :
    ∀ c ∈ (trim text).getLast?, isBlank c = false := by
  intro c hc
  -- The end is trimmed by dropping blanks at the start of the reversed text.
  rw [trim, trimEnd, List.getLast?_reverse] at hc
  have hnot := List.head?_dropWhile_not isBlank (trimStart text).reverse
  rw [hc] at hnot
  exact hnot

/-- No blank is left at the start of a trimmed text. -/
theorem trimStart_trim (text : List Char) : trimStart (trim text) = trim text := by
  cases h : trim text with
  | nil => rfl
  | cons c rest =>
    have hblank : isBlank c = false := not_isBlank_head_trim text c (by rw [h]; rfl)
    exact List.dropWhile_cons_of_neg (Bool.eq_false_iff.mp hblank)

/-- **Trimming twice is trimming once.** -/
theorem trim_trim (text : List Char) : trim (trim text) = trim text := by
  have hend : trimEnd (trim text) = trim text := by
    unfold trim trimEnd
    rw [List.reverse_reverse, List.dropWhile_idempotent]
  calc trim (trim text) = trimEnd (trimStart (trim text)) := rfl
    _ = trimEnd (trim text) := by rw [trimStart_trim]
    _ = trim text := hend

/-- A text without blanks is trimmed as it is. -/
theorem trim_of_forall_not {text : List Char} (h : ∀ c ∈ text, isBlank c = false) :
    trim text = text := by
  have hdrop : ∀ chars : List Char, (∀ c ∈ chars, isBlank c = false) →
      chars.dropWhile isBlank = chars := by
    intro chars hchars
    cases chars with
    | nil => rfl
    | cons c rest => exact List.dropWhile_cons_of_neg (Bool.eq_false_iff.mp (hchars c (by simp)))
  rw [trim, trimStart, hdrop text h, trimEnd, hdrop text.reverse (by simpa using h),
    List.reverse_reverse]

/-- **The pieces of a cut are stretches of the text**, whatever the cut is made by. -/
theorem infix_of_mem_cut {σ : Type} {separates : σ → Char → Bool} {next : σ → Char → σ} {s : σ}
    {text piece : List Char} (h : piece ∈ cut separates next s text) : piece <:+: text := by
  -- A character is put in front of the first piece, which has to start the text for that.
  suffices key : ∃ first others, cut separates next s text = first :: others ∧ first <+: text ∧
      ∀ other ∈ others, other <:+: text by
    obtain ⟨first, others, hcut, hfirst, hothers⟩ := key
    rw [hcut] at h
    rcases List.mem_cons.mp h with rfl | h
    · exact hfirst.isInfix
    · exact hothers piece h
  clear h
  induction text generalizing s with
  | nil => exact ⟨[], [], rfl, List.nil_prefix, fun other h => absurd h List.not_mem_nil⟩
  | cons c rest ih =>
    obtain ⟨first, others, hcut, hfirst, hothers⟩ := ih (s := next s c)
    have hlater : ∀ other ∈ others, other <:+: c :: rest :=
      fun other h => List.infix_cons (hothers other h)
    rw [cut, hcut]
    -- A separator opens an empty piece; any other character goes into the first one.
    split
    · refine ⟨[], first :: others, rfl, List.nil_prefix, ?_⟩
      exact List.forall_mem_cons.mpr ⟨List.infix_cons hfirst.isInfix, hlater⟩
    · exact ⟨c :: first, others, rfl, List.cons_prefix_cons.mpr ⟨rfl, hfirst⟩, hlater⟩

/-! ### Lines -/

/-- A cut goes on behind a separator or puts the character into the first piece. -/
theorem cutAt_cons (separates : Char → Bool) (c : Char) (rest : List Char) :
    cutAt separates (c :: rest)
      = if separates c then [] :: cutAt separates rest else consPiece c (cutAt separates rest) := by
  unfold cutAt
  rw [cut]

theorem cutAt_ne_nil (separates : Char → Bool) (text : List Char) : cutAt separates text ≠ [] :=
  cut_ne_nil _ _ _ _

/-- **A separator cuts a text** into what is before it and what is behind it. -/
theorem cutAt_append {separates : Char → Bool} {c : Char} (hc : separates c = true)
    (front rest : List Char) :
    cutAt separates (front ++ c :: rest) = cutAt separates front ++ cutAt separates rest := by
  induction front with
  | nil =>
    rw [List.nil_append, cutAt_cons, if_pos hc]
    rfl
  | cons d front ih =>
    rw [List.cons_append, cutAt_cons, cutAt_cons, ih]
    -- A character that does not separate goes into the first piece, which is one of `front`.
    split
    · rfl
    · obtain ⟨piece, pieces, hpieces⟩ := List.exists_cons_of_ne_nil (cutAt_ne_nil separates front)
      rw [hpieces]
      rfl

/-- A text without separators is one piece. -/
theorem cutAt_of_forall_not {separates : Char → Bool} {text : List Char}
    (h : ∀ c ∈ text, separates c = false) : cutAt separates text = [text] := by
  induction text with
  | nil => rfl
  | cons c rest ih =>
    obtain ⟨hc, hrest⟩ := List.forall_mem_cons.mp h
    rw [cutAt_cons, hc, ih hrest]
    rfl

/-- A text without blanks is one word, so collapsing keeps it. -/
theorem collapse_of_forall_not {text : List Char} (hne : text ≠ [])
    (h : ∀ c ∈ text, isBlank c = false) : collapse text = text := by
  have hword : words text = [text] := by
    rw [words, cutAt_of_forall_not h]
    exact List.filter_cons_of_pos (by simpa using hne)
  rw [collapse, hword, List.intercalate_singleton]

/-- A line feed ends the lines before it, whatever comes behind. -/
theorem lines_append (front rest : List Char) :
    lines (front ++ '\n' :: rest) = (cutAt (· == '\n') front).map dropReturn ++ lines rest := by
  unfold lines
  rw [cutAt_append (by rfl)]
  obtain ⟨pieces, last, hpieces⟩ : ∃ pieces last, cutAt (· == '\n') rest = pieces ++ [last] :=
    ⟨_, _, (List.dropLast_concat_getLast (cutAt_ne_nil _ _)).symm⟩
  rw [hpieces, ← List.append_assoc]
  simp only [List.dropLast_concat, List.getLast?_concat, List.map_append]
  -- An unfinished last line is the last line of `rest` as well.
  cases last with
  | nil => rfl
  | cons c last => exact List.append_assoc ..

/-- **Lines are read back** from a text in which each of them is followed by a line feed. -/
theorem lines_flatMap {rows : List (List Char)}
    (h : ∀ row ∈ rows, ∀ c ∈ row, c ≠ '\n' ∧ c ≠ '\r') :
    lines (rows.flatMap fun row => row ++ ['\n']) = rows := by
  induction rows with
  | nil => rfl
  | cons row rows ih =>
    obtain ⟨hrow, hrows⟩ := List.forall_mem_cons.mp h
    have hcut : cutAt (· == '\n') row = [row] :=
      cutAt_of_forall_not fun c hc => by simpa using (hrow c hc).1
    -- Without a return at its end a row is a line as it is.
    have hreturn : dropReturn row = row := by
      refine if_neg fun hlast => ?_
      exact (hrow '\r' (List.mem_of_getLast? hlast)).2 rfl
    rw [List.flatMap_cons, List.append_assoc, List.singleton_append, lines_append, hcut, ih hrows]
    simp [hreturn]

end UtilityCss.Text
