import UtilityCss.Markup.Chunk
import UtilityCss.Proofs.Scanning
import UtilityCss.Proofs.SelectorReading
import UtilityCss.Sheet.Minify

/-!
# Selectors in a minified style sheet

Minifying treats the text of a selector like any other text: blanks are squeezed and comments cut
out, and only a backslash protects the character behind it. Escaping puts a backslash before every
ASCII character that minifying could touch, so no comment starts inside a selector
(`withoutComments_escapeChars`) and most characters pass unchanged (`squeeze_escapeChar`). Two kinds
of blanks stand in a selector without a backslash before them:

* the space that ends a code point. It is squeezed, but to one space again, or to nothing where the
  selector ends; the reader accepts both;
* a blank beyond ASCII, which stands for itself in a selector. It is squeezed to a space, which ends
  the selector, or vanishes behind a code point.

So a minified selector reads back to its token exactly if the token holds no blank beyond ASCII
(`readTightSelector_minify_iff`). A token can hold one inside its delimiters.
-/

namespace UtilityCss.Sheet

open UtilityCss.Text

/-- Whether a character is a blank beyond ASCII. -/
def isWideBlank (c : Char) : Bool := isBlank c && 128 ≤ c.toNat

theorem isWideBlank_eq_false_iff {c : Char} :
    isWideBlank c = false ↔ (isBlank c = true → c.toNat < 128) := by
  simp [isWideBlank]

/-- What is escaped is ASCII, and so it is no wide blank. -/
theorem isWideBlank_of_not_isBare {c : Char} (h : isBare c = false) : isWideBlank c = false :=
  isWideBlank_eq_false_iff.mpr fun _ => toNat_lt_of_not_isBare h

/-- Among the characters that stand for themselves the blanks are those beyond ASCII. -/
theorem isWideBlank_of_isBare {c : Char} (h : isBare c = true) : isWideBlank c = isBlank c := by
  by_cases hlt : c.toNat < 128
  · -- No ASCII blank stands for itself, so both sides are false.
    exact forall_ascii (P := fun c => isBare c = true → isWideBlank c = isBlank c)
      (by decide +kernel) hlt h
  · have hle : 128 ≤ c.toNat := Nat.le_of_not_lt hlt
    simp [isWideBlank, hle]

/-! ### Comments -/

/-- No star stands at the start of an escaped text. -/
theorem head?_escapeChars_ne_star (token rest : List Char) :
    (escapeChars token ++ ' ' :: rest).head? ≠ some '*' := by
  cases token with
  | nil => simp
  | cons c token =>
    rw [escapeChars_cons]
    obtain ⟨hbare, heq⟩ | ⟨-, d, -, -, heq⟩ | ⟨-, -, heq⟩ := escapeChar_cases c
    · have hc : c ≠ '*' := ne_of_test hbare (by decide)
      simpa [heq] using hc
    · simp [heq]
    · simp [heq]

/-- **No comment starts inside a selector.** -/
theorem withoutComments_escapeChars (token rest : List Char) :
    withoutComments (escapeChars token ++ ' ' :: rest)
      = escapeChars token ++ ' ' :: withoutComments rest := by
  induction token with
  | nil => exact withoutComments_cons (Or.inl (by decide))
  | cons c token ih =>
    have hstar := head?_escapeChars_ne_star token rest
    rw [escapeChars_cons, List.append_assoc, List.append_assoc, ← ih]
    obtain ⟨hbare, heq⟩ | ⟨-, d, hd, -, heq⟩ | ⟨-, -, heq⟩ := escapeChar_cases c
    · rw [heq]
      exact withoutComments_cons (Or.inl (ne_of_test hbare (by decide)))
    · -- Neither the backslash nor the digit nor the space is a slash.
      have hslash : d ≠ '/' := by
        rintro rfl
        exact absurd hd (by decide)
      rw [heq, List.cons_append, List.cons_append, List.cons_append, List.nil_append,
        withoutComments_cons (Or.inl (by decide)), withoutComments_cons (Or.inl hslash),
        withoutComments_cons (Or.inl (by decide))]
      rfl
    · -- A slash of the token has a backslash before it, and no star comes right behind it.
      rw [heq, List.cons_append, List.cons_append, List.nil_append,
        withoutComments_cons (Or.inl (by decide)), withoutComments_cons (Or.inr hstar)]
      rfl

/-! ### Blanks -/

/-- The state behind a blank that waits for what follows. -/
def Spacing.behindBlank : Spacing := ⟨true, true, false⟩

/-- The step of squeezing at a character that is no backslash. -/
theorem squeeze_cons {c : Char} (hc : c ≠ '\\') (s : Spacing) (rest : List Char) :
    squeeze s (c :: rest)
      = if isBlank c then squeeze s.afterBlank rest
        else if isTight c then
          if c = ';' ∧ nextSolid? rest = some '\x7d' then squeeze s.afterOmitted rest
          else c :: squeeze .afterTight rest
        else s.gap ++ c :: squeeze .afterOther rest := by
  rw [squeeze]
  · exact fun hc' _ => hc hc'
  · exact fun _ _ hc' _ => hc hc'

/-- A blank is not written; it waits. -/
theorem squeeze_blank {c : Char} (h : isBlank c = true) (s : Spacing) (rest : List Char) :
    squeeze s (c :: rest) = squeeze s.afterBlank rest := by
  have hc : c ≠ '\\' := by
    rintro rfl
    exact absurd h (by decide)
  rw [squeeze_cons hc, if_pos h]

/-- An opening brace takes the blanks before it away. -/
theorem squeeze_brace (s : Spacing) (rest : List Char) :
    squeeze s (' ' :: '\x7b' :: rest) = '\x7b' :: squeeze .afterTight rest := by
  rw [squeeze_blank (by decide), squeeze_cons (by decide), if_neg (by decide),
    if_pos (by decide), if_neg (fun h => absurd h.1 (by decide))]

theorem squeeze_escaped (s : Spacing) (c : Char) (rest : List Char) :
    squeeze s ('\\' :: c :: rest) = s.gap ++ '\\' :: c :: squeeze .afterOther rest := rfl

/-- A character that stands for itself and is not blank is written as it is. -/
theorem squeeze_bare {c : Char} (hbare : isBare c = true) (hwide : isWideBlank c = false)
    (s : Spacing) (rest : List Char) :
    squeeze s (c :: rest) = s.gap ++ c :: squeeze .afterOther rest := by
  have hblank : isBlank c = false := by rw [← isWideBlank_of_isBare hbare, hwide]
  -- The characters that take the blanks around them away are all escaped.
  have htight : isTight c = false := by
    have hne : c ≠ '\x7b' ∧ c ≠ '\x7d' ∧ c ≠ ':' ∧ c ≠ ';' :=
      ⟨ne_of_test hbare (by decide), ne_of_test hbare (by decide),
        ne_of_test hbare (by decide), ne_of_test hbare (by decide)⟩
    simp [isTight, hne]
  rw [squeeze_cons (ne_of_test hbare (by decide)), if_neg (by simp [hblank]),
    if_neg (by simp [htight])]

/-- A wide blank of a token is squeezed like any blank. -/
theorem squeeze_escapeChar_wide {c : Char} (h : isWideBlank c = true) (s : Spacing)
    (rest : List Char) : squeeze s (escapeChar c ++ rest) = squeeze s.afterBlank rest := by
  -- Whatever is escaped is ASCII.
  have hbare : isBare c = true := by
    cases hbare : isBare c with
    | true => rfl
    | false =>
      rw [isWideBlank_of_not_isBare hbare] at h
      exact Bool.noConfusion h
  have hblank : isBlank c = true := by rw [← isWideBlank_of_isBare hbare, h]
  rw [escapeChar, if_pos hbare]
  exact squeeze_blank hblank s rest

/-- A character of a token that is no blank is written the same under every state, behind the space
that a run of blanks may leave. -/
theorem squeeze_escapeChar {c : Char} (h : isWideBlank c = false) (s : Spacing)
    (rest : List Char) :
    squeeze s (escapeChar c ++ rest)
      = s.gap ++ squeeze .afterOther (escapeChar c ++ rest) := by
  -- However the character is written, its first character is written behind the gap.
  obtain ⟨hbare, heq⟩ | ⟨-, d, -, -, heq⟩ | ⟨-, -, heq⟩ := escapeChar_cases c
  · rw [heq, List.singleton_append, squeeze_bare hbare h, squeeze_bare hbare h .afterOther]
    rfl
  · rw [heq, List.cons_append, List.cons_append, squeeze_escaped, squeeze_escaped .afterOther]
    rfl
  · rw [heq, List.cons_append, List.cons_append, squeeze_escaped, squeeze_escaped .afterOther]
    rfl

/-! ### Reading a squeezed selector -/

section Squeezed

variable (body : List Char)

/-- A selector in front of its rule, squeezed from a state on. -/
def squeezedSelector (s : Spacing) (token : List Char) : List Char :=
  squeeze s (escapeChars token ++ ' ' :: '\x7b' :: body)

theorem squeezedSelector_nil (s : Spacing) :
    squeezedSelector body s [] = '\x7b' :: squeeze .afterTight body :=
  squeeze_brace s body

/-- Behind a blank a selector starts with a space, unless it is a wide blank that comes next. -/
theorem squeezedSelector_behindBlank {c : Char} (h : isWideBlank c = false) (token : List Char) :
    squeezedSelector body .behindBlank (c :: token)
      = ' ' :: squeezedSelector body .afterOther (c :: token) := by
  unfold squeezedSelector
  rw [escapeChars_cons, List.append_assoc, squeeze_escapeChar h]
  rfl

/-- **A wide blank is lost**: what follows is squeezed as behind a blank. -/
theorem squeezedSelector_wide {c : Char} (h : isWideBlank c = true) (token : List Char) :
    squeezedSelector body .afterOther (c :: token) = squeezedSelector body .behindBlank token ∧
      squeezedSelector body .behindBlank (c :: token)
        = squeezedSelector body .behindBlank token := by
  unfold squeezedSelector
  rw [escapeChars_cons, List.append_assoc, squeeze_escapeChar_wide h, squeeze_escapeChar_wide h]
  exact ⟨rfl, rfl⟩

/-- Behind a blank a selector goes on with a space or with the brace. -/
theorem squeezedSelector_behindBlank_head (token : List Char) :
    (∃ rest, squeezedSelector body .behindBlank token = ' ' :: rest) ∨
      ∃ rest, squeezedSelector body .behindBlank token = '\x7b' :: rest := by
  induction token with
  | nil => exact Or.inr ⟨_, squeezedSelector_nil body _⟩
  | cons c token ih =>
    cases hc : isWideBlank c with
    | true =>
      rw [(squeezedSelector_wide body hc token).2]
      exact ih
    | false => exact Or.inl ⟨_, squeezedSelector_behindBlank body hc token⟩

/-- No character that stands for itself ends a squeezed selector. -/
theorem endsTight_of_isBare (c : Char) (h : isBare c = true) : endsTight c = false := by
  have hne : c ≠ ' ' ∧ c ≠ '\x7b' := ⟨ne_of_test h (by decide), ne_of_test h (by decide)⟩
  simp [endsTight, hne]

/-- A character of the token is read, and what follows is either the rest of the selector or, behind
a code point, the rest of the selector as it is squeezed behind a blank. -/
theorem read_squeezedSelector_cons {c : Char} (h : isWideBlank c = false) (token : List Char) :
    readNameFrom endsTight .outside (squeezedSelector body .afterOther (c :: token))
        = consName c (readNameFrom endsTight .outside (squeezedSelector body .afterOther token)) ∨
      ∃ d, Char.ofNat (hexNumber [d]) = c ∧
        readNameFrom endsTight .outside (squeezedSelector body .afterOther (c :: token))
          = readNameFrom endsTight (.code [d]) (squeezedSelector body .behindBlank token) := by
  unfold squeezedSelector
  rw [escapeChars_cons, List.append_assoc]
  obtain ⟨hbare, heq⟩ | ⟨-, d, hd, hc, heq⟩ | ⟨-, hhex, heq⟩ := escapeChar_cases c
  · refine Or.inl ?_
    rw [heq, List.singleton_append, squeeze_bare hbare h]
    exact readNameFrom_outside_other (ne_of_test hbare (by decide)) (endsTight_of_isBare c hbare) _
  · -- The space behind the code point is a blank to squeezing, so it waits for what follows.
    refine Or.inr ⟨d, hc, ?_⟩
    rw [heq, List.cons_append, List.cons_append, squeeze_escaped, List.cons_append,
      List.nil_append, squeeze_blank (by decide)]
    exact (readNameFrom_outside_backslash _).trans (by rw [readNameFrom, if_pos hd]; rfl)
  · refine Or.inl ?_
    rw [heq, List.cons_append, List.cons_append, squeeze_escaped, List.nil_append]
    exact (readNameFrom_outside_backslash _).trans (by rw [readNameFrom, if_neg (by simp [hhex])])

/-- A code point in front of the brace. -/
theorem readNameFrom_code_brace (d : Char) (rest : List Char) :
    readNameFrom endsTight (.code [d]) ('\x7b' :: rest)
      = ([Char.ofNat (hexNumber [d])], '\x7b' :: rest) := by
  rw [readNameFrom, if_neg (by simp [show isHex '\x7b' = false by decide]), if_neg (by decide),
    if_neg (by decide), if_pos (by decide)]
  rfl

/-- **A selector without wide blanks is read back**, up to the brace. -/
theorem read_squeezedSelector {token : List Char} (h : ∀ c ∈ token, isWideBlank c = false) :
    readNameFrom endsTight .outside (squeezedSelector body .afterOther token)
      = (token, '\x7b' :: squeeze .afterTight body) := by
  induction token with
  | nil =>
    rw [squeezedSelector_nil]
    exact readNameFrom_outside_end (by decide) (by decide) _
  | cons c token ih =>
    have htoken : ∀ x ∈ token, isWideBlank x = false := fun x hx => h x (List.mem_cons_of_mem c hx)
    rcases read_squeezedSelector_cons body (h c List.mem_cons_self) token with
      hread | ⟨d, hd, hread⟩
    · rw [hread, ih htoken]
      rfl
    · -- The space behind the code point is there again, or the brace follows at once.
      rw [hread]
      cases token with
      | nil => rw [squeezedSelector_nil, readNameFrom_code_brace, hd]
      | cons x token =>
        rw [squeezedSelector_behindBlank body (htoken x List.mem_cons_self),
          readNameFrom_code_space, ih htoken, hd]
        rfl

/-- **Reading a squeezed selector never gives a wide blank**, neither from the start of the selector
nor behind a code point. -/
theorem not_wide_of_read_squeezedSelector (token : List Char) :
    (∀ c ∈ (readNameFrom endsTight .outside (squeezedSelector body .afterOther token)).1,
        isWideBlank c = false) ∧
      ∀ d, isWideBlank (Char.ofNat (hexNumber [d])) = false →
        ∀ c ∈ (readNameFrom endsTight (.code [d]) (squeezedSelector body .behindBlank token)).1,
          isWideBlank c = false := by
  -- The two statements need each other: a code point is followed by a selector behind a blank, and
  -- the space that this leaves is followed by a selector behind another character.
  induction token with
  | nil =>
    rw [squeezedSelector_nil, squeezedSelector_nil]
    refine ⟨?_, fun d hd => ?_⟩
    · rw [readNameFrom_outside_end (by decide) (by decide)]
      exact fun c hc => absurd hc List.not_mem_nil
    · rw [readNameFrom_code_brace]
      intro c hc
      rw [List.mem_singleton.mp hc]
      exact hd
  | cons x token ih =>
    obtain ⟨ihOutside, ihCode⟩ := ih
    cases hx : isWideBlank x with
    | true =>
      -- The blank leaves a space, which ends the selector, or nothing in front of the brace.
      obtain ⟨hother, hbehind⟩ := squeezedSelector_wide body hx token
      rw [hother, hbehind]
      refine ⟨?_, ihCode⟩
      rcases squeezedSelector_behindBlank_head body token with ⟨rest, hrest⟩ | ⟨rest, hrest⟩
      · rw [hrest, readNameFrom_outside_end (by decide) (by decide)]
        exact fun c hc => absurd hc List.not_mem_nil
      · rw [hrest, readNameFrom_outside_end (by decide) (by decide)]
        exact fun c hc => absurd hc List.not_mem_nil
    | false =>
      have hfirst : ∀ c ∈
          (readNameFrom endsTight .outside (squeezedSelector body .afterOther (x :: token))).1,
          isWideBlank c = false := by
        rcases read_squeezedSelector_cons body hx token with hread | ⟨d, hd, hread⟩
        · rw [hread]
          intro c hc
          rcases List.mem_cons.mp hc with rfl | hc
          · exact hx
          · exact ihOutside c hc
        · rw [hread]
          exact ihCode d (by rw [hd]; exact hx)
      refine ⟨hfirst, fun d hd => ?_⟩
      -- The space belongs to the code point, and reading goes on as at the start.
      rw [squeezedSelector_behindBlank body hx, readNameFrom_code_space]
      intro c hc
      rcases List.mem_cons.mp hc with rfl | hc
      · exact hd
      · exact hfirst c hc

end Squeezed

/-! ### Minified rules -/

/-- The characters of a minified rule: a dot, and the squeezed selector in front of what is left of
the declarations. -/
theorem toList_minify_format (token : String) (property : Property) (value : String) :
    ∃ body, (minify (Rule.format token property value)).toList
      = '.' :: squeezedSelector body .afterOther token.toList := by
  refine ⟨withoutComments
    (' ' :: ((Rule.declarations property value).toList ++ [' ', '\x7d'])), ?_⟩
  -- No comment reaches over the dot, the selector, the space or the brace.
  rw [minify, String.toList_ofList, minifyChars, toList_format,
    withoutComments_cons (Or.inl (by decide)), withoutComments_escapeChars,
    withoutComments_cons (c := '\x7b') (Or.inl (by decide)), squeeze_cons (by decide),
    if_neg (by decide), if_neg (by decide)]
  rfl

/-- **Which selectors survive minifying.** For every token, property and value, the selector at the
head of the minified rule reads back to the token, up to the opening brace, exactly if the token
holds no blank beyond ASCII. -/
theorem readTightSelector_minify_iff (token : String) (property : Property) (value : String) :
    ∃ text, (minify (Rule.format token property value)).toList = '.' :: text ∧
      ((readTightSelector text).1 = token.toList ↔
        ∀ c ∈ token.toList, isBlank c = true → c.toNat < 128) ∧
      ((readTightSelector text).1 = token.toList →
        (readTightSelector text).2.head? = some '\x7b') := by
  obtain ⟨body, hbody⟩ := toList_minify_format token property value
  -- A token that is read back has no wide blank, since none is ever read.
  have hnarrow : (readTightSelector (squeezedSelector body .afterOther token.toList)).1
      = token.toList → ∀ c ∈ token.toList, isWideBlank c = false := by
    intro hread c hc
    rw [← hread] at hc
    exact (not_wide_of_read_squeezedSelector body _).1 c hc
  refine ⟨_, hbody, ?_, ?_⟩
  · constructor
    · exact fun hread c hc => isWideBlank_eq_false_iff.mp (hnarrow hread c hc)
    · intro hascii
      have hwide : ∀ c ∈ token.toList, isWideBlank c = false :=
        fun c hc => isWideBlank_eq_false_iff.mpr (hascii c hc)
      exact congrArg Prod.fst (read_squeezedSelector body hwide)
  · intro hread
    have hpair := read_squeezedSelector body (hnarrow hread)
    exact congrArg (fun result => result.2.head?) hpair

/-- A token of a class attribute whose selector does not survive: the no-break space between its
brackets becomes a plain space, and the selector ends there. -/
theorem minify_cuts_selector_at_no_break_space :
    "w[a\u00a0b]" ∈ Markup.tokens "w[a\u00a0b]" ∧
      minify (Rule.format "w[a\u00a0b]" (.single "width") "1px") = ".w\\[a b\\]\x7bwidth:1px\x7d" ∧
      readTightSelector "w\\[a b\\]\x7bwidth:1px\x7d".toList
        = ("w[a".toList, " b\\]\x7bwidth:1px\x7d".toList) ∧
      "w[a" ≠ "w[a\u00a0b]" := by
  decide +kernel

end UtilityCss.Sheet
