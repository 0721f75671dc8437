import UtilityCss.Proofs.Scanning
import UtilityCss.Sheet.Rule

/-!
# Selectors read back

Escaping writes a character in one of three ways: as itself, behind a backslash, or as a backslash,
a code point and a space. The three overlap in what they use: a space may end a code point, be an
escaped character of the token, or end the selector, and a digit may be a character of the token or
part of a code point. `escapeChar_cases` says once which way a character takes and what that means
for a reader; every statement about selectors goes through it.

The main statement is that reading undoes escaping in front of any text
(`readName_escapeChars`), for every reader whose ends are not characters that stand for themselves.
So a selector determines its token, and a rule is read up to the space before its brace.
-/

namespace UtilityCss.Sheet

open UtilityCss.Text

/-! ### Characters that stand for themselves -/

/-- A character that does not stand for itself is ASCII. -/
theorem toNat_lt_of_not_isBare {c : Char} (h : isBare c = false) : c.toNat < 128 := by
  refine Nat.lt_of_not_le fun hle => ?_
  -- Every character beyond ASCII stands for itself.
  simp [isBare, hle] at h

/-- Hexadecimal digits stand for themselves, so a backslash before another character never opens a
code point. -/
theorem isHex_of_not_isBare {c : Char} (h : isBare c = false) : isHex c = false :=
  forall_ascii (P := fun c => isBare c = false → isHex c = false) (by decide +kernel)
    (toNat_lt_of_not_isBare h) h

/-- A character that is written by its code point has one of a single digit. -/
theorem escapeChar_of_needsCode {c : Char} (hbare : isBare c = false) (hcode : needsCode c = true) :
    ∃ d, isHex d = true ∧ Char.ofNat (hexNumber [d]) = c ∧ escapeChar c = ['\\', d, ' '] := by
  have hc : c = '\t' ∨ c = '\n' ∨ c = '\x0c' ∨ c = '\r' := by
    simpa [needsCode, or_assoc] using hcode
  -- The four of them have the codes 9, a, c and d.
  rcases hc with rfl | rfl | rfl | rfl
  · exact ⟨'9', by decide, by decide, by decide⟩
  · exact ⟨'a', by decide, by decide, by decide⟩
  · exact ⟨'c', by decide, by decide, by decide⟩
  · exact ⟨'d', by decide, by decide, by decide⟩

/-- **The three ways to write a character.** -/
theorem escapeChar_cases (c : Char) :
    (isBare c = true ∧ escapeChar c = [c]) ∨
    (isBare c = false ∧ ∃ d, isHex d = true ∧ Char.ofNat (hexNumber [d]) = c ∧
      escapeChar c = ['\\', d, ' ']) ∨
    (isBare c = false ∧ isHex c = false ∧ escapeChar c = ['\\', c]) := by
  cases hbare : isBare c with
  | true => exact Or.inl ⟨rfl, by rw [escapeChar, if_pos hbare]⟩
  | false =>
    cases hcode : needsCode c with
    | true => exact Or.inr (Or.inl ⟨rfl, escapeChar_of_needsCode hbare hcode⟩)
    | false =>
      refine Or.inr (Or.inr ⟨rfl, isHex_of_not_isBare hbare, ?_⟩)
      rw [escapeChar, if_neg (by simp [hbare]), if_neg (by simp [hcode])]

@[simp] theorem escapeChars_nil : escapeChars [] = [] := rfl

@[simp] theorem escapeChars_cons (c : Char) (token : List Char) :
    escapeChars (c :: token) = escapeChar c ++ escapeChars token := List.flatMap_cons

/-! ### Reading -/

section Reading

variable {ends : Char → Bool}

theorem readNameFrom_outside_backslash (rest : List Char) :
    readNameFrom ends .outside ('\\' :: rest) = readNameFrom ends .opened rest := by
  rw [readNameFrom, if_pos rfl]

/-- A name ends before a character that ends it. -/
theorem readNameFrom_outside_end {c : Char} (hc : c ≠ '\\') (hends : ends c = true)
    (rest : List Char) : readNameFrom ends .outside (c :: rest) = ([], c :: rest) := by
  rw [readNameFrom, if_neg hc, if_pos hends]

theorem readNameFrom_outside_other {c : Char} (hc : c ≠ '\\') (hends : ends c = false)
    (rest : List Char) :
    readNameFrom ends .outside (c :: rest) = consName c (readNameFrom ends .outside rest) := by
  rw [readNameFrom, if_neg hc, if_neg (by simp [hends])]

/-- A code point of one digit and the space behind it. -/
theorem readNameFrom_code_space (d : Char) (rest : List Char) :
    readNameFrom ends (.code [d]) (' ' :: rest)
      = consName (Char.ofNat (hexNumber [d])) (readNameFrom ends .outside rest) := by
  rw [readNameFrom, if_neg (by simp [show isHex ' ' = false by decide]),
    if_pos (by decide : endsCode ' ' = true)]

/-- Reading undoes the escape of one character, in front of any text. -/
theorem readNameFrom_escapeChar (hends : ∀ c, isBare c = true → ends c = false) (c : Char)
    (rest : List Char) :
    readNameFrom ends .outside (escapeChar c ++ rest)
      = consName c (readNameFrom ends .outside rest) := by
  obtain ⟨hbare, heq⟩ | ⟨-, d, hd, hc, heq⟩ | ⟨-, hhex, heq⟩ := escapeChar_cases c
  · rw [heq, List.singleton_append]
    exact readNameFrom_outside_other (ne_of_test hbare (by decide)) (hends c hbare) rest
  · -- The space behind the digit belongs to the code point, whatever comes next.
    rw [heq, List.cons_append, List.cons_append, List.cons_append, List.nil_append,
      readNameFrom_outside_backslash, readNameFrom, if_pos hd, readNameFrom_code_space, hc]
  · -- A character that is escaped by a backslash alone cannot be taken for a digit.
    rw [heq, List.cons_append, List.cons_append, List.nil_append, readNameFrom_outside_backslash,
      readNameFrom, if_neg (by simp [hhex])]

/-- **Reading undoes escaping**, in front of any text. -/
theorem readName_escapeChars (hends : ∀ c, isBare c = true → ends c = false)
    (token rest : List Char) :
    readName ends (escapeChars token ++ rest)
      = (token ++ (readName ends rest).1, (readName ends rest).2) := by
  induction token with
  | nil => rfl
  | cons c token ih =>
    unfold readName at ih ⊢
    rw [escapeChars_cons, List.append_assoc, readNameFrom_escapeChar hends, ih]
    rfl

/-- An escaped token in front of an end is read exactly. -/
theorem readName_escapeChars_end (hends : ∀ c, isBare c = true → ends c = false) {e : Char}
    (he : e ≠ '\\') (hend : ends e = true) (token rest : List Char) :
    readName ends (escapeChars token ++ e :: rest) = (token, e :: rest) := by
  -- The end is not part of the name, so nothing is read from there on.
  have hrest : readName ends (e :: rest) = ([], e :: rest) :=
    readNameFrom_outside_end he hend rest
  rw [readName_escapeChars hends, hrest, List.append_nil]

end Reading

/-- A space is no character that stands for itself. -/
theorem space_of_isBare (c : Char) (h : isBare c = true) : (c == ' ') = false := by
  simpa using ne_of_test h (by decide)

/-- A selector is read up to the space behind it. -/
theorem readSelector_escapeChars (token rest : List Char) :
    readSelector (escapeChars token ++ ' ' :: rest) = (token, ' ' :: rest) :=
  readName_escapeChars_end space_of_isBare (by decide) rfl token rest

/-- Distinct tokens have distinct selectors. -/
theorem escape_injective : Function.Injective escape := by
  intro a b h
  have hchars : escapeChars a.toList = escapeChars b.toList := String.ofList_injective h
  -- In front of a space, the common selector is read as either token.
  have hread := readSelector_escapeChars a.toList []
  rw [hchars, readSelector_escapeChars] at hread
  exact String.toList_inj.mp (congrArg Prod.fst hread).symm

/-- The characters of a rule: a dot, the selector, and the rest from the space on. -/
theorem toList_format (token : String) (property : Property) (value : String) :
    (Rule.format token property value).toList
      = '.' :: (escapeChars token.toList
          ++ ' ' :: '\x7b' :: ' '
            :: ((Rule.declarations property value).toList ++ [' ', '\x7d'])) := by
  simp [Rule.format, escape]

/-- **A rule is read back to its token.** For every token, property and value, the text behind the
leading dot is read as exactly the token, and reading stops exactly at the space before the opening
brace; so no two tokens share a selector. -/
theorem readSelector_format :
    (∀ (token : String) (property : Property) (value : String),
      ∃ text, (Rule.format token property value).toList = '.' :: text ∧
        readSelector text
          = (token.toList, (" \x7b " ++ Rule.declarations property value ++ " \x7d").toList)) ∧
      Function.Injective escape := by
  refine ⟨fun token property value => ⟨_, toList_format token property value, ?_⟩,
    escape_injective⟩
  rw [readSelector_escapeChars]
  simp

end UtilityCss.Sheet
