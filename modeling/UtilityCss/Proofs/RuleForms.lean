import UtilityCss.Proofs.GlyphSites
import UtilityCss.Proofs.Parts
import UtilityCss.Proofs.Shapes
import UtilityCss.Token.Vocabulary

/-!
# Lists of rules

A token can give a property different values under different breakpoints, in one of two forms:
`w[1px:Phone, 2px:Tablet]` and `w[@Phone[1px], @Tablet[2px]]`. Both are lists of parts, and what a
part contributes depends on that part alone. So all that is to be shown about such a token is that
its text comes apart into the parts that were written, and that the question which of the forms it
has is decided by the parts one by one:

* `contains_at_joinParts_iff` and `isResponsive_joinParts_iff` — the form of a list of parts;
* `read_of_at` and `read_of_colon` — the reading of a token that is written as a list of parts, in
  terms of what its parts contribute;
* `mediaPart?_eq_some_iff` and `responsivePart_trim` — what a part of either form says.
-/

namespace UtilityCss

open UtilityCss.Text

/-! ### References and blanks -/

namespace Reference

/-- An id does not reach over a character that is neither a name character nor a colon. -/
theorem idLength_append_cons {x : Char} (hx : isNameChar x = false) (hcolon : x ≠ ':')
    (front rest : List Char) : idLength (front ++ x :: rest) = idLength front := by
  induction front with
  | nil => exact idLength_cons_of_not hx rest
  | cons c front ih =>
    cases hc : isNameChar c with
    | false => rw [List.cons_append, idLength_cons_of_not hc, idLength_cons_of_not hc]
    | true =>
      rw [idLength_eq, idLength_eq] at ih ⊢
      rw [List.cons_append, List.dropWhile_cons_of_pos hc, List.takeWhile_cons_of_pos hc,
        List.dropWhile_cons_of_pos hc, List.takeWhile_cons_of_pos hc]
      -- The run behind the first character ends with a colon in both texts or in neither.
      have hhead : ((front ++ x :: rest).dropWhile isNameChar).head? = some ':' ↔
          (front.dropWhile isNameChar).head? = some ':' := by
        rw [List.dropWhile_append]
        cases hdrop : front.dropWhile isNameChar with
        | nil => simp [hx, hcolon]
        | cons d later => simp
      by_cases h : (front.dropWhile isNameChar).head? = some ':'
      · rw [if_pos (hhead.mpr h), if_pos h] at ih
        rw [if_pos (hhead.mpr h), if_pos h, List.length_cons, List.length_cons, ih]
      · rw [if_neg fun h' => h (hhead.mp h'), if_neg h]

/-- Such a character separates references, so they are looked for on either side of it. -/
theorem occursIn_append_cons {x : Char} (hx : isNameChar x = false) (hcolon : x ≠ ':')
    (front rest : List Char) :
    occursIn (front ++ x :: rest) = (occursIn front || occursIn (x :: rest)) := by
  induction front with
  | nil => rfl
  | cons c front ih =>
    rw [List.cons_append, occursIn, occursIn, ih, idLength_append_cons hx hcolon, Bool.or_assoc]

theorem occursIn_cons_of_ne {c : Char} (hc : c ≠ '#') (rest : List Char) :
    occursIn (c :: rest) = occursIn rest := by
  rw [occursIn, beq_false_of_ne hc, Bool.false_and, Bool.false_or]

/-- Before the first hash there is no reference. -/
theorem occursIn_append_of_notMem {front : List Char} (h : '#' ∉ front) (rest : List Char) :
    occursIn (front ++ rest) = occursIn rest := by
  induction front with
  | nil => rfl
  | cons c front ih =>
    obtain ⟨hc, hfront⟩ := not_or.mp (List.mem_cons.not.mp h)
    rw [List.cons_append, occursIn_cons_of_ne (Ne.symm hc), ih hfront]

/-- Without a hash there is no reference. -/
theorem occursIn_of_notMem {text : List Char} (h : '#' ∉ text) : occursIn text = false := by
  have happend := occursIn_append_of_notMem h []
  rwa [List.append_nil] at happend

/-- **Blanks around a text are no concern of its references.** -/
theorem occursIn_trim (text : List Char) : occursIn (trim text) = occursIn text := by
  obtain ⟨front, back, htext, hfront, hback⟩ := exists_trim text
  have hno : ∀ {blanks : List Char} {c : Char}, (∀ b ∈ blanks, isBlank b = true) →
      isBlank c = false → c ∉ blanks :=
    fun hblanks hc hmem => ne_of_test (hblanks _ hmem) hc rfl
  -- Blanks at the front hold no hash. Those at the end could only cut off an id, and they do not.
  have hend : occursIn (trim text ++ back) = occursIn (trim text) := by
    cases back with
    | nil => rw [List.append_nil]
    | cons b back =>
      have hb : isBlank b = true := hback b List.mem_cons_self
      -- A blank ends every id, and there is no hash behind it.
      have hname : isNameChar b = false := by
        by_contra hname
        rw [Bool.not_eq_false] at hname
        exact ne_of_test hb (isBlank_of_isNameChar hname) rfl
      rw [occursIn_append_cons hname (ne_of_test hb (by decide)),
        occursIn_of_notMem (hno hback (by decide)), Bool.or_false]
  conv_rhs => rw [htext]
  rw [occursIn_append_of_notMem (hno hfront (by decide)), hend]

end Reference

namespace Value

/-- The first two parts of a list. -/
theorem joinParts_cons_cons (p q : List Char) (ps : List (List Char)) :
    joinParts (p :: q :: ps) = p ++ ',' :: ' ' :: joinParts (q :: ps) := by
  rw [joinParts, List.intercalate_cons_cons, List.append_assoc]
  rfl

/-- Other than commas and spaces, a list of parts has the characters of its parts. -/
theorem mem_joinParts_iff {c : Char} (hcomma : c ≠ ',') (hspace : c ≠ ' ')
    {ps : List (List Char)} : c ∈ joinParts ps ↔ ∃ p ∈ ps, c ∈ p := by
  induction ps with
  | nil => simp [joinParts]
  | cons p ps ih =>
    cases ps with
    | nil => simp [joinParts]
    | cons q ps =>
      -- Between two parts there are a comma and a space.
      rw [joinParts_cons_cons, List.mem_append, List.mem_cons, List.mem_cons, ih]
      simp [hcomma, hspace]

/-- A reference in a list is one in a part, as it does not reach over a comma. -/
theorem occursIn_joinParts (ps : List (List Char)) :
    Reference.occursIn (joinParts ps) = ps.any Reference.occursIn := by
  induction ps with
  | nil => rfl
  | cons p ps ih =>
    cases ps with
    | nil => simp [joinParts]
    | cons q ps =>
      rw [joinParts_cons_cons, Reference.occursIn_append_cons (by decide) (by decide),
        Reference.occursIn_cons_of_ne (by decide), Reference.occursIn_cons_of_ne (by decide), ih,
        List.any_cons (l := q :: ps)]

end Value

/-! ### Tokens -/

namespace Token

/-- The token with a name and a content in brackets. -/
def bracketed (name content : List Char) : String :=
  String.ofList (name ++ '[' :: (content ++ [']']))

/-- A token in brackets has its name and its content, if that is not blank. -/
theorem shape?_bracketed {name : List Char} (hname : IsShortName name) (content : List Char) :
    shape? (bracketed name content).toList
      = if trim content = [] then none else some ⟨name, trim content⟩ := by
  have hshape := shape?_wrap hname.letters .brackets content
  simp only [hname.ne_nil, false_or] at hshape
  rw [bracketed, String.toList_ofList]
  exact hshape

/-- The token with a name and a list of parts in brackets. -/
def listed (name : List Char) (ps : List (List Char)) : String :=
  bracketed name (Value.joinParts ps)

theorem listed_singleton (name p : List Char) : listed name [p] = bracketed name p := by
  simp [listed, Value.joinParts]

end Token

open Token Value

namespace Vocabulary

variable {v : Vocabulary} {name : List Char} {property : Property}

/-- A token in brackets with a known name is read by its content. -/
theorem read_bracketed (hname : IsShortName name)
    (hproperty : v.properties.get? (String.ofList name) = some property) {content : List Char}
    (hcontent : trim content ≠ []) :
    v.read (bracketed name content)
      = v.readContent (bracketed name content) property (trim content) := by
  rw [read, shape?_bracketed hname, if_neg hcontent]
  dsimp only
  rw [hproperty]

/-- Only a blank content makes such a token unrecognized. -/
theorem trim_ne_nil_of_read (hname : IsShortName name) {content : List Char}
    (h : (v.read (bracketed name content)).meaning ≠ .unrecognized) : trim content ≠ [] := by
  intro hnil
  apply h
  -- Without a content the token has no shape.
  rw [read, shape?_bracketed hname, if_pos hnil]

/-- What the parts of a token contribute, one after another. -/
def partReadings (readPart : List Char → PartReading) (ps : List (List Char)) :
    List PartReading :=
  (ps.map trim).map readPart

/-- The references that the parts of a token register. -/
def registered (readPart : List Char → PartReading) (ps : List (List Char)) : List Reference :=
  (partReadings readPart ps).flatMap PartReading.references

/-- The problems that the parts of a token have. -/
def problems (readPart : List Char → PartReading) (ps : List (List Char)) : List Diagnostic :=
  (partReadings readPart ps).flatMap PartReading.diagnostics

/-- A list of parts gives values by breakpoint if one of its parts does. -/
theorem contains_at_joinParts_iff {ps : List (List Char)} :
    (trim (joinParts ps)).contains '@' = true ↔ ∃ p ∈ ps, '@' ∈ p := by
  rw [List.contains_iff_mem, mem_trim_iff (by decide), mem_joinParts_iff (by decide) (by decide)]

/-- A list of parts gives breakpoints by value if a part has a colon and none has a reference. -/
theorem isResponsive_joinParts_iff {ps : List (List Char)} :
    isResponsive (trim (joinParts ps)) = true ↔
      (∃ p ∈ ps, ':' ∈ p) ∧ ∀ p ∈ ps, Reference.occursIn p = false := by
  rw [isResponsive, Bool.and_eq_true, List.contains_iff_mem, mem_trim_iff (by decide),
    mem_joinParts_iff (by decide) (by decide), Reference.occursIn_trim, occursIn_joinParts,
    Bool.not_eq_true', List.any_eq_false]
  simp only [Bool.not_eq_true]

section Lists

variable (hname : IsShortName name)
  (hproperty : v.properties.get? (String.ofList name) = some property)
  {ps : List (List Char)}
include hname hproperty

/-- **The reading of a list of values by breakpoint.** -/
theorem read_of_at (hps : ∀ p ∈ ps, Undivided p) (hat : ∃ p ∈ ps, '@' ∈ p) :
    v.read (listed name ps)
      = ⟨.mediaQuery property
            ((partReadings (v.readMediaPart (listed name ps)) ps).filterMap PartReading.rule),
          registered (v.readMediaPart (listed name ps)) ps,
          problems (v.readMediaPart (listed name ps)) ps⟩ := by
  have hcontains := contains_at_joinParts_iff.mpr hat
  have hcontent : trim (joinParts ps) ≠ [] :=
    List.ne_nil_of_mem (List.contains_iff_mem.mp hcontains)
  obtain ⟨p, hp, -⟩ := hat
  -- The parts of the content are the parts that were written, since none of them can be divided.
  rw [listed, read_bracketed hname hproperty hcontent, readContent, if_pos hcontains,
    readMediaQuery, parts_trim, parts_joinParts (List.ne_nil_of_mem hp) hps]
  rfl

/-- **The reading of a list of breakpoints by value.** -/
theorem read_of_colon (hps : ∀ p ∈ ps, Undivided p) (hat : ∀ p ∈ ps, '@' ∉ p)
    (hcolon : ∃ p ∈ ps, ':' ∈ p) (hreference : ∀ p ∈ ps, Reference.occursIn p = false) :
    v.read (listed name ps)
      = ⟨.responsive property
            ((partReadings (v.readResponsivePart (listed name ps)) ps).filterMap
              PartReading.base).getLast?
            ((partReadings (v.readResponsivePart (listed name ps)) ps).filterMap PartReading.rule),
          registered (v.readResponsivePart (listed name ps)) ps,
          problems (v.readResponsivePart (listed name ps)) ps⟩ := by
  have hresponsive := isResponsive_joinParts_iff.mpr ⟨hcolon, hreference⟩
  -- The form is decided on the text of the content, and the parts tell what is in it.
  have hnotAt : ¬ (trim (joinParts ps)).contains '@' = true := by
    rw [contains_at_joinParts_iff]
    rintro ⟨p, hp, hmem⟩
    exact hat p hp hmem
  have hcontent : trim (joinParts ps) ≠ [] := by
    obtain ⟨hmem, -⟩ := Bool.and_eq_true_iff.mp hresponsive
    exact List.ne_nil_of_mem (List.contains_iff_mem.mp hmem)
  obtain ⟨p, hp, -⟩ := hcolon
  rw [listed, read_bracketed hname hproperty hcontent, readContent, if_neg hnotAt,
    if_pos hresponsive, readResponsive, parts_trim, parts_joinParts (List.ne_nil_of_mem hp) hps]
  rfl

/-- A token that lists values by breakpoint has a part with an `@`. -/
theorem exists_at_of_mediaQuery {property' : Property} {rules : List MediaRule}
    (h : (v.read (listed name ps)).meaning = .mediaQuery property' rules) :
    ∃ p ∈ ps, '@' ∈ p := by
  have hread : (v.read (listed name ps)).meaning ≠ .unrecognized := by rw [h]; simp
  have hcontent : trim (joinParts ps) ≠ [] := trim_ne_nil_of_read hname hread
  rw [listed, read_bracketed hname hproperty hcontent, readContent] at h
  split at h
  · next hcontains => exact contains_at_joinParts_iff.mp hcontains
  · -- The other forms have another meaning.
    split at h <;> exact absurd h (by simp [readResponsive])

/-- The parts of a token that lists breakpoints by value. -/
theorem of_responsive {property' : Property} {base : Option Value} {rules : List MediaRule}
    (h : (v.read (listed name ps)).meaning = .responsive property' base rules) :
    (∀ p ∈ ps, '@' ∉ p) ∧ (∃ p ∈ ps, ':' ∈ p) ∧ ∀ p ∈ ps, Reference.occursIn p = false := by
  have hread : (v.read (listed name ps)).meaning ≠ .unrecognized := by rw [h]; simp
  have hcontent : trim (joinParts ps) ≠ [] := trim_ne_nil_of_read hname hread
  rw [listed, read_bracketed hname hproperty hcontent, readContent] at h
  split at h
  · -- With an `@` the token would list rules.
    exact absurd h (by simp [readMediaQuery])
  · next hnotAt =>
    split at h
    · next hresponsive =>
      -- The tests on the content were passed, and they are tests on the parts.
      rw [contains_at_joinParts_iff] at hnotAt
      exact ⟨fun p hp hmem => hnotAt ⟨p, hp, hmem⟩, isResponsive_joinParts_iff.mp hresponsive⟩
    · exact absurd h (by simp)

end Lists

/-! ### One part -/

/-- **A name for a breakpoint**: a letter, then name characters. -/
structure IsBreakpointName (name : List Char) : Prop where
  letter : name.head?.any isLetter = true
  chars : ∀ c ∈ name, isNameChar c = true

instance (name : List Char) : Decidable (IsBreakpointName name) :=
  decidable_of_iff (name.head?.any isLetter = true ∧ name.all isNameChar = true)
    ⟨fun h => ⟨h.1, List.all_eq_true.mp h.2⟩, fun h => ⟨h.letter, List.all_eq_true.mpr h.chars⟩⟩

/-- A name has a letter. -/
theorem IsBreakpointName.ne_nil {name : List Char} (h : IsBreakpointName name) : name ≠ [] := by
  rintro rfl
  exact absurd h.letter (by simp)

/-- There are no blanks in a name. -/
theorem IsBreakpointName.trim_eq {name : List Char} (h : IsBreakpointName name) :
    trim name = name :=
  trim_of_forall_not fun c hc => isBlank_of_isNameChar (h.chars c hc)

/-- The rule `@name[value]`. -/
def atRule (name value : List Char) : List Char := '@' :: (name ++ '[' :: (value ++ [']']))

/-- The rule `value:name`. -/
def colonRule (value name : List Char) : List Char := value ++ ':' :: name

/-- A rule `@name[value]` is read if its value is not empty and stands on one line. -/
theorem mediaPart?_atRule {breakpoint : List Char} (h : IsBreakpointName breakpoint)
    (value : List Char) :
    mediaPart? (atRule breakpoint value)
      = if value ≠ [] ∧ '\n' ∉ value then some (breakpoint, trim value) else none := by
  have htake : (breakpoint ++ '[' :: (value ++ [']'])).takeWhile isNameChar = breakpoint :=
    takeWhile_append_cons h.chars (by decide) _
  rw [atRule, mediaPart?]
  dsimp only
  -- The bracket ends the name, so the name and the value are found as they were written.
  rw [htake, List.drop_left]
  simp [h.letter]

/-- **What a rule `@name[value]` says.** The value stands on one line. -/
theorem mediaPart?_eq_some_iff {part breakpoint text : List Char} :
    mediaPart? part = some (breakpoint, text) ↔
      IsBreakpointName breakpoint ∧ ∃ value, part = atRule breakpoint value ∧ value ≠ [] ∧
        '\n' ∉ value ∧ text = trim value := by
  constructor
  · intro h
    -- The name is the longest run of name characters behind the `@`.
    unfold mediaPart? at h
    split at h
    · next rest =>
      dsimp only at h
      split at h
      · next tail htail =>
        split at h
        · next hcondition =>
          obtain ⟨rfl, rfl⟩ := Prod.mk.inj (Option.some.inj h)
          simp only [Bool.and_eq_true, decide_eq_true_eq, Bool.not_eq_true',
            List.isEmpty_eq_false_iff] at hcondition
          obtain ⟨⟨⟨hletter, hlast⟩, hne⟩, hline⟩ := hcondition
          have hchars : ∀ c ∈ rest.takeWhile isNameChar, isNameChar c = true :=
            List.all_eq_true.mp List.all_takeWhile
          refine ⟨⟨hletter, hchars⟩, tail.dropLast, ?_, hne, ?_, rfl⟩
          · -- The name, the bracket behind it and the rest up to the last bracket.
            obtain ⟨front, rfl⟩ := List.getLast?_eq_some_iff.mp hlast
            rw [Reference.drop_length_takeWhile] at htail
            rw [atRule, List.dropLast_concat, ← htail, List.takeWhile_append_dropWhile]
          · rw [← List.contains_iff_mem, hline]
            exact Bool.false_ne_true
        · exact absurd h (by simp)
      · exact absurd h (by simp)
    · exact absurd h (by simp)
  · rintro ⟨hname, value, rfl, hne, hline, rfl⟩
    rw [mediaPart?_atRule hname, if_pos ⟨hne, hline⟩]

/-- A rule `@name[value]` has no blanks at its ends. -/
theorem trim_atRule (breakpoint value : List Char) :
    trim (atRule breakpoint value) = atRule breakpoint value := by
  apply trim_of_ends
  · rintro c ⟨⟩
    decide
  · have hlast : (atRule breakpoint value).getLast? = some ']' := by
      rw [atRule, ← List.cons_append, ← List.cons_append, ← List.append_assoc,
        List.getLast?_concat]
    rw [hlast]
    rintro c ⟨⟩
    decide

/-- The characters that mean something in a list of rules. -/
def reserved : List Char := ['@', ':', ',', '#', '[', ']', '(', ')']

/-- None of the characters of a name means anything in a list. -/
theorem IsBreakpointName.notMem_reserved {breakpoint : List Char}
    (h : IsBreakpointName breakpoint) : ∀ c ∈ breakpoint, c ∉ reserved := by
  intro c hc hreserved
  -- The reserved characters are few, and none is a name character.
  have hnone : reserved.any isNameChar = false := by decide
  exact List.any_eq_false.mp hnone c hreserved (h.chars c hc)

/-- A text without such characters is one part. -/
theorem undivided_of_notMem_reserved {text : List Char} (h : ∀ c ∈ text, c ∉ reserved) :
    Undivided text := by
  refine undivided_of_forall_not fun c hc => ⟨?_, ?_⟩
  · -- Both what nests and what divides is reserved.
    have hbrackets : ['[', ']', '(', ')'].any (fun d => !reserved.contains d) = false := by decide
    exact isBracket_of_test hbrackets (by simpa using h c hc)
  · exact fun heq => h c hc (heq ▸ by decide)

/-- A rule `@name[value]` is one part, as the commas of its value are in brackets. -/
theorem undivided_atRule {breakpoint value : List Char} (h : IsBreakpointName breakpoint)
    (hvalue : Nested value) : Undivided (atRule breakpoint value) := by
  have hrule : Undivided ('[' :: (value ++ [']'])) := .nested (by decide) hvalue .nil
  -- The `@` and the name are plain, and what follows is one nested text.
  exact .plain (by decide) (by decide)
    ((undivided_of_notMem_reserved h.notMem_reserved).append hrule)

section Colon

variable {value breakpoint : List Char} (hchars : ∀ c ∈ value ++ breakpoint, c ∉ reserved)
include hchars

/-- The colon of a rule is the only one. -/
theorem colon_notMem_value : ':' ∉ value :=
  fun hmem => hchars ':' (List.mem_append_left _ hmem) (by decide)

/-- Of the characters that mean something, a rule `value:name` has the colon only. -/
theorem notMem_colonRule {c : Char} (hc : c ∈ reserved) (hcolon : c ≠ ':') :
    c ∉ colonRule value breakpoint := by
  rw [colonRule, List.mem_append, List.mem_cons]
  rintro (hmem | heq | hmem)
  · exact hchars c (List.mem_append_left _ hmem) hc
  · exact hcolon heq
  · exact hchars c (List.mem_append_right _ hmem) hc

/-- A rule `value:name` is one part. -/
theorem undivided_colonRule : Undivided (colonRule value breakpoint) := by
  obtain ⟨hvalue, hbreakpoint⟩ := List.forall_mem_append.mp hchars
  have hname : Undivided (':' :: breakpoint) :=
    .plain (by decide) (by decide) (undivided_of_notMem_reserved hbreakpoint)
  exact (undivided_of_notMem_reserved hvalue).append hname

end Colon

/-- **What a rule `value:name` says**, whatever blanks there are around the colon. -/
theorem responsivePart_trim {value : List Char} (hvalue : ':' ∉ value) (breakpoint : List Char) :
    responsivePart (trim (colonRule value breakpoint)) = (trim value, trim breakpoint) := by
  have hno : ∀ c ∈ trimStart value, (c != ':') = true := by
    intro c hc
    have hmem : c ∈ value := (List.dropWhile_suffix _).subset hc
    exact bne_iff_ne.mpr fun heq => hvalue (heq ▸ hmem)
  -- The colon is no blank, so each side of it loses the blanks at its outer end first.
  rw [colonRule, trim_append_cons (by decide), responsivePart, List.dropWhile_append_of_pos hno,
    List.dropWhile_cons_of_neg (by simp)]
  dsimp only
  rw [takeWhile_append_cons hno (by simp), trim_trimStart, trim_trimEnd]

end Vocabulary

end UtilityCss
