import UtilityCss.Proofs.OperatorSpacing
import UtilityCss.Proofs.RuleForms
import UtilityCss.Proofs.Substitution

/-!
# Nested brackets in values

When the brackets of a token are properly nested, are those of its values? Most of what happens to a
content on the way to a value cannot tear brackets apart: blanks come and go, a reference becomes a
call, parts of a list are cut at commas outside all brackets. Two things can.

* Outer brackets are taken off a content, a rule or a calculation by a look at the first and at the
  last character. They need not belong together: in `[a] 1fr [b]` they do not.
* A rule `value:name` is cut at its first colon, which may stand inside brackets.

`Vocabulary.cutOuts` lists the texts that are cut out in this way, and they alone decide: the values
of a nested content are nested just if its cut-outs are. One direction needs an argument. A value is
nested when its text is, and for a calculation or a clamp that text stands in parentheses, which
could make up for what is missing in it: `(a) + (b)` is nested, and `a) + (b` is not. But a cut-out
stands behind a square bracket in the content, and a text cannot go on with a closing parenthesis
there (`FollowsBracket.nested_of_inParentheses`).
-/

namespace UtilityCss

open UtilityCss.Text

namespace Text

/-- Cutting loses nothing but separators. -/
theorem filter_flatten_cut {σ : Type} {separates : σ → Char → Bool} {test : Char → Bool}
    (h : ∀ s c, separates s c = true → test c = false) (next : σ → Char → σ) (s : σ)
    (text : List Char) :
    (cut separates next s text).flatten.filter test = text.filter test := by
  induction text generalizing s with
  | nil => rfl
  | cons c rest ih =>
    have hcons : ∀ pieces : List (List Char),
        (consPiece c pieces).flatten = c :: pieces.flatten := by
      rintro (_ | ⟨piece, pieces⟩) <;> rfl
    rw [cut]
    split
    · next hseparates =>
      rw [List.flatten_cons, List.nil_append, ih,
        List.filter_cons_of_neg (by simp [h s c hseparates])]
    · -- A character goes into the first piece, so it comes first in what the pieces make up
      -- together.
      rw [hcons, List.filter_cons, List.filter_cons, ih]

end Text

open Value

/-! ### References -/

namespace Reference

/-- There is no bracket in the names of a reference. -/
theorem Named.not_isBracket {r : Reference} (h : r.Named) :
    (∀ c ∈ r.element.toList, isBracket c = false) ∧
      ∀ c ∈ r.property.toList, isBracket c = false := by
  refine ⟨fun c hc => isBracket_of_isNameChar (h.element_chars c hc), fun c hc => ?_⟩
  have hor : c.isAlpha = true ∨ c = '-' := by simpa [isPropertyChar] using h.property_chars c hc
  rcases hor with halpha | rfl
  · exact isBracket_of_isNameChar (Script.isNameChar_of_isAlpha halpha)
  · decide

/-- A reference is nested as it is written, since it has no brackets. -/
theorem Named.nested_source {r : Reference} (h : r.Named) : Nested r.source := by
  obtain ⟨helement, hproperty⟩ := h.not_isBracket
  refine nested_of_forall_not ?_
  rw [source, List.cons_append, List.forall_mem_cons, List.forall_mem_append,
    List.forall_mem_cons]
  exact ⟨by decide, helement, by decide, hproperty⟩

/-- The call in the place of a reference is nested. It has one pair of parentheses. -/
theorem Named.nested_use {r : Reference} (h : r.Named) : Nested r.use.toList := by
  obtain ⟨helement, hproperty⟩ := h.not_isBracket
  have hname : Nested r.variableName.toList := by
    refine nested_of_forall_not ?_
    simp only [variableName, String.toList_append, List.forall_mem_append]
    exact ⟨⟨⟨by simp [isBracket], helement⟩, by simp [isBracket]⟩, hproperty⟩
  have hvar : Nested ['v', 'a', 'r'] := by decide
  rw [toList_use, String.toList_append]
  exact (nested_append_left_iff hvar).mpr (hname.wrap (by decide))

/-- **Replacing references changes nothing for the brackets around them.** -/
theorem Rewrites.awaitedBehind_eq {text result : List Char} {references : List Reference}
    (h : Rewrites text references result) (awaited : List Char) :
    awaitedBehind awaited result = awaitedBehind awaited text := by
  induction h generalizing awaited with
  | nil => rfl
  | keep _ _ ih =>
    rw [awaitedBehind_cons, awaitedBehind_cons]
    exact congrArg _ (funext ih)
  | replace hread _ ih =>
    -- A reference and the call in its place are nested, so neither leaves anything to come.
    obtain ⟨_, _, _, hnamed⟩ := eq_append_of_read hread
    rw [awaitedBehind_append, awaitedBehind_append, hnamed.nested_use.awaitedBehind_eq,
      hnamed.nested_source.awaitedBehind_eq]
    exact ih awaited

end Reference

/-! ### The text of a value -/

namespace Value

/-- A text in parentheses. -/
def inParentheses (text : List Char) : List Char := '(' :: (text ++ [')'])

/-- A nested text is nested in parentheses too. -/
theorem nested_inParentheses {text : List Char} (h : Nested text) : Nested (inParentheses text) :=
  h.wrap (by decide)

/-- Only brackets matter for that. -/
theorem nested_inParentheses_congr {text text' : List Char}
    (h : text.filter isBracket = text'.filter isBracket) :
    Nested (inParentheses text) ↔ Nested (inParentheses text') := by
  refine nested_congr ?_
  rw [inParentheses, inParentheses, List.filter_cons, List.filter_cons, List.filter_append,
    List.filter_append, h]

/-- Spacing operators moves blanks only. -/
theorem filter_isBracket_spaceOperators (text : List Char) :
    (spaceOperators text).filter isBracket = text.filter isBracket := by
  have hsolid : ∀ t : List Char, (t.filter isSolid).filter isBracket = t.filter isBracket := by
    intro t
    rw [List.filter_filter]
    refine List.filter_congr fun c _ => ?_
    cases hblank : isBlank c with
    | false => simp [isSolid, hblank]
    | true => simp [isBracket_of_isBlank hblank]
  rw [← hsolid, filter_isSolid_spaceOperators, hsolid]

/-- **A calculation is nested just if its expression is, in parentheses.** -/
theorem nested_ofExpression_iff (text : List Char) :
    Nested (ofExpression text).text.toList ↔ Nested (inParentheses (expression text)) := by
  have hrewrites := Reference.rewrites_pieces (spaceOperators (expression text))
  have htext : (ofExpression text).text.toList
      = ['c', 'a', 'l', 'c'] ++ inParentheses
        ((pieces Reference.read (spaceOperators (expression text))).flatMap
          (Piece.text fun r => r.use.toList)) := by
    simp [ofExpression, Value.text, expressionText, inParentheses]
  rw [htext, nested_append_left_iff (by decide)]
  -- First the references, which leave the brackets around them alone, and then the spaces.
  calc Nested (inParentheses _)
      ↔ Nested (inParentheses (spaceOperators (expression text))) := by
        rw [nested_iff, nested_iff, inParentheses, inParentheses, awaitedBehind_cons,
          awaitedBehind_cons]
        simp only [awaitedBehind_append, hrewrites.awaitedBehind_eq]
    _ ↔ Nested (inParentheses (expression text)) :=
        nested_inParentheses_congr (filter_isBracket_spaceOperators _)

/-- Cutting a text into parts loses no bracket, since it loses commas and blanks. -/
theorem filter_isBracket_parts (text : List Char) :
    (parts text).flatten.filter isBracket = text.filter isBracket := by
  have hcomma : ∀ depth c, separatesParts depth c = true → isBracket c = false := by
    intro depth c h
    obtain ⟨hc, -⟩ := Bool.and_eq_true_iff.mp h
    rw [beq_iff_eq.mp hc]
    decide
  have htrim : ∀ pieces : List (List Char),
      (pieces.map trim).flatten.filter isBracket = pieces.flatten.filter isBracket := by
    intro pieces
    rw [List.filter_flatten, List.filter_flatten, List.map_map]
    congr 1
    exact List.map_congr_left fun piece _ => filter_trim (fun _ => isBracket_of_isBlank) piece
  rw [parts, htrim, rawParts, filter_flatten_cut hcomma]

/-- The three bounds of a clamp as texts. -/
def bounds (low ideal high : String) : List (List Char) :=
  [low.toList, ideal.toList, high.toList]

/-- The text of a clamp is its list of bounds in parentheses. -/
theorem toList_text_clamp (low ideal high : String) :
    (clamp low ideal high).text.toList
      = "clamp".toList ++ inParentheses (joinParts (bounds low ideal high)) := by
  simp [Value.text, inParentheses, joinParts, bounds, List.intercalate]

/-- **A clamp is nested just if its list of parts is, in parentheses.** -/
theorem nested_clampOf?_iff {text : List Char} {value : Value}
    (h : clampOf? (parts text) = some value) :
    Nested value.text.toList ↔ Nested (inParentheses text) := by
  have hfilter := filter_isBracket_parts text
  obtain ⟨low, ideal, high, hparts, rfl⟩ := clampOf?_eq_some_iff.mp h
  rw [hparts] at hfilter
  rw [toList_text_clamp, nested_append_left_iff (by decide)]
  refine nested_inParentheses_congr ?_
  rw [← hfilter]
  simp [bounds, joinParts, List.intercalate, isBracket]

/-- A channel is a number. -/
theorem not_isBracket_of_channel? {text : List Char} {channel : String}
    (h : channel? text = some channel) : ∀ c ∈ channel.toList, isBracket c = false := by
  unfold channel? at h
  dsimp only at h
  split at h
  · next hdigits =>
    obtain rfl := Option.some.inj h
    simp only [Bool.and_eq_true, List.all_eq_true] at hdigits
    intro c hc
    rw [String.toList_ofList] at hc
    exact isBracket_of_test (by decide) (hdigits.1.1 c hc)
  · exact absurd h (by simp)

/-- A colour is nested. -/
theorem nested_rgbOf? {text : List Char} {value : Value} (h : rgbOf? text = some value) :
    Nested value.text.toList := by
  unfold rgbOf? at h
  split at h
  · next red green blue _ =>
    obtain ⟨red, hred, h⟩ := Option.bind_eq_some_iff.mp h
    obtain ⟨green, hgreen, h⟩ := Option.bind_eq_some_iff.mp h
    obtain ⟨blue, hblue, h⟩ := Option.bind_eq_some_iff.mp h
    obtain rfl := Option.some.inj h
    have htext : (rgb red green blue).text.toList
        = ['r', 'g', 'b'] ++ inParentheses
          (red.toList ++ [',', ' '] ++ green.toList ++ [',', ' '] ++ blue.toList) := by
      simp [Value.text, inParentheses]
    rw [htext, nested_append_left_iff (by decide)]
    refine nested_inParentheses (nested_of_forall_not ?_)
    simp only [List.forall_mem_append]
    have hcomma : ∀ c ∈ [',', ' '], isBracket c = false := by simp [isBracket]
    exact ⟨⟨⟨⟨not_isBracket_of_channel? hred, hcomma⟩, not_isBracket_of_channel? hgreen⟩, hcomma⟩,
      not_isBracket_of_channel? hblue⟩
  · exact absurd h (by simp)

/-! ### Texts cut out of brackets -/

/-- **A text that follows a square bracket** in a nested one, but for blanks between them. -/
structure FollowsBracket (text : List Char) : Prop where
  exists_nested : ∃ front blanks rest, (∀ c ∈ blanks, isBlank c = true) ∧
    Nested (front ++ '[' :: (blanks ++ (text ++ rest)))

/-- What is left of a text behind a bracket, without the blanks. -/
theorem followsBracket_trim {front text rest : List Char}
    (h : Nested (front ++ '[' :: (text ++ rest))) : FollowsBracket (trim text) := by
  obtain ⟨blanks, back, htext, hblanks, -⟩ := exists_trim text
  refine ⟨front, blanks, back ++ rest, hblanks, ?_⟩
  rw [htext] at h
  simpa using h

/-- **Behind a square bracket, parentheses cannot make up for missing ones.** -/
theorem FollowsBracket.nested_of_inParentheses {text : List Char} (h : FollowsBracket text)
    (hin : Nested (inParentheses text)) : Nested text := by
  obtain ⟨front, blanks, rest, hblanks, hnested⟩ := h.exists_nested
  have hclosed : awaitedBehind [')'] (text ++ [')']) = some [] := nested_iff.mp hin
  obtain ⟨inner, behind, heq, hinner, -⟩ := (nested_of_awaitedBehind hclosed).2 ')' [] rfl
  -- What closes the first parenthesis is the last one, or it stands in the text.
  rcases List.eq_nil_or_concat' behind with rfl | ⟨later, last, rfl⟩
  · rw [List.append_inj_left' heq rfl]
    exact hinner
  · exfalso
    rw [← List.cons_append, ← List.append_assoc] at heq
    rw [List.append_inj_left' heq rfl, nested_iff, awaitedBehind_append,
      Option.bind_eq_some_iff] at hnested
    obtain ⟨awaited, -, hbehind⟩ := hnested
    -- Then it meets the square bracket in front of the text.
    have hblank : Nested blanks :=
      nested_of_forall_not fun c hc => isBracket_of_isBlank (hblanks c hc)
    have hmismatch : awaitedBehind (']' :: awaited) (')' :: (later ++ rest)) = none := rfl
    rw [awaitedBehind_cons, show awaitedAfter awaited '[' = some (']' :: awaited) from rfl,
      Option.bind_some, awaitedBehind_append, hblank.awaitedBehind_eq, Option.bind_some,
      List.append_assoc, awaitedBehind_append, hinner.awaitedBehind_eq, Option.bind_some,
      List.cons_append, hmismatch] at hbehind
    exact absurd hbehind (by simp)

/-- A text behind a bracket is nested in parentheses just if it is nested without them. -/
theorem FollowsBracket.nested_inParentheses_iff {text : List Char} (h : FollowsBracket text) :
    Nested (inParentheses text) ↔ Nested text :=
  ⟨h.nested_of_inParentheses, nested_inParentheses⟩

/-- What `unwrap?` takes out of brackets. -/
theorem unwrap?_eq_some_iff {text inner : List Char} :
    unwrap? text = some inner ↔ ∃ raw, text = '[' :: (raw ++ [']']) ∧ inner = trim raw := by
  constructor
  · intro h
    unfold unwrap? at h
    split at h
    · next rest =>
      split at h
      · next hlast =>
        obtain ⟨raw, rfl⟩ := List.getLast?_eq_some_iff.mp hlast
        rw [List.dropLast_concat] at h
        exact ⟨raw, rfl, (Option.some.inj h).symm⟩
      · exact absurd h (by simp)
    · exact absurd h (by simp)
  · rintro ⟨raw, rfl, rfl⟩
    simp [unwrap?]

/-- What is taken out of brackets follows the one that was taken off. -/
theorem FollowsBracket.of_unwrap? {text inner : List Char} (h : FollowsBracket text)
    (hunwrap : unwrap? text = some inner) : FollowsBracket inner := by
  obtain ⟨front, blanks, rest, -, hnested⟩ := h.exists_nested
  obtain ⟨raw, rfl, rfl⟩ := unwrap?_eq_some_iff.mp hunwrap
  have hraw : Nested ((front ++ '[' :: blanks) ++ '[' :: (raw ++ ']' :: rest)) := by
    simpa using hnested
  exact followsBracket_trim hraw

/-- **What is cut out for a value in brackets**: the text between them, and for a calculation also
what stands between a second pair. -/
def cutOuts (value : Value) (text : List Char) : List (List Char) :=
  match value with
  | calculation _ => text :: (unwrap? text).toList
  | _ => [text]

/-- A value as it is written is nested just if it is. -/
theorem nested_verbatim_iff (text : List Char) :
    Nested (verbatim (String.ofList text)).text.toList ↔
      ∀ t ∈ (verbatim (String.ofList text)).cutOuts text, Nested t := by
  have hcuts : (verbatim (String.ofList text)).cutOuts text = [text] := rfl
  rw [Value.text, String.toList_ofList, hcuts, List.forall_mem_singleton]

/-- **A calculation in brackets** is nested just if nothing that was cut out for it is torn. -/
theorem FollowsBracket.nested_ofExpression_iff {text : List Char} (h : FollowsBracket text)
    (htrim : trim text = text) :
    Nested (ofExpression text).text.toList ↔
      ∀ t ∈ (ofExpression text).cutOuts text, Nested t := by
  have hcuts : (ofExpression text).cutOuts text = text :: (unwrap? text).toList := rfl
  rw [Value.nested_ofExpression_iff, hcuts, List.forall_mem_cons, expression, htrim]
  cases hunwrap : unwrap? text with
  | none => simpa using h.nested_inParentheses_iff
  | some inner =>
    obtain ⟨raw, rfl, rfl⟩ := unwrap?_eq_some_iff.mp hunwrap
    have hinner := (h.of_unwrap? hunwrap).nested_inParentheses_iff
    simp only [Option.getD_some, Option.toList_some, List.forall_mem_singleton]
    rw [hinner]
    -- What is nested inside a pair of brackets is nested together with them.
    exact ⟨fun hraw => ⟨(nested_trim_iff.mp hraw).wrap (by decide), hraw⟩, And.right⟩

/-- A clamp from a text behind a bracket is nested just if the text is, for which nothing more is
cut out. -/
theorem FollowsBracket.nested_clampOf?_iff {text : List Char} {value : Value}
    (h : FollowsBracket text) (hclamp : clampOf? (parts text) = some value) :
    Nested value.text.toList ↔ ∀ t ∈ value.cutOuts text, Nested t := by
  have hcuts : value.cutOuts text = [text] := by
    obtain ⟨low, ideal, high, -, rfl⟩ := clampOf?_eq_some_iff.mp hclamp
    rfl
  rw [Value.nested_clampOf?_iff hclamp, h.nested_inParentheses_iff, hcuts,
    List.forall_mem_singleton]

end Value

namespace Vocabulary

variable {v : Vocabulary}

/-- What is cut out of a rule `@name[value]` for its value. -/
def mediaCutOuts (v : Vocabulary) (token : String) (part : List Char) : List (List Char) :=
  match mediaPart? part with
  | none => []
  | some (name, text) =>
    match v.breakpoints.get? (String.ofList name) with
    | none => []
    | some _ => (v.mediaValue token text).value.cutOuts text

/-- The name of a breakpoint that is cut off a rule `value:name`. -/
def colonCutOuts (v : Vocabulary) (part : List Char) : List (List Char) :=
  match v.breakpoints.get? (String.ofList (responsivePart part).2) with
  | none => []
  | some _ => [(responsivePart part).2]

/-- **The texts that are cut out of a content** at places that may be inside its brackets. -/
def cutOuts (v : Vocabulary) (token : String) (content : List Char) : List (List Char) :=
  if content.contains '@' then (parts content).flatMap (v.mediaCutOuts token)
  else if isResponsive content then (parts content).flatMap v.colonCutOuts
  else
    match unwrap? content with
    | none => []
    | some inner => (bracketedValue inner).value.cutOuts inner

/-! ### Values in brackets -/

section Brackets

variable {text : List Char} (h : FollowsBracket text) (htrim : trim text = text)
include h htrim

/-- A value in brackets is nested just if nothing that was cut out for it is torn. -/
theorem nested_bracketedValue_iff :
    Nested (bracketedValue text).value.text.toList ↔
      ∀ t ∈ (bracketedValue text).value.cutOuts text, Nested t := by
  unfold bracketedValue
  split
  · next value hclamp => exact h.nested_clampOf?_iff hclamp
  · split
    · exact h.nested_ofExpression_iff htrim
    · exact nested_verbatim_iff text

/-- A value that is to be a clamp is nested just if all that is cut out of it is. -/
theorem nested_clampValue_iff (token : String) :
    Nested (clampValue token text).value.text.toList ↔
      ∀ t ∈ (clampValue token text).value.cutOuts text, Nested t := by
  unfold clampValue
  split
  · next value hclamp => exact h.nested_clampOf?_iff hclamp
  · rw [htrim]
    exact nested_verbatim_iff text

/-- A value under a breakpoint is nested just if all that is cut out of it is. Without a theme it is
not replaced by another one. -/
theorem nested_mediaValue_iff (htheme : v.theme = ∅) (token : String) :
    Nested (v.mediaValue token text).value.text.toList ↔
      ∀ t ∈ (v.mediaValue token text).value.cutOuts text, Nested t := by
  unfold mediaValue
  split
  · exact nested_clampValue_iff h htrim token
  · split
    · exact h.nested_ofExpression_iff htrim
    · rw [plainValue, htheme, Theme.resolve_empty]
      exact nested_verbatim_iff text

end Brackets

/-! ### Values without brackets -/

/-- A clamp of a nested text is nested. -/
theorem nested_clampValue {text : List Char} (h : Nested text) (token : String) :
    Nested (clampValue token text).value.text.toList := by
  unfold clampValue
  split
  · next value hclamp => exact (nested_clampOf?_iff hclamp).mpr (nested_inParentheses h)
  · rw [Value.text, String.toList_ofList]
    exact nested_trim_iff.mpr h

/-- A plain value is nested if its text is. -/
theorem nested_plainValue (htheme : v.theme = ∅) {text : List Char} (h : Nested text) :
    Nested (v.plainValue text).text.toList := by
  rw [plainValue, htheme, Theme.resolve_empty, Value.text, String.toList_ofList]
  exact h

/-- **A content without outer brackets is not torn.** -/
theorem nested_singleValue (htheme : v.theme = ∅) {content : List Char} (h : Nested content)
    (htrim : trim content = content) (hunwrap : unwrap? content = none) (token : String) :
    Nested (v.singleValue token content).value.text.toList := by
  -- A calculation has no outer brackets to take off either.
  have hcalculation : Nested (ofExpression content).text.toList := by
    rw [nested_ofExpression_iff, expression, htrim, hunwrap]
    exact nested_inParentheses h
  rw [singleValue, hunwrap]
  dsimp only
  split
  · exact hcalculation
  · split
    · next value hrgb => exact nested_rgbOf? hrgb
    · split
      · exact nested_clampValue h token
      · exact nested_plainValue htheme h

/-! ### Parts -/

/-- The value of a rule `@name[value]` is nested just if nothing that was cut out for it is torn. -/
theorem nested_readMediaPart_iff (htheme : v.theme = ∅) {part : List Char} (h : Nested part)
    (token : String) :
    (∀ rule ∈ (v.readMediaPart token part).rule, Nested rule.value.text.toList) ↔
      ∀ t ∈ v.mediaCutOuts token part, Nested t := by
  unfold readMediaPart mediaCutOuts
  cases hpart : mediaPart? part with
  | none => simp [PartReading.nothing]
  | some found =>
    obtain ⟨name, text⟩ := found
    dsimp only
    cases v.breakpoints.get? (String.ofList name) with
    | none => simp [PartReading.problem]
    | some condition =>
      obtain ⟨-, raw, rfl, -, -, rfl⟩ := mediaPart?_eq_some_iff.mp hpart
      -- The value of the rule stands behind the bracket that follows the name.
      have hwhole : Nested (('@' :: name) ++ '[' :: (raw ++ [']'])) := h
      have hfollows : FollowsBracket (trim raw) := followsBracket_trim hwhole
      simpa using nested_mediaValue_iff hfollows (trim_trim raw) htheme token

/-- **A colon tears both sides or neither.** -/
theorem nested_responsivePart_iff {part : List Char} (h : Nested part) :
    Nested (responsivePart part).1 ↔ Nested (responsivePart part).2 := by
  have hsplit := List.takeWhile_append_dropWhile (p := (· != ':')) (l := part)
  have hhead := List.head?_dropWhile_not (· != ':') part
  unfold responsivePart
  -- Without a colon the whole part is the value, and there is no name.
  cases hdrop : part.dropWhile (· != ':') with
  | nil => exact iff_of_true h .nil
  | cons c breakpoint =>
    rw [hdrop] at hsplit hhead
    obtain rfl : c = ':' := by simpa using hhead
    -- When one side is nested, what is left of the part is the other side.
    have hcolon : Nested (':' :: breakpoint) ↔ Nested breakpoint :=
      nested_append_left_iff (by decide : Nested [':'])
    rw [← hsplit] at h
    rw [nested_trim_iff, nested_trim_iff]
    exact ⟨fun hvalue => hcolon.mp ((nested_append_left_iff hvalue).mp h),
      fun hname => (nested_append_right_iff (hcolon.mpr hname)).mp h⟩

/-- The value of a rule `value:name` is nested just if the name is, and a value without a name
always. -/
theorem nested_readResponsivePart_iff (htheme : v.theme = ∅) {part : List Char} (h : Nested part)
    (token : String) :
    (∀ value ∈ (v.readResponsivePart token part).base, Nested value.text.toList) ∧
      ((∀ rule ∈ (v.readResponsivePart token part).rule, Nested rule.value.text.toList) ↔
        ∀ t ∈ v.colonCutOuts part, Nested t) := by
  have hsides := nested_responsivePart_iff h
  unfold readResponsivePart colonCutOuts
  dsimp only
  split
  · next hempty =>
    -- Without a name the value is the part itself, and there is no rule.
    have hname : (responsivePart part).2 = [] := List.isEmpty_iff.mp hempty
    have hvalue : Nested (responsivePart part).1 := by
      rw [hsides, hname]
      exact .nil
    refine ⟨by simpa using nested_plainValue htheme hvalue, iff_of_true (by simp) ?_⟩
    rw [hname]
    split
    · simp
    · exact List.forall_mem_singleton.mpr .nil
  · cases v.breakpoints.get? (String.ofList (responsivePart part).2) with
    | none => simp [PartReading.problem]
    | some condition =>
      have htext : Nested (v.plainValue (responsivePart part).1).text.toList ↔
          Nested (responsivePart part).1 := by
        rw [plainValue, htheme, Theme.resolve_empty, Value.text, String.toList_ofList]
      refine ⟨by simp, ?_⟩
      simpa using htext.trans hsides

/-! ### Tokens -/

/-- What holds of each part holds of the rules and the cut-outs of all of them. -/
theorem forall_mem_rules_iff {ps : List (List Char)} {readPart : List Char → PartReading}
    {cuts : List Char → List (List Char)} {P : MediaRule → Prop}
    (h : ∀ p ∈ ps, (∀ rule ∈ (readPart p).rule, P rule) ↔ ∀ t ∈ cuts p, Nested t) :
    (∀ rule ∈ (ps.map readPart).filterMap PartReading.rule, P rule) ↔
      ∀ t ∈ ps.flatMap cuts, Nested t := by
  constructor
  · -- Both directions go from a member of the one list to its part and on to the other list.
    intro hrules t ht
    obtain ⟨p, hp, htp⟩ := List.mem_flatMap.mp ht
    refine (h p hp).mp (fun rule hrule => hrules rule ?_) t htp
    exact List.mem_filterMap.mpr ⟨readPart p, List.mem_map_of_mem hp, hrule⟩
  · intro hcuts rule hrule
    obtain ⟨reading, hreading, hrule⟩ := List.mem_filterMap.mp hrule
    obtain ⟨p, hp, rfl⟩ := List.mem_map.mp hreading
    refine (h p hp).mpr (fun t ht => hcuts t ?_) rule hrule
    exact List.mem_flatMap.mpr ⟨p, hp, ht⟩

/-- The content of a token is trimmed. -/
theorem trim_content_of_shape? {token : List Char} {shape : Token.Shape}
    (h : Token.shape? token = some shape) : trim shape.content = shape.content := by
  obtain ⟨inner, -, h⟩ := Option.bind_eq_some_iff.mp h
  dsimp only at h
  split at h
  · exact absurd h (by simp)
  · obtain rfl := Option.some.inj h
    exact trim_trim inner

/-- **The cut-outs decide whether values are torn.** Under an empty theme, the values of a nested
content are nested just if every text is that was cut out of it: what stands between a bracket at
the start and one at the end, and the name of a breakpoint behind a colon. -/
theorem values_nested_iff (htheme : v.theme = ∅) {token : String} {shape : Token.Shape}
    (hshape : Token.shape? token.toList = some shape) {property : Property}
    (hproperty : v.properties.get? (String.ofList shape.name) = some property)
    (hnested : Nested shape.content) :
    (∀ value ∈ (v.read token).meaning.values, Nested value.text.toList) ↔
      ∀ t ∈ v.cutOuts token shape.content, Nested t := by
  have hparts : ∀ p ∈ parts shape.content, Nested p := fun p hp => nested_of_mem_parts hnested hp
  rw [read, hshape]
  dsimp only
  rw [hproperty]
  dsimp only
  unfold readContent cutOuts
  split
  · -- Values by breakpoint, part by part.
    show (∀ value ∈ List.map MediaRule.value _, _) ↔ _
    rw [List.forall_mem_map]
    exact forall_mem_rules_iff fun p hp => nested_readMediaPart_iff htheme (hparts p hp) token
  · split
    · -- Breakpoints by value: the value without a breakpoint is nested in any case.
      have hreadings := fun p hp => nested_readResponsivePart_iff htheme (hparts p hp) token
      have hbase : ∀ value ∈ (((parts shape.content).map (v.readResponsivePart token)).filterMap
          PartReading.base).getLast?, Nested value.text.toList := by
        intro value hvalue
        obtain ⟨reading, hreading, hvalue⟩ := List.mem_filterMap.mp (List.mem_of_getLast? hvalue)
        obtain ⟨p, hp, rfl⟩ := List.mem_map.mp hreading
        exact (hreadings p hp).1 value hvalue
      show (∀ value ∈ Option.toList _ ++ List.map MediaRule.value _, _) ↔ _
      rw [List.forall_mem_append, List.forall_mem_map,
        forall_mem_rules_iff fun p hp => (hreadings p hp).2]
      exact and_iff_right fun value hvalue => hbase value (Option.mem_toList.mp hvalue)
    · -- One value, out of brackets or not.
      cases hunwrap : unwrap? shape.content with
      | none =>
        have hvalue := nested_singleValue htheme hnested (trim_content_of_shape? hshape) hunwrap
          token
        simpa [Meaning.values] using hvalue
      | some inner =>
        obtain ⟨raw, hraw, rfl⟩ := unwrap?_eq_some_iff.mp hunwrap
        have hwhole : Nested ([] ++ '[' :: (raw ++ [']'])) := hraw ▸ hnested
        have hvalue := nested_bracketedValue_iff (followsBracket_trim hwhole) (trim_trim raw)
        rw [singleValue, hunwrap]
        simpa [Meaning.values] using hvalue

/-- A vocabulary with one property. -/
def gridColumns : Vocabulary :=
  ⟨.ofList [("gtc", .single "grid-template-columns")], ∅, ∅⟩

/-- A calculation with two more pairs of brackets around it. -/
theorem calculation_in_two_pairs :
    (gridColumns.read "gtc[[[(1px + #a:width) * 2]]]").meaning.values.map Value.text
        = ["calc((1px + var(--a-width)) * 2)"] ∧
      ∀ value ∈ (gridColumns.read "gtc[[[(1px + #a:width) * 2]]]").meaning.values,
        Nested value.text.toList :=
  ⟨by decide +kernel, (values_nested_iff rfl rfl rfl (by decide)).mpr (by decide +kernel)⟩

/-- The names of grid lines are taken for a pair of brackets around the value. -/
theorem grid_line_names_are_torn :
    gridColumns.read "gtc[[a] 1fr [b]]"
        = ⟨.plain (.single "grid-template-columns") (.verbatim "a] 1fr [b"), [], []⟩ ∧
      Nested "[a] 1fr [b]".toList ∧ ¬ Nested "a] 1fr [b".toList :=
  ⟨rfl, by decide, by decide⟩

end Vocabulary

end UtilityCss
