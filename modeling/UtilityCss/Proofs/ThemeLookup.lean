import UtilityCss.Proofs.Parts
import UtilityCss.Token.Vocabulary

/-!
# A theme only renames plain values

A theme is looked up in four places while a token is read, and each of them comes after questions
that were asked of the text as it is written. So the theme can change what a plain value is, but not
what kind of meaning a token has, which breakpoints it lists or what is reported. This file says so
by comparing two readings of every token, one with the theme and one without any.

`Meaning.renamed` is what a theme makes of a meaning that was read without one. It needs no trace of
the reading but one bit, whether the content of the token is in brackets of its own. All other
values show whether they were looked up: calculations, clamps and colours are not texts, and a text
that was taken as it is because it is no clamp has several parts, while a text that was looked up
has one (`Value.parts_of_mem_parts`, `length_parts_responsivePart`). `Vocabulary.read_eq_renamed`
puts the readings of values, of parts and of contents together.
-/

namespace UtilityCss

open UtilityCss.Text

/-! ### Texts of one part -/

namespace Value

/-- A text has at least as many parts as what it starts with. -/
theorem length_parts_append_le (front back : List Char) :
    (parts front).length ≤ (parts (front ++ back)).length := by
  -- A character goes into the first piece, so it makes no new one.
  have hconsPiece : ∀ (c : Char) {pieces : List (List Char)}, pieces ≠ [] →
      (consPiece c pieces).length = pieces.length := by
    intro c pieces hne
    cases pieces with
    | nil => exact absurd rfl hne
    | cons piece pieces => rfl
  -- A comma is at the same depth with and without the text behind, so none is lost.
  have hcut : ∀ depth, (cut separatesParts nextDepth depth front).length
      ≤ (cut separatesParts nextDepth depth (front ++ back)).length := by
    induction front with
    | nil =>
      intro depth
      exact List.length_pos_of_ne_nil (cut_ne_nil _ _ _ _)
    | cons c front ih =>
      intro depth
      have ih := ih (nextDepth depth c)
      rw [List.cons_append, cut, cut]
      split
      · exact Nat.succ_le_succ ih
      · rwa [hconsPiece c (cut_ne_nil _ _ _ _), hconsPiece c (cut_ne_nil _ _ _ _)]
  rw [parts, parts, List.length_map, List.length_map]
  exact hcut 0

end Value

/-- The value of a part under a breakpoint is one part. -/
theorem Vocabulary.length_parts_responsivePart {content part : List Char}
    (h : part ∈ Value.parts content) : (Value.parts (responsivePart part).1).length ≤ 1 := by
  have hpart : (Value.parts part).length = 1 := by
    rw [Value.parts_of_mem_parts h]
    rfl
  unfold responsivePart
  split
  · exact hpart.le
  · -- What stands before the colon is the start of a part, and a part is one part.
    have hfront := Value.length_parts_append_le (part.takeWhile (· != ':'))
      (part.dropWhile (· != ':'))
    rw [List.takeWhile_append_dropWhile, hpart] at hfront
    rwa [Value.parts_trim]

/-! ### What a theme makes of a meaning -/

/-- **What a theme makes of a value that was read without one.** A text of several parts was no
clamp and is taken as it is. -/
def Value.renamed (theme : Theme) : Value → Value
  | verbatim text =>
    if 1 < (parts text.toList).length then verbatim text else verbatim (theme.resolve text)
  | value => value

def MediaRule.renamed (theme : Theme) (r : MediaRule) : MediaRule :=
  { r with value := r.value.renamed theme }

namespace Meaning

/-- **What a theme makes of a meaning that was read without one.** A single value in brackets is not
looked up. -/
def renamed (theme : Theme) (bracketed : Bool) : Meaning → Meaning
  | plain property value => plain property (if bracketed then value else value.renamed theme)
  | responsive property base rules =>
    responsive property (base.map (Value.renamed theme)) (rules.map (MediaRule.renamed theme))
  | mediaQuery property rules => mediaQuery property (rules.map (MediaRule.renamed theme))
  | unrecognized => unrecognized

/-- The property that a meaning sets. -/
def property? : Meaning → Option Property
  | plain property _ => some property
  | responsive property _ _ => some property
  | mediaQuery property _ => some property
  | unrecognized => none

/-- The breakpoints of a meaning with the conditions that they stand for, in order. -/
def conditions : Meaning → List (String × String)
  | responsive _ _ rules => rules.map fun r => (r.breakpoint, r.condition)
  | mediaQuery _ rules => rules.map fun r => (r.breakpoint, r.condition)
  | _ => []

end Meaning

/-- A reading whose value is renamed. What came up on the way stays as it is. -/
def ValueReading.renamed (theme : Theme) (r : ValueReading) : ValueReading :=
  { r with value := r.value.renamed theme }

/-- A reading of a part whose values are renamed. -/
def PartReading.renamed (theme : Theme) (r : PartReading) : PartReading :=
  { r with
    base := r.base.map (Value.renamed theme)
    rule := r.rule.map (MediaRule.renamed theme) }

/-- A reading of a token whose meaning is renamed. -/
def Reading.renamed (theme : Theme) (bracketed : Bool) (r : Reading) : Reading :=
  { r with meaning := r.meaning.renamed theme bracketed }

namespace Vocabulary

/-- A vocabulary without a theme. -/
def bare (v : Vocabulary) : Vocabulary := { v with theme := ∅ }

/-- Whether the content of a token is in brackets of its own. -/
def isBracketed (token : String) : Bool :=
  (Token.shape? token.toList).any fun shape => (Value.unwrap? shape.content).isSome

/-! ### Reading values -/

variable (v : Vocabulary) (token : String)

/-- A text of one part is looked up, so it is renamed. -/
theorem plainValue_eq_renamed {text : List Char} (h : (Value.parts text).length ≤ 1) :
    v.plainValue text = (v.bare.plainValue text).renamed v.theme := by
  have hbare : v.bare.plainValue text = .verbatim (String.ofList text) := rfl
  rw [hbare, Value.renamed, String.toList_ofList, if_neg (Nat.not_lt.mpr h)]
  rfl

/-- A list of values is a clamp or is taken as it is, and neither is looked up. -/
theorem renamed_clampValue (theme : Theme) {text : List Char} (h : 1 < (Value.parts text).length) :
    (clampValue token text).value.renamed theme = (clampValue token text).value := by
  unfold clampValue
  split
  · next value hvalue =>
    -- A clamp is no text.
    obtain ⟨low, ideal, high, -, rfl⟩ := Value.clampOf?_eq_some_iff.mp hvalue
    rfl
  · -- A text of several parts is left as it is.
    rw [Value.renamed, String.toList_ofList, Value.parts_trim, if_pos h]

/-- **The value of a part under a breakpoint**: the questions before the lookup do not see the
theme. -/
theorem mediaValue_eq_renamed (text : List Char) :
    v.mediaValue token text = (v.bare.mediaValue token text).renamed v.theme := by
  unfold mediaValue
  -- The questions are asked in order: a list of values, a calculation, and then the lookup.
  split
  · next hparts => rw [ValueReading.renamed, renamed_clampValue token v.theme hparts]
  · next hparts =>
    split
    · rfl
    · rw [plainValue_eq_renamed v (Nat.not_lt.mp hparts)]
      rfl

/-- A colour is not looked up. -/
theorem renamed_rgbOf? (theme : Theme) {text : List Char} {value : Value}
    (h : Value.rgbOf? text = some value) : value.renamed theme = value := by
  unfold Value.rgbOf? at h
  split at h
  · simp only [Option.bind_eq_bind, Option.bind_eq_some_iff] at h
    obtain ⟨red, -, green, -, blue, -, hvalue⟩ := h
    obtain rfl := Option.some.inj hvalue
    rfl
  · exact absurd h (by simp)

/-- **The value of a content that lists no breakpoints** and is not in brackets. -/
theorem singleValue_eq_renamed {content : List Char} (h : Value.unwrap? content = none) :
    v.singleValue token content = (v.bare.singleValue token content).renamed v.theme := by
  unfold singleValue
  rw [h]
  -- The questions are asked in order: a calculation, a colour, a list of values, and then the
  -- lookup.
  dsimp only
  split
  · rfl
  · split
    · next value hvalue => rw [ValueReading.renamed, renamed_rgbOf? v.theme hvalue]
    · split
      · next hparts => rw [ValueReading.renamed, renamed_clampValue token v.theme hparts]
      · next hparts =>
        rw [plainValue_eq_renamed v (Nat.not_lt.mp hparts)]
        rfl

/-! ### Reading parts -/

/-- A part of a media query is renamed. -/
theorem readMediaPart_eq_renamed (part : List Char) :
    v.readMediaPart token part = (v.bare.readMediaPart token part).renamed v.theme := by
  have hbreakpoints : v.bare.breakpoints = v.breakpoints := rfl
  unfold readMediaPart
  rw [hbreakpoints]
  split
  · rfl
  · next name text _ =>
    dsimp only
    split
    · rfl
    · rw [mediaValue_eq_renamed]
      rfl

/-- A part of a responsive value is renamed, since its value is one part. -/
theorem readResponsivePart_eq_renamed {content part : List Char}
    (h : part ∈ Value.parts content) :
    v.readResponsivePart token part = (v.bare.readResponsivePart token part).renamed v.theme := by
  have hbreakpoints : v.bare.breakpoints = v.breakpoints := rfl
  have hvalue := plainValue_eq_renamed v (length_parts_responsivePart h)
  unfold readResponsivePart
  rw [hbreakpoints]
  dsimp only
  -- Whether the breakpoint is known does not depend on the value.
  rw [hvalue]
  split
  · rfl
  · split
    · rfl
    · rfl

/-- Parts that are renamed one by one: what they contribute is renamed as a whole. -/
theorem contributions_renamed (theme : Theme) (readings : List PartReading) :
    (readings.map (PartReading.renamed theme)).filterMap PartReading.base
        = (readings.filterMap PartReading.base).map (Value.renamed theme) ∧
      (readings.map (PartReading.renamed theme)).filterMap PartReading.rule
        = (readings.filterMap PartReading.rule).map (MediaRule.renamed theme) ∧
      (readings.map (PartReading.renamed theme)).flatMap PartReading.references
        = readings.flatMap PartReading.references ∧
      (readings.map (PartReading.renamed theme)).flatMap PartReading.diagnostics
        = readings.flatMap PartReading.diagnostics := by
  refine ⟨?_, ?_, ?_, ?_⟩
  · rw [List.filterMap_map, List.map_filterMap]
    rfl
  · rw [List.filterMap_map, List.map_filterMap]
    rfl
  · rw [List.flatMap_map]
    rfl
  · rw [List.flatMap_map]
    rfl

/-! ### Reading tokens -/

/-- A media query is renamed part by part. -/
theorem readMediaQuery_eq_renamed (property : Property) (content : List Char) (bracketed : Bool) :
    v.readMediaQuery token property content
      = (v.bare.readMediaQuery token property content).renamed v.theme bracketed := by
  have hreadings : (Value.parts content).map (v.readMediaPart token)
      = ((Value.parts content).map (v.bare.readMediaPart token)).map
        (PartReading.renamed v.theme) := by
    rw [List.map_map]
    exact List.map_congr_left fun part _ => v.readMediaPart_eq_renamed token part
  obtain ⟨-, hrules, hreferences, hdiagnostics⟩ := contributions_renamed v.theme
    ((Value.parts content).map (v.bare.readMediaPart token))
  rw [readMediaQuery, hreadings, hrules, hreferences, hdiagnostics]
  rfl

/-- A responsive value is renamed part by part. -/
theorem readResponsive_eq_renamed (property : Property) (content : List Char) (bracketed : Bool) :
    v.readResponsive token property content
      = (v.bare.readResponsive token property content).renamed v.theme bracketed := by
  -- That only parts of the content are read matters here: a value with two parts would not be
  -- renamed, but it would be looked up.
  have hreadings : (Value.parts content).map (v.readResponsivePart token)
      = ((Value.parts content).map (v.bare.readResponsivePart token)).map
        (PartReading.renamed v.theme) := by
    rw [List.map_map]
    exact List.map_congr_left fun part hpart => v.readResponsivePart_eq_renamed token hpart
  obtain ⟨hbases, hrules, hreferences, hdiagnostics⟩ := contributions_renamed v.theme
    ((Value.parts content).map (v.bare.readResponsivePart token))
  rw [readResponsive, hreadings, hbases, hrules, hreferences, hdiagnostics, List.getLast?_map]
  rfl

/-- **The content of a token is renamed**, unless it is a single value in brackets. -/
theorem readContent_eq_renamed (property : Property) (content : List Char) :
    v.readContent token property content
      = (v.bare.readContent token property content).renamed v.theme
          (Value.unwrap? content).isSome := by
  unfold readContent
  split
  · exact v.readMediaQuery_eq_renamed token property content _
  · split
    · exact v.readResponsive_eq_renamed token property content _
    · cases hunwrap : Value.unwrap? content with
      | some inner =>
        -- What is in brackets is read without looking at the vocabulary at all.
        have hsingle : ∀ w : Vocabulary,
            w.singleValue token content = bracketedValue inner := by
          intro w
          rw [singleValue, hunwrap]
        rw [hsingle, hsingle]
        rfl
      | none =>
        rw [v.singleValue_eq_renamed token hunwrap]
        rfl

/-- **Reading with a theme is renaming what is read without it.** -/
theorem read_eq_renamed :
    v.read token = (v.bare.read token).renamed v.theme (isBracketed token) := by
  have hproperties : v.bare.properties = v.properties := rfl
  unfold read isBracketed
  rw [hproperties]
  -- The shape of the token and the name of its property are read off the token alone.
  cases Token.shape? token.toList with
  | none => rfl
  | some shape =>
    dsimp only
    split
    · rfl
    · exact v.readContent_eq_renamed token _ shape.content

end Vocabulary

/-! ### What renaming keeps -/

/-- A text is left as it is or looked up. -/
theorem Value.renamed_verbatim (theme : Theme) (text : String) :
    (verbatim text).renamed theme = verbatim text ∨
      (verbatim text).renamed theme = verbatim (theme.resolve text) := by
  rw [Value.renamed]
  split
  · exact Or.inl rfl
  · exact Or.inr rfl

/-- A text has no references, and a calculation is not looked up. -/
theorem Value.references_renamed (theme : Theme) (value : Value) :
    (value.renamed theme).references = value.references := by
  cases value with
  | verbatim text =>
    obtain hsame | hnamed := Value.renamed_verbatim theme text
    · rw [hsame]
    · rw [hnamed]
      rfl
  | _ => rfl

namespace Meaning

variable (theme : Theme) (bracketed : Bool) (m : Meaning)

/-- Renaming keeps the kind of a meaning. -/
theorem kind_renamed : (m.renamed theme bracketed).kind = m.kind := by
  cases m with
  | plain property value =>
    cases bracketed with
    | true => rfl
    | false =>
      cases value with
      | verbatim text =>
        show (plain property ((Value.verbatim text).renamed theme)).kind = _
        obtain hsame | hnamed := Value.renamed_verbatim theme text
        · rw [hsame]
        · rw [hnamed]
          rfl
      | _ => rfl
  | _ => rfl

theorem property?_renamed : (m.renamed theme bracketed).property? = m.property? := by
  cases m <;> rfl

/-- Renaming keeps the breakpoints and their conditions. -/
theorem conditions_renamed : (m.renamed theme bracketed).conditions = m.conditions := by
  cases m with
  | responsive property base rules => exact List.map_map
  | mediaQuery property rules => exact List.map_map
  | _ => rfl

/-- **All values of a meaning are renamed in the same way**: none of them if it is a single value in
brackets, and all of them otherwise. -/
theorem values_renamed :
    (m.renamed theme bracketed).values = m.values ∨
      (m.renamed theme bracketed).values = m.values.map (Value.renamed theme) := by
  have hrules : ∀ rules : List MediaRule,
      (rules.map (MediaRule.renamed theme)).map MediaRule.value
        = (rules.map MediaRule.value).map (Value.renamed theme) := by
    intro rules
    rw [List.map_map, List.map_map]
    rfl
  cases m with
  | plain property value =>
    cases bracketed with
    | true => exact Or.inl rfl
    | false => exact Or.inr rfl
  | responsive property base rules =>
    right
    rw [renamed, values, values, hrules, List.map_append, Option.toList_map]
  | mediaQuery property rules => exact Or.inr (hrules rules)
  | unrecognized => exact Or.inl rfl

/-- Renaming keeps the references, since only texts are renamed. -/
theorem references_renamed : (m.renamed theme bracketed).references = m.references := by
  rw [references, references]
  obtain hsame | hrenamed := values_renamed theme bracketed m
  · rw [hsame]
  · rw [hrenamed, List.flatMap_map]
    exact congrArg (List.flatMap · m.values) (funext (Value.references_renamed theme))

end Meaning

namespace Vocabulary

/-- **A theme only renames plain values.** Every token is read with the theme and without it. The
meaning with the theme is the other one renamed, and the diagnostics and the registered references
are the same. So are the kind of the meaning, its property, its breakpoints and conditions, and its
references. The values are renamed by one function: it looks texts up or leaves them, it leaves all
other values as they are, and it leaves what a list of values is read as, whether that is a clamp or
a text that was reported. -/
theorem theme_renames_plain_values (v : Vocabulary) (token : String) :
    let plain := v.bare.read token
    let themed := v.read token
    themed.meaning = plain.meaning.renamed v.theme (isBracketed token) ∧
    themed.diagnostics = plain.diagnostics ∧
    themed.references = plain.references ∧
    themed.meaning.kind = plain.meaning.kind ∧
    themed.meaning.property? = plain.meaning.property? ∧
    themed.meaning.conditions = plain.meaning.conditions ∧
    themed.meaning.references = plain.meaning.references ∧
    ∃ rename : Value → Value, themed.meaning.values = plain.meaning.values.map rename ∧
      (∀ text, rename (.verbatim text) = .verbatim text ∨
        rename (.verbatim text) = .verbatim (v.theme.resolve text)) ∧
      (∀ pieces, rename (.calculation pieces) = .calculation pieces) ∧
      (∀ low ideal high, rename (.clamp low ideal high) = .clamp low ideal high) ∧
      (∀ red green blue, rename (.rgb red green blue) = .rgb red green blue) ∧
      ∀ text, 1 < (Value.parts text).length →
        rename (clampValue token text).value = (clampValue token text).value := by
  intro plain themed
  have hread : themed = plain.renamed v.theme (isBracketed token) := v.read_eq_renamed token
  rw [hread]
  refine ⟨rfl, rfl, rfl, plain.meaning.kind_renamed _ _, plain.meaning.property?_renamed _ _,
    plain.meaning.conditions_renamed _ _, plain.meaning.references_renamed _ _, ?_⟩
  obtain hsame | hrenamed := plain.meaning.values_renamed v.theme (isBracketed token)
  · -- A single value in brackets: nothing is renamed.
    refine ⟨id, ?_, fun text => Or.inl rfl, fun _ => rfl, fun _ _ _ => rfl, fun _ _ _ => rfl,
      fun _ _ => rfl⟩
    rw [List.map_id]
    exact hsame
  · exact ⟨Value.renamed v.theme, hrenamed, Value.renamed_verbatim v.theme, fun _ => rfl,
      fun _ _ _ => rfl, fun _ _ _ => rfl, fun text => renamed_clampValue token v.theme⟩

/-- A theme that has a list among its names, and a list as what a name stands for. The list in the
token is reported and stays, and the one that comes from the theme is not reported. -/
theorem list_of_two_is_not_renamed :
    let v : Vocabulary := ⟨Table.ofList [("w", .single "width")], Table.ofList [("P", "print")],
      ⟨Table.ofList [("red", "1, 2"), ("1px, 2px", "3px")], ∅⟩⟩
    let token := "w[@P[1px, 2px], @P[red]]"
    1 < (Value.parts "1px, 2px".toList).length ∧
      (v.bare.read token).meaning.values = [.verbatim "1px, 2px", .verbatim "red"] ∧
      (v.read token).diagnostics = [.malformedClamp token 2] ∧
      ∃ rename : Value → Value,
        (v.read token).meaning.values = (v.bare.read token).meaning.values.map rename ∧
        rename (clampValue token "1px, 2px".toList).value
          = (clampValue token "1px, 2px".toList).value ∧
        rename (.verbatim "red") = .verbatim "1, 2" := by
  intro v token
  have hparts : 1 < (Value.parts "1px, 2px".toList).length := by decide
  have hplain : (v.bare.read token).meaning.values = [.verbatim "1px, 2px", .verbatim "red"] := by
    decide +kernel
  have hthemed : (v.read token).meaning.values = [.verbatim "1px, 2px", .verbatim "1, 2"] := by
    decide +kernel
  obtain ⟨-, hdiagnostics, -, -, -, -, -, rename, hvalues, -, -, -, -, hlist⟩ :=
    theme_renames_plain_values v token
  refine ⟨hparts, hplain, ?_, rename, hvalues, hlist _ hparts, ?_⟩
  · rw [hdiagnostics]
    decide +kernel
  · rw [hthemed, hplain] at hvalues
    have hboth : rename (.verbatim "1px, 2px") = .verbatim "1px, 2px" ∧
        rename (.verbatim "red") = .verbatim "1, 2" := by
      simpa using hvalues.symm
    exact hboth.2

end Vocabulary

end UtilityCss
