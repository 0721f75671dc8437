import UtilityCss.Proofs.RuleForms

/-!
# Rules by breakpoint

What a list of rules means, in either of its two forms. A rule with a plain value contributes the
same in both, so the forms say the same. They differ for other values: a value on several lines is
one for `value:name`, but it makes `@name[value]` no rule at all.

A rule under an unknown breakpoint contributes a problem and nothing else. What the other parts of
the token contribute does not depend on it, apart from the token that their problems name
(`readMediaPart_about`, `readResponsivePart_about`), so it can be put in anywhere
(`filterMap_insert`, `problems_insert`).
-/

namespace UtilityCss

open UtilityCss.Text Token Value

namespace Vocabulary

variable {v : Vocabulary} {name : List Char} {property : Property}

/-! ### The two forms -/

/-- A rule that can be written in both forms: its value is neither a list nor a calculation, none of
its characters means anything in a token, and it stands on one line. -/
structure PlainRule where
  value : List Char
  breakpoint : List Char
  value_ne_nil : value ≠ []
  trim_value : trim value = value
  value_chars : ∀ c ∈ value, c ∉ reserved
  value_line : '\n' ∉ value
  not_hasCalculation : hasCalculation value = false
  isBreakpointName : IsBreakpointName breakpoint

/-- The token `name[value:breakpoint, …]`. -/
def colonForm (name : List Char) (rules : List PlainRule) : String :=
  listed name (rules.map fun r => colonRule r.value r.breakpoint)

/-- The token `name[@breakpoint[value], …]`. -/
def atForm (name : List Char) (rules : List PlainRule) : String :=
  listed name (rules.map fun r => atRule r.breakpoint r.value)

/-- The rules whose breakpoint is known, with the condition that it stands for. -/
def knownRules (v : Vocabulary) (rules : List PlainRule) : List MediaRule :=
  rules.filterMap fun r =>
    (v.breakpoints.get? (String.ofList r.breakpoint)).map fun condition =>
      ⟨v.plainValue r.value, String.ofList r.breakpoint, condition⟩

/-- The breakpoints that are not known, in the order of the rules. -/
def unknownBreakpoints (v : Vocabulary) (rules : List PlainRule) : List String :=
  (rules.map fun r => String.ofList r.breakpoint).filter fun breakpoint =>
    (v.breakpoints.get? breakpoint).isNone

/-- What a plain rule contributes to a token, in either form. -/
def readPlainRule (v : Vocabulary) (token : String) (r : PlainRule) : PartReading :=
  match v.breakpoints.get? (String.ofList r.breakpoint) with
  | none => .problem (.unknownBreakpoint token (String.ofList r.breakpoint))
  | some condition =>
    ⟨none, some ⟨v.plainValue r.value, String.ofList r.breakpoint, condition⟩, [], []⟩

namespace PlainRule

/-- No character of a plain rule means anything in a token. -/
theorem chars (r : PlainRule) : ∀ c ∈ r.value ++ r.breakpoint, c ∉ reserved :=
  List.forall_mem_append.mpr ⟨r.value_chars, r.isBreakpointName.notMem_reserved⟩

/-- What a plain rule contributes when it is written as `value:name`. -/
theorem readResponsivePart_colonRule (v : Vocabulary) (token : String) (r : PlainRule) :
    v.readResponsivePart token (trim (colonRule r.value r.breakpoint))
      = v.readPlainRule token r := by
  have hempty : r.breakpoint.isEmpty = false := by simpa using r.isBreakpointName.ne_nil
  -- The only colon is the one between the value and the name.
  rw [readResponsivePart, responsivePart_trim (colon_notMem_value r.chars), r.trim_value,
    r.isBreakpointName.trim_eq]
  dsimp only
  rw [hempty]
  rfl

/-- A plain rule contributes the same when it is written as `@name[value]`. -/
theorem readMediaPart_atRule (v : Vocabulary) (token : String) (r : PlainRule) :
    v.readMediaPart token (trim (atRule r.breakpoint r.value)) = v.readPlainRule token r := by
  have hpart : mediaPart? (atRule r.breakpoint r.value) = some (r.breakpoint, r.value) :=
    mediaPart?_eq_some_iff.mpr ⟨r.isBreakpointName, r.value, rfl, r.value_ne_nil,
      r.value_line, r.trim_value.symm⟩
  -- One part and no calculation: the value is looked up in the theme, as in the other form.
  have hvalue : v.mediaValue token r.value = ⟨v.plainValue r.value, [], []⟩ := by
    rw [mediaValue, (undivided_of_notMem_reserved r.value_chars).parts_eq, r.not_hasCalculation]
    rfl
  rw [trim_atRule, readMediaPart, hpart]
  dsimp only
  rw [hvalue]
  rfl

end PlainRule

/-- What a list of plain rules contributes, part by part. -/
theorem filterMap_rule_readPlainRule (token : String) (rules : List PlainRule) :
    (rules.map (v.readPlainRule token)).filterMap PartReading.rule = v.knownRules rules := by
  rw [List.filterMap_map, knownRules]
  refine List.filterMap_congr fun r _ => ?_
  rw [Function.comp_apply, readPlainRule]
  cases v.breakpoints.get? (String.ofList r.breakpoint) <;> rfl

/-- A plain rule has a breakpoint, so it is no base value. -/
theorem filterMap_base_readPlainRule (token : String) (rules : List PlainRule) :
    (rules.map (v.readPlainRule token)).filterMap PartReading.base = [] := by
  rw [List.filterMap_map, List.filterMap_eq_nil_iff]
  intro r _
  rw [Function.comp_apply, readPlainRule]
  cases v.breakpoints.get? (String.ofList r.breakpoint) <;> rfl

/-- A plain rule registers no reference, whether or not its breakpoint is known. -/
theorem flatMap_references_readPlainRule (token : String) (rules : List PlainRule) :
    (rules.map (v.readPlainRule token)).flatMap PartReading.references = [] := by
  rw [List.flatMap_map, List.flatMap_eq_nil_iff]
  intro r _
  rw [readPlainRule]
  cases v.breakpoints.get? (String.ofList r.breakpoint) <;> rfl

/-- The problems of a list of plain rules are its unknown breakpoints, in their order. -/
theorem flatMap_diagnostics_readPlainRule (token : String) (rules : List PlainRule) :
    (rules.map (v.readPlainRule token)).flatMap PartReading.diagnostics
      = (v.unknownBreakpoints rules).map (.unknownBreakpoint token) := by
  induction rules with
  | nil => rfl
  | cons r rules ih =>
    rw [List.map_cons, List.flatMap_cons, ih, unknownBreakpoints, unknownBreakpoints,
      List.map_cons, List.filter_cons, readPlainRule]
    -- A known breakpoint reports nothing, and an unknown one reports itself.
    cases v.breakpoints.get? (String.ofList r.breakpoint) <;> rfl

/-- No reference is in a plain rule. -/
theorem references_knownRules (rules : List PlainRule) :
    ((v.knownRules rules).map MediaRule.value).flatMap Value.references = [] := by
  rw [List.flatMap_map, List.flatMap_eq_nil_iff]
  intro rule hrule
  obtain ⟨r, -, hr⟩ := List.mem_filterMap.mp hrule
  obtain ⟨condition, -, rfl⟩ := Option.map_eq_some_iff.mp hr
  -- A plain value is a text as it is.
  rfl

section Forms

variable (hname : IsShortName name)
  (hproperty : v.properties.get? (String.ofList name) = some property)
  {rules : List PlainRule} (hne : rules ≠ [])
include hname hproperty hne

/-- The form with colons. That nothing in it looks like another form is checked part by part. -/
theorem read_colonForm :
    v.read (colonForm name rules)
      = ⟨.responsive property none (v.knownRules rules), [],
          (v.unknownBreakpoints rules).map (.unknownBreakpoint (colonForm name rules))⟩ := by
  obtain ⟨first, hfirst⟩ := List.exists_mem_of_ne_nil rules hne
  have hreadings : partReadings (v.readResponsivePart (colonForm name rules))
      (rules.map fun r => colonRule r.value r.breakpoint)
        = rules.map (v.readPlainRule (colonForm name rules)) := by
    rw [partReadings, List.map_map, List.map_map]
    exact List.map_congr_left fun r _ => r.readResponsivePart_colonRule v _
  -- Neither an `@` nor a hash gets in the way of the colons.
  have hread := read_of_colon hname hproperty
    (List.forall_mem_map.mpr fun r _ => undivided_colonRule r.chars)
    (List.forall_mem_map.mpr fun r _ => notMem_colonRule r.chars (by decide) (by decide))
    ⟨_, List.mem_map_of_mem hfirst, by simp [colonRule]⟩
    (List.forall_mem_map.mpr fun r _ => Reference.occursIn_of_notMem
      (notMem_colonRule r.chars (by decide) (by decide)))
  rw [← colonForm, registered, problems, hreadings, filterMap_base_readPlainRule,
    filterMap_rule_readPlainRule, flatMap_references_readPlainRule,
    flatMap_diagnostics_readPlainRule] at hread
  exact hread

/-- The form with `@`. It is recognized by its first `@`, so its parts may hold anything nested. -/
theorem read_atForm :
    v.read (atForm name rules)
      = ⟨.mediaQuery property (v.knownRules rules), [],
          (v.unknownBreakpoints rules).map (.unknownBreakpoint (atForm name rules))⟩ := by
  obtain ⟨first, hfirst⟩ := List.exists_mem_of_ne_nil rules hne
  have hreadings : partReadings (v.readMediaPart (atForm name rules))
      (rules.map fun r => atRule r.breakpoint r.value)
        = rules.map (v.readPlainRule (atForm name rules)) := by
    rw [partReadings, List.map_map, List.map_map]
    exact List.map_congr_left fun r _ => r.readMediaPart_atRule v _
  -- Each rule is one part, since its brackets keep commas in the value inside.
  have hread := read_of_at hname hproperty
    (List.forall_mem_map.mpr fun r _ =>
      undivided_atRule r.isBreakpointName (undivided_of_notMem_reserved r.value_chars).isNested)
    ⟨_, List.mem_map_of_mem hfirst, by simp [atRule]⟩
  rw [← atForm, registered, problems, hreadings, filterMap_rule_readPlainRule,
    flatMap_references_readPlainRule, flatMap_diagnostics_readPlainRule] at hread
  exact hread

end Forms

/-- **The two forms say the same.** A list of plain rules gives the same rules and the same
problems in the same order, whichever way it is written, and asks for no reference. The short name
is one that the shape of a token can have, that is, it is made of letters: a key of the property
table such as `w2` heads no token. -/
theorem read_colonForm_and_atForm (hname : IsShortName name)
    (hproperty : v.properties.get? (String.ofList name) = some property)
    {rules : List PlainRule} (hne : rules ≠ []) :
    v.read (colonForm name rules)
        = ⟨.responsive property none (v.knownRules rules), [],
            (v.unknownBreakpoints rules).map (.unknownBreakpoint (colonForm name rules))⟩ ∧
      v.read (atForm name rules)
        = ⟨.mediaQuery property (v.knownRules rules), [],
            (v.unknownBreakpoints rules).map (.unknownBreakpoint (atForm name rules))⟩ ∧
      (v.read (colonForm name rules)).meaning.references = [] ∧
      (v.read (atForm name rules)).meaning.references = [] := by
  have hcolon := read_colonForm hname hproperty hne
  have hat := read_atForm hname hproperty hne
  refine ⟨hcolon, hat, ?_, ?_⟩
  · rw [hcolon]
    exact references_knownRules rules
  · rw [hat]
    exact references_knownRules rules

/-- A vocabulary with one property and one breakpoint. -/
def padding : Vocabulary :=
  ⟨.ofList [("p", .single "padding")], .ofList [("Phone", "(max-width: 767px)")], ∅⟩

/-- A known and an unknown breakpoint, in both forms. -/
theorem padding_in_two_forms :
    padding.read "p[1px:Watch, 2px:Phone]"
        = ⟨.responsive (.single "padding") none
            [⟨.verbatim "2px", "Phone", "(max-width: 767px)"⟩], [],
            [.unknownBreakpoint "p[1px:Watch, 2px:Phone]" "Watch"]⟩ ∧
      padding.read "p[@Watch[1px], @Phone[2px]]"
        = ⟨.mediaQuery (.single "padding") [⟨.verbatim "2px", "Phone", "(max-width: 767px)"⟩], [],
            [.unknownBreakpoint "p[@Watch[1px], @Phone[2px]]" "Watch"]⟩ := by
  have hname : IsShortName ['p'] := by decide
  -- Two plain rules, of which the first has an unknown breakpoint.
  have h := read_colonForm_and_atForm (v := padding) hname rfl (List.cons_ne_nil
    ⟨['1', 'p', 'x'], "Watch".toList, by simp, rfl, by simp [reserved], by simp, by decide,
      by decide⟩
    [⟨['2', 'p', 'x'], "Phone".toList, by simp, rfl, by simp [reserved], by simp, by decide,
      by decide⟩])
  exact ⟨h.1, h.2.1⟩

/-! ### A rule on several lines -/

/-- **A rule `@name[value]` is kept when its value stands on one line**, and it is lost without a
word when the value does not. As above, the short name is made of letters, which leaves out table
keys such as `w2` that no token can have as its name. -/
theorem atRule_kept_on_one_line (hname : IsShortName name)
    (hproperty : v.properties.get? (String.ofList name) = some property)
    {breakpoint value : List Char} (hbreakpoint : IsBreakpointName breakpoint) {condition : String}
    (hcondition : v.breakpoints.get? (String.ofList breakpoint) = some condition)
    (hne : value ≠ []) (hnested : Nested value) :
    ('\n' ∉ value →
        (v.read (bracketed name (atRule breakpoint value))).meaning
          = .mediaQuery property
            [⟨(v.mediaValue (bracketed name (atRule breakpoint value)) (trim value)).value,
              String.ofList breakpoint, condition⟩]) ∧
      ('\n' ∈ value →
        v.read (bracketed name (atRule breakpoint value)) = ⟨.mediaQuery property [], [], []⟩) := by
  -- The token has one part, and a line feed decides whether that part is a rule.
  have hparts : ∀ p ∈ [atRule breakpoint value], Undivided p :=
    List.forall_mem_singleton.mpr (undivided_atRule hbreakpoint hnested)
  have hread := read_of_at (v := v) hname hproperty hparts
    ⟨_, List.mem_singleton_self _, by simp [atRule]⟩
  rw [listed_singleton, registered, problems, partReadings, List.map_singleton, List.map_singleton,
    trim_atRule, readMediaPart, mediaPart?_atRule hbreakpoint] at hread
  constructor
  · -- On one line the part is a rule, and its breakpoint is known.
    intro hline
    rw [hread, if_pos ⟨hne, hline⟩]
    dsimp only
    rw [hcondition]
    rfl
  · intro hline
    -- Otherwise it is no rule, and what is no rule is passed over in silence.
    rw [hread, if_neg fun hkept => hkept.2 hline]
    rfl

/-- A value with a comma in parentheses, once on one line and once on two. -/
theorem padding_under_phone :
    (padding.read "p[@Phone[var(--a, 1px)]]").meaning
        = .mediaQuery (.single "padding")
          [⟨.verbatim "var(--a, 1px)", "Phone", "(max-width: 767px)"⟩] ∧
      padding.read "p[@Phone[var(--a,\n1px)]]" = ⟨.mediaQuery (.single "padding") [], [], []⟩ := by
  have hname : IsShortName ['p'] := by decide
  have hphone : IsBreakpointName "Phone".toList := by decide
  have honeLine : Nested "var(--a, 1px)".toList := by decide
  have htwoLines : Nested "var(--a,\n1px)".toList := by decide
  have hkept := atRule_kept_on_one_line (v := padding) hname rfl hphone rfl (by decide) honeLine
  have hlost := atRule_kept_on_one_line (v := padding) hname rfl hphone rfl (by decide) htwoLines
  exact ⟨hkept.1 (by decide), hlost.2 (by decide)⟩

/-- Two paddings on two lines are no rule, and nobody is told. -/
theorem line_feed_loses_atRule :
    padding.read "p[@Phone[1px\n2px]]" = ⟨.mediaQuery (.single "padding") [], [], []⟩ := by
  rfl

/-! ### Unknown breakpoints -/

end Vocabulary

/-- The same problem with another token. -/
def Diagnostic.about (token : String) : Diagnostic → Diagnostic
  | unknownProperty _ property => unknownProperty token property
  | unknownBreakpoint _ breakpoint => unknownBreakpoint token breakpoint
  | malformedClamp _ parts => malformedClamp token parts
  | unresolvedElement id => unresolvedElement id

/-- A value whose problems are those of another token. -/
def ValueReading.about (token : String) (r : ValueReading) : ValueReading :=
  { r with diagnostics := r.diagnostics.map (Diagnostic.about token) }

/-- What a part contributes when its problems are those of another token. -/
def PartReading.about (token : String) (r : PartReading) : PartReading :=
  { r with diagnostics := r.diagnostics.map (Diagnostic.about token) }

namespace Vocabulary

variable {v : Vocabulary} {name : List Char} {property : Property}

/-- The value of a part does not depend on the token, but for the token that its problems name. -/
theorem mediaValue_about (old new : String) (text : List Char) :
    v.mediaValue new text = (v.mediaValue old text).about new := by
  unfold mediaValue
  -- Only a list that is no clamp has a problem, and this names the token.
  split
  · unfold clampValue
    split <;> rfl
  · split <;> rfl

/-- What a part contributes does not depend on the token around it, but for the token that its
problems name. -/
theorem readMediaPart_about (old new : String) (part : List Char) :
    v.readMediaPart new part = (v.readMediaPart old part).about new := by
  unfold readMediaPart
  split
  · rfl
  · dsimp only
    split
    · rfl
    · rw [mediaValue_about old new]
      rfl

/-- A part that is written with a colon contributes the same in another token, but for the token
that its problems name. -/
theorem readResponsivePart_about (old new : String) (part : List Char) :
    v.readResponsivePart new part = (v.readResponsivePart old part).about new := by
  unfold readResponsivePart
  dsimp only
  split
  · rfl
  · split <;> rfl

section Insertion

variable {readOld readNew : List Char → PartReading} {token : String}
  (habout : ∀ part, readNew part = (readOld part).about token)
include habout

/-- All parts of a token contribute the same, whatever token they stand in. -/
theorem partReadings_about (ps : List (List Char)) :
    partReadings readNew ps = (partReadings readOld ps).map (PartReading.about token) := by
  rw [partReadings, partReadings, List.map_map (f := readOld)]
  exact List.map_congr_left fun p _ => habout p

/-- The problems of parts are the same in another token, but for the token that they name. -/
theorem problems_about (ps : List (List Char)) :
    problems readNew ps = (problems readOld ps).map (Diagnostic.about token) := by
  rw [problems, problems, partReadings_about habout, List.flatMap_map, List.map_flatMap]
  rfl

variable {part : List Char} {breakpoint : String}
  (hpart : readNew (trim part) = .problem (.unknownBreakpoint token breakpoint))
  (front back : List (List Char))
include hpart

/-- What the parts contribute when one of them is new and has an unknown breakpoint. -/
theorem partReadings_insert :
    partReadings readNew (front ++ part :: back)
      = (partReadings readOld front).map (PartReading.about token)
        ++ .problem (.unknownBreakpoint token breakpoint)
          :: (partReadings readOld back).map (PartReading.about token) := by
  -- The parts before and behind the new one are read with the new token.
  rw [← partReadings_about habout, ← partReadings_about habout, ← hpart]
  simp [partReadings]

/-- The new part adds nothing to what is collected from the parts, neither base values nor rules. -/
theorem filterMap_insert {α : Type} {f : PartReading → Option α}
    (hf : f ∘ PartReading.about token = f) (hproblem : ∀ d, f (.problem d) = none) :
    (partReadings readNew (front ++ part :: back)).filterMap f
      = (partReadings readOld (front ++ back)).filterMap f := by
  -- The new part gives nothing, and the others give what they gave before.
  rw [partReadings_insert habout hpart, List.filterMap_append,
    List.filterMap_cons_none (hproblem _), List.filterMap_map, List.filterMap_map, hf,
    ← List.filterMap_append, partReadings, partReadings, partReadings, List.map_append,
    List.map_append]

/-- The new part adds its problem, at its own place among the others. -/
theorem problems_insert :
    problems readNew (front ++ part :: back)
      = (problems readOld front).map (Diagnostic.about token)
        ++ .unknownBreakpoint token breakpoint
          :: (problems readOld back).map (Diagnostic.about token) := by
  rw [← problems_about habout, ← problems_about habout, problems, partReadings_insert habout hpart,
    ← partReadings_about habout, ← partReadings_about habout, List.flatMap_append,
    List.flatMap_cons]
  rfl

end Insertion

/-- The problems of parts are those of the front and then those of the back. -/
theorem problems_append (readPart : List Char → PartReading) (front back : List (List Char)) :
    problems readPart (front ++ back) = problems readPart front ++ problems readPart back := by
  rw [problems, partReadings, List.map_append, List.map_append, List.flatMap_append]
  rfl

/-- **A part costs itself and nothing else.** With the part between `front` and `back` the token
means what it means without it, registers the same references, and has the problems of `front` and
of `back` as before, with an unknown breakpoint between them. -/
structure CostsItself (v : Vocabulary) (readPart : String → List Char → PartReading)
    (name : List Char) (front : List (List Char)) (part : List Char) (back : List (List Char))
    (breakpoint : String) : Prop where
  meaning_eq : (v.read (listed name (front ++ part :: back))).meaning
    = (v.read (listed name (front ++ back))).meaning
  references_eq : (v.read (listed name (front ++ part :: back))).references
    = (v.read (listed name (front ++ back))).references
  diagnostics_without : (v.read (listed name (front ++ back))).diagnostics
    = problems (readPart (listed name (front ++ back))) front
      ++ problems (readPart (listed name (front ++ back))) back
  diagnostics_with : (v.read (listed name (front ++ part :: back))).diagnostics
    = (problems (readPart (listed name (front ++ back))) front).map
        (Diagnostic.about (listed name (front ++ part :: back)))
      ++ .unknownBreakpoint (listed name (front ++ part :: back)) breakpoint
        :: (problems (readPart (listed name (front ++ back))) back).map
          (Diagnostic.about (listed name (front ++ part :: back)))

/-- A rule `@name[value]` under an unknown breakpoint is a problem. -/
theorem readMediaPart_of_unknown {value breakpoint : List Char}
    (hunknown : v.breakpoints.get? (String.ofList breakpoint) = none)
    (hname : IsBreakpointName breakpoint) (hne : value ≠ []) (hline : '\n' ∉ value)
    (token : String) :
    v.readMediaPart token (trim (atRule breakpoint value))
      = .problem (.unknownBreakpoint token (String.ofList breakpoint)) := by
  rw [trim_atRule, readMediaPart, mediaPart?_atRule hname, if_pos ⟨hne, hline⟩]
  dsimp only
  rw [hunknown]

/-- A rule `value:name` under an unknown breakpoint is a problem. -/
theorem readResponsivePart_of_unknown {value breakpoint : List Char}
    (hunknown : v.breakpoints.get? (String.ofList (trim breakpoint)) = none)
    (hne : trim breakpoint ≠ []) (hcolon : ':' ∉ value) (token : String) :
    v.readResponsivePart token (trim (colonRule value breakpoint))
      = .problem (.unknownBreakpoint token (String.ofList (trim breakpoint))) := by
  have hempty : (trim breakpoint).isEmpty = false := by simpa using hne
  rw [readResponsivePart, responsivePart_trim hcolon]
  dsimp only
  rw [hempty, hunknown]
  rfl

/-- **A rule under an unknown breakpoint costs itself and nothing else**, wherever it stands among
the parts of a token. A rule `@name[value]` can have any nested value on one line; a rule
`value:name` has no character that would give the token another form. The token has a short name of
letters, as the shape of a token wants it, so table keys such as `w2` are out. -/
theorem unknown_breakpoint_costs_own_rule (hname : IsShortName name)
    (hproperty : v.properties.get? (String.ofList name) = some property)
    {front back : List (List Char)} (hparts : ∀ p ∈ front ++ back, Undivided p)
    {value breakpoint : List Char}
    (hunknown : v.breakpoints.get? (String.ofList (trim breakpoint)) = none) :
    ((∃ rules, (v.read (listed name (front ++ back))).meaning
          = .mediaQuery property rules) →
        IsBreakpointName breakpoint → value ≠ [] → Nested value → '\n' ∉ value →
        v.CostsItself v.readMediaPart name front (atRule breakpoint value) back
          (String.ofList breakpoint)) ∧
      ((∃ base rules, (v.read (listed name (front ++ back))).meaning
          = .responsive property base rules) →
        trim breakpoint ≠ [] → (∀ c ∈ value ++ breakpoint, c ∉ reserved) →
        v.CostsItself v.readResponsivePart name front (colonRule value breakpoint) back
          (String.ofList (trim breakpoint))) := by
  -- What holds of the old parts and of the new one holds of all.
  have hmore : ∀ {P : List Char → Prop} {part : List Char}, (∀ p ∈ front ++ back, P p) → P part →
      ∀ p ∈ front ++ part :: back, P p := by
    intro P part h hpart
    rw [List.forall_mem_append] at h ⊢
    exact ⟨h.1, List.forall_mem_cons.mpr ⟨hpart, h.2⟩⟩
  constructor
  · rintro ⟨rules, hmeaning⟩ hbreakpoint hne hnested hline
    -- The token is a list of rules without the new part, so an `@` stands in one of the old ones.
    have hat := exists_at_of_mediaQuery hname hproperty hmeaning
    have hread := read_of_at hname hproperty hparts hat
    -- One more part with an `@` does not change the form of the token.
    have hread' := read_of_at hname hproperty
      (hmore hparts (undivided_atRule hbreakpoint hnested))
      ⟨atRule breakpoint value, by simp, by simp [atRule]⟩
    rw [hbreakpoint.trim_eq] at hunknown
    -- The old parts contribute what they did, and the new one is a problem.
    have habout := readMediaPart_about (v := v) (listed name (front ++ back))
      (listed name (front ++ atRule breakpoint value :: back))
    have hpart := readMediaPart_of_unknown hunknown hbreakpoint hne hline
      (listed name (front ++ atRule breakpoint value :: back))
    have hsame : (v.read (listed name (front ++ atRule breakpoint value :: back))).meaning
        = (v.read (listed name (front ++ back))).meaning := by
      rw [hread, hread', filterMap_insert habout hpart front back rfl fun _ => rfl]
    refine ⟨hsame, references_read_congr hsame, ?_, ?_⟩
    · rw [hread, problems_append]
    · rw [hread', problems_insert habout hpart]
  · rintro ⟨base, rules, hmeaning⟩ hne hchars
    -- Without the new part the token gives values by colons, so nothing in the old ones is in their
    -- way.
    obtain ⟨hat, hcolon, hreference⟩ := of_responsive hname hproperty hmeaning
    have hread := read_of_colon hname hproperty hparts hat hcolon hreference
    -- Nor does one more part with a colon and without an `@` or a hash.
    have hread' := read_of_colon hname hproperty (hmore hparts (undivided_colonRule hchars))
      (hmore hat (notMem_colonRule hchars (by decide) (by decide)))
      ⟨colonRule value breakpoint, by simp, by simp [colonRule]⟩
      (hmore hreference
        (Reference.occursIn_of_notMem (notMem_colonRule hchars (by decide) (by decide))))
    have habout := readResponsivePart_about (v := v) (listed name (front ++ back))
      (listed name (front ++ colonRule value breakpoint :: back))
    have hpart := readResponsivePart_of_unknown hunknown hne (colon_notMem_value hchars)
      (listed name (front ++ colonRule value breakpoint :: back))
    have hsame : (v.read (listed name (front ++ colonRule value breakpoint :: back))).meaning
        = (v.read (listed name (front ++ back))).meaning := by
      rw [hread, hread', filterMap_insert habout hpart front back rfl fun _ => rfl,
        filterMap_insert habout hpart front back rfl fun _ => rfl]
    refine ⟨hsame, references_read_congr hsame, ?_, ?_⟩
    · rw [hread, problems_append]
    · rw [hread', problems_insert habout hpart]

/-- A rule under an unknown breakpoint between two others, in both forms. In the first one a part
before it has a problem of its own, and the rule itself holds a reference, which is not
registered. -/
theorem watch_rule_costs_itself :
    (padding.read "p[@Phone[1px, 2px], @Watch[#a:width + 3px], @Watch[4px]]").meaning
        = (padding.read "p[@Phone[1px, 2px], @Watch[4px]]").meaning ∧
      (padding.read "p[@Phone[1px, 2px], @Watch[#a:width + 3px], @Watch[4px]]").references
        = (padding.read "p[@Phone[1px, 2px], @Watch[4px]]").references ∧
      (padding.read "p[@Phone[1px, 2px], @Watch[#a:width + 3px], @Watch[4px]]").diagnostics
        = [.malformedClamp "p[@Phone[1px, 2px], @Watch[#a:width + 3px], @Watch[4px]]" 2,
            .unknownBreakpoint "p[@Phone[1px, 2px], @Watch[#a:width + 3px], @Watch[4px]]" "Watch",
            .unknownBreakpoint "p[@Phone[1px, 2px], @Watch[#a:width + 3px], @Watch[4px]]" "Watch"] ∧
      (padding.read "p[0, 1px: Watch, 2px:Phone]").meaning
        = (padding.read "p[0, 2px:Phone]").meaning ∧
      (padding.read "p[0, 1px: Watch, 2px:Phone]").diagnostics
        = [.unknownBreakpoint "p[0, 1px: Watch, 2px:Phone]" "Watch"] := by
  have hname : IsShortName ['p'] := by decide
  have hwatch : IsBreakpointName "Watch".toList := by decide
  have hlist : Undivided (atRule "Phone".toList "1px, 2px".toList) :=
    undivided_atRule (by decide) (by decide)
  have hlast : Undivided (atRule "Watch".toList "4px".toList) := undivided_atRule hwatch (by decide)
  have hplain : ∀ p ∈ [['0']] ++ ["2px:Phone".toList], Undivided p :=
    List.forall_mem_append.mpr
      ⟨List.forall_mem_singleton.mpr (undivided_of_forall_not (by simp [isBracket])),
        List.forall_mem_singleton.mpr (undivided_of_forall_not (by simp [isBracket]))⟩
  have hat := (unknown_breakpoint_costs_own_rule (v := padding) hname rfl
    (List.forall_mem_append.mpr
      ⟨List.forall_mem_singleton.mpr hlist, List.forall_mem_singleton.mpr hlast⟩) rfl).1
    ⟨_, rfl⟩ hwatch (List.cons_ne_nil '#' "a:width + 3px".toList) (by decide) (by decide)
  have hcolon := (unknown_breakpoint_costs_own_rule (v := padding) hname rfl hplain rfl).2
    ⟨_, _, rfl⟩ (by decide)
    (by simp [reserved] : ∀ c ∈ ['1', 'p', 'x'] ++ " Watch".toList, c ∉ reserved)
  exact ⟨hat.meaning_eq, hat.references_eq, hat.diagnostics_with, hcolon.meaning_eq,
    hcolon.diagnostics_with⟩

end Vocabulary

end UtilityCss
