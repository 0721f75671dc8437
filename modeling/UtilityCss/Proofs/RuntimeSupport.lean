import UtilityCss.Proofs.ClassCopies
import UtilityCss.Proofs.Gathering
import UtilityCss.Proofs.ScriptPlan

/-!
# The style sheet and the runtime script agree

A compilation writes two texts that depend on each other: the style sheet uses custom properties
that the script has to set. They are made from the same session but by different parts of the
library, and this file is where the parts meet:

* `Session.references_registry` — the references of the registry, which were registered while the
  tokens were read, are those of the rules in the sheet, each at its first place. Nothing is
  registered for a value that is dropped (`Vocabulary.references_read`), and a value that is kept
  lists what was replaced in it (`Vocabulary.readFrom_of_mem_read`);
* `Session.classCopies_scanAll` — the class copies are the markers in the attributes of the source
  texts, whether or not their elements are found;
* `Session.run_serves_sheet` puts these together with what the lines of a script do.
-/

namespace UtilityCss

open UtilityCss.Text

/-! ### References of rules -/

/-- A token makes one rule for each value of its meaning. -/
theorem Meaning.map_value_rules (token : String) (meaning : Meaning) :
    (meaning.rules token).map Rule.value = meaning.values := by
  cases meaning with
  | plain property value =>
    rw [Meaning.rules, baseRules_plain]
    rfl
  | responsive property base rules =>
    cases base with
    | none => simp [Meaning.rules, values, baseRules, mediaRules]
    | some value => simp [Meaning.rules, values, baseRules, mediaRules]
  | mediaQuery property rules => simp [Meaning.rules, values, baseRules, mediaRules]
  | unrecognized => rfl

/-- The rules of a token have the token as their selector. -/
theorem Meaning.token_of_mem_rules {token : String} {meaning : Meaning} {rule : Rule}
    (h : rule ∈ meaning.rules token) : rule.token = token := by
  -- The rules under conditions are made from the token in the same way everywhere.
  have hmedia : ∀ {property : Property} {rules : List MediaRule},
      rule ∈ (rules.map fun r => (r.condition, (⟨token, property, r.value⟩ : Rule))).map Prod.snd →
        rule.token = token := by
    intro property rules hrule
    obtain ⟨_, hentry, rfl⟩ := List.mem_map.mp hrule
    obtain ⟨r, -, rfl⟩ := List.mem_map.mp hentry
    rfl
  cases meaning with
  | plain property value =>
    rw [Meaning.rules, baseRules_plain] at h
    rw [List.mem_singleton.mp h]
  | responsive property base rules =>
    cases base with
    | none => exact hmedia h
    | some value =>
      rcases List.mem_append.mp h with h | h
      · rw [List.mem_singleton.mp h]
      · exact hmedia h
  | mediaQuery property rules => exact hmedia h
  | unrecognized => exact absurd h List.not_mem_nil

namespace Session

/-- The rules that a session adds to its style sheet, token by token. -/
def addedRules (s : Session) (v : Vocabulary) : List Rule :=
  s.tokens.toList.flatMap fun t => (v.read t).meaning.rules t

/-- The style sheet holds the rules that were added to it. -/
theorem rules_sheet_perm (s : Session) (v : Vocabulary) :
    (s.sheet v).rules.Perm (s.addedRules v) := by
  rw [sheet_eq_ofTokens, addedRules]
  have hperm := StyleSheet.rules_ofTokens_perm
    (s.tokens.toList.map fun t => (t, (v.read t).meaning))
  rwa [List.flatMap_map] at hperm

/-- The value of every rule was read from the token of the rule. -/
theorem readFrom_of_mem_addedRules {s : Session} {v : Vocabulary} {rule : Rule}
    (h : rule ∈ s.addedRules v) : rule.value.ReadFrom v.theme rule.token.toList := by
  obtain ⟨token, -, hrule⟩ := List.mem_flatMap.mp h
  -- The value of the rule is one of the values of its token.
  have hvalue : rule.value ∈ (v.read token).meaning.values := by
    rw [← Meaning.map_value_rules token]
    exact List.mem_map.mpr ⟨rule, hrule, rfl⟩
  rw [Meaning.token_of_mem_rules hrule]
  exact v.readFrom_of_mem_read hvalue

section Registered

variable {s : Session} (hs : s.references = ∅) (v : Vocabulary)
include hs

/-- The registry of a session that starts without references holds what its tokens register. -/
theorem references_registry_eq_registered :
    (s.registry v).references.toList
      = (s.tokens.toList.flatMap fun t => (v.read t).references).eraseDups := by
  rw [registry_eq, hs]
  exact FirstSeen.toList_ofList _

/-- **The registry holds the references of the rules**, each at its first place. -/
theorem references_registry :
    (s.registry v).references.toList
      = ((s.addedRules v).flatMap fun rule => rule.value.references).eraseDups := by
  -- What a token registers is in its values, and there is one rule for each value.
  have hrules : ∀ t, (v.read t).references
      = ((v.read t).meaning.rules t).flatMap fun rule => rule.value.references := by
    intro t
    rw [v.references_read, Meaning.references, ← Meaning.map_value_rules t, List.flatMap_map]
  rw [references_registry_eq_registered hs, addedRules, List.flatMap_assoc]
  simp only [hrules]

/-- All references of the registry have well-formed names. -/
theorem named_of_mem_references {r : Reference} (h : r ∈ (s.registry v).references.toList) :
    r.Named := by
  rw [references_registry hs, List.mem_eraseDups] at h
  obtain ⟨rule, hrule, hr⟩ := List.mem_flatMap.mp h
  exact (readFrom_of_mem_addedRules hrule).named_references r hr

end Registered

/-! ### Class copies of source texts -/

/-- The ids that the class attributes of a source text ask for. -/
def classCopyMarkers (source : String) : List String :=
  (Markup.attributeValues source.toList).flatMap fun value =>
    (Markup.classCopies value).map String.ofList

/-- **The class copies of a run are the markers in its source texts.** -/
theorem classCopies_scanAll (sources : List String) :
    (sources.foldl scan ∅).classCopies = FirstSeen.ofList (sources.flatMap classCopyMarkers) := by
  rw [foldl_scan_eq_absorb]
  rfl

/-- Scanning texts registers no reference; that is left to the reading of tokens. -/
theorem references_scanAll (sources : List String) : (sources.foldl scan ∅).references = ∅ := by
  rw [foldl_scan_eq_absorb]
  rfl

/-- A marker has a name as its id. -/
theorem isName_of_mem_classCopyMarkers {source id : String} (h : id ∈ classCopyMarkers source) :
    Script.IsName id := by
  obtain ⟨value, -, hid⟩ := List.mem_flatMap.mp h
  obtain ⟨chars, hchars, rfl⟩ := List.mem_map.mp hid
  intro c hc
  rw [String.toList_ofList] at hc
  exact (Markup.mem_classCopies_iff.mp hchars).isNameChar c hc

/-- All class copies of a run have names as their ids. -/
theorem isName_of_mem_classCopies {sources : List String} {id : String}
    (h : id ∈ (sources.foldl scan ∅).classCopies.toList) : Script.IsName id := by
  rw [classCopies_scanAll, FirstSeen.toList_ofList, List.mem_eraseDups] at h
  obtain ⟨source, -, hmarker⟩ := List.mem_flatMap.mp h
  exact isName_of_mem_classCopyMarkers hmarker

/-! ### Runs -/

/-- **The script without minifying** is a header and the lines of its plan, or nothing. -/
theorem script_compile_unminified (s : Session) (v : Vocabulary) (options : Options) :
    (s.compile v { options with minify := false }).script
      = if (s.registry v).references.toList = [] ∧ (s.registry v).classCopies.toList = [] then ""
        else Script.headerText options.header? ++ String.join
          ((Script.bodyLines (Script.Plan.ofRegistry (s.registry v))).map Script.Line.render) := by
  rw [script_compile]
  show Script.text (Script.Plan.ofRegistry (s.registry v)) options.header? = _
  split
  · next hempty =>
    exact Script.text_of_isEmpty ((Script.isEmpty_ofRegistry _).mpr hempty) _
  · next hempty =>
    rw [← Script.isEmpty_ofRegistry, Bool.not_eq_true] at hempty
    exact Script.text_eq hempty _

/-- There is a script just if there is something to do, minified or not. -/
theorem script_compile_eq_empty_iff (s : Session) (v : Vocabulary) (options : Options) :
    (s.compile v options).script = "" ↔
      (s.registry v).references.toList = [] ∧ (s.registry v).classCopies.toList = [] := by
  rw [← Script.isEmpty_ofRegistry, script_compile]
  split
  · exact Script.minify_text_eq_empty_iff _ _
  · exact Script.text_eq_empty_iff _ _

/-- **The script of a run serves its style sheet.** For every vocabulary, all options and all source
texts: the registry lists the references that were registered while the tokens were read, and these
are the references that were replaced in the values of the rules of the sheet, and no others; the
script without minifying is a header and lines that serve them, function by function; and it is
empty, minified or not, just if there are neither references nor markers of class copies. -/
theorem run_serves_sheet (v : Vocabulary) (options : Options) (sources : List String) :
    let s := sources.foldl scan ∅
    let references := (s.registry v).references.toList
    let copies := (s.registry v).classCopies.toList
    let body := Script.bodyLines (Script.Plan.ofRegistry (s.registry v))
    let output := run v { options with minify := false } sources
    -- The references are those that were replaced in the rules of the sheet.
    output.css = (s.sheet v).text options.header? ∧
    (s.sheet v).rules.Perm (s.addedRules v) ∧
    (∀ rule ∈ s.addedRules v, rule.value.ReadFrom v.theme rule.token.toList) ∧
    references = (s.tokens.toList.flatMap fun t => (v.read t).references).eraseDups ∧
    references = ((s.addedRules v).flatMap fun rule => rule.value.references).eraseDups ∧
    copies = (sources.flatMap classCopyMarkers).eraseDups ∧
    -- The script does what they ask for.
    Script.Serves references copies body ∧
    lines (String.join (body.map Script.Line.render)).toList = body.map Script.Line.chars ∧
    output.script
      = (if references = [] ∧ copies = [] then ""
        else Script.headerText options.header? ++ String.join (body.map Script.Line.render)) ∧
    ((run v options sources).script = "" ↔
      references = [] ∧ ∀ source ∈ sources, classCopyMarkers source = []) := by
  intro s references copies body output
  have hs : s.references = ∅ := references_scanAll sources
  have hgathered : copies = s.classCopies.toList :=
    congrArg FirstSeen.toList (classCopies_registry s v)
  have hcopies : copies = (sources.flatMap classCopyMarkers).eraseDups := by
    rw [hgathered, classCopies_scanAll, FirstSeen.toList_ofList]
  -- What is filled into the script was read as a name, in references and in markers alike.
  have hreferences : ∀ r ∈ references, r.Named := fun r hr => named_of_mem_references hs v hr
  have hnames : ∀ id ∈ copies, Script.IsName id :=
    fun id hid => isName_of_mem_classCopies (hgathered ▸ hid)
  have hplan : (Script.Plan.ofRegistry (s.registry v)).Named :=
    Script.named_ofRegistry hreferences hnames
  have houtput : output = s.compile v { options with minify := false } := run_eq_compile v _ _
  refine ⟨?_, rules_sheet_perm s v, fun rule => readFrom_of_mem_addedRules,
    references_registry_eq_registered hs v, references_registry hs v, hcopies,
    Script.serves_bodyLines hreferences hnames,
    Script.lines_join_render (Script.single_of_mem_bodyLines hplan), ?_, ?_⟩
  · rw [houtput]
    rfl
  · rw [houtput]
    exact script_compile_unminified s v options
  · -- There are no copies just if no text has a marker.
    have hmarkers : copies = [] ↔ ∀ source ∈ sources, classCopyMarkers source = [] := by
      rw [hcopies, FirstSeen.eraseDups_eq_nil_iff, List.flatMap_eq_nil_iff]
    rw [← hmarkers, run_eq_compile]
    exact script_compile_eq_empty_iff s v options

/-- An element that is read and copied is looked up twice, once for each of the two. -/
theorem shared_element_is_looked_up_twice :
    let v : Vocabulary := ⟨Table.ofList [("w", .single "width")], ∅, ∅⟩
    let source := "<p class='w[#box:width + 1px] #box.classes'>"
    let body := Script.bodyLines (Script.Plan.ofRegistry (((∅ : Session).scan source).registry v))
    (run v ⟨false, false, ""⟩ [source]).script = String.join (body.map Script.Line.render) ∧
      body.countP (Script.Line.looksUp "box") = 2 ∧
      (Script.functionLines "updateVariables" body).countP (Script.Line.looksUp "box") = 1 ∧
      (Script.functionLines "copyClasses" body).countP (Script.Line.looksUp "box") = 1 := by
  intro v source body
  have hregistry : (((∅ : Session).scan source).registry v).references.toList = [⟨"box", "width"⟩] ∧
      (((∅ : Session).scan source).registry v).classCopies.toList = ["box"] := by
    decide +kernel
  obtain ⟨hreferences, hcopies⟩ := hregistry
  -- The script is too long to be evaluated; what it serves says how often it looks the id up.
  have hserves : Script.Serves [⟨"box", "width"⟩] ["box"] body := by
    have h := Script.serves_bodyLines (r := ((∅ : Session).scan source).registry v)
      (fun r hr => named_of_mem_references (references_scanAll [source]) v hr)
      (by rw [hcopies]; decide)
    rwa [hreferences, hcopies] at h
  have hread : (Script.functionLines "updateVariables" body).countP (Script.Line.looksUp "box")
      = 1 := by
    rw [hserves.lookups]
    decide
  have hcopied : (Script.functionLines "copyClasses" body).countP (Script.Line.looksUp "box")
      = 1 := by
    rw [hserves.copyLookups]
    decide
  refine ⟨?_, ?_, hread, hcopied⟩
  · have hscript := script_compile_unminified ((∅ : Session).scan source) v ⟨false, false, ""⟩
    rw [hreferences, if_neg (by simp)] at hscript
    rw [run_eq_compile]
    exact hscript.trans String.empty_append
  · rw [hserves.noOtherLookups, hread, hcopied]

end Session

end UtilityCss
