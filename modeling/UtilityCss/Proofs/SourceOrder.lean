import UtilityCss.Proofs.Gathering
import UtilityCss.Proofs.ScriptPlan
import Mathlib.Data.List.Perm.Basic

/-!
# The order of source texts

The texts of a run come in some order, and the order shows: a token stands where it was first met,
and so do media blocks, bindings and class copies. This file says that nothing else depends on it.
Each kind of data gets a relation `Reorders`, which holds if two values differ in the order of their
parts alone, and every stage of a compilation keeps it:

* `Session.reorders_foldl_scan` — texts in another order gather the same, up to order;
* `StyleSheet.reorders_ofTokens` and `Script.Plan.reorders_ofRegistry` — tokens and references in
  another order make the same style sheet and the same script, up to order;
* `StyleSheet.Reorders.utf8ByteSize_text` and `Script.utf8ByteSize_text_ofRegistry` — the texts that
  are written have the same size.
-/

namespace UtilityCss

/-! ### Sizes of joined texts -/

/-- The size of joined texts does not depend on their order. -/
theorem utf8ByteSize_join_perm {xs ys : List String} (h : xs.Perm ys) :
    (String.join xs).utf8ByteSize = (String.join ys).utf8ByteSize := by
  induction h with
  | nil => rfl
  | cons text _ ih => simp only [String.join_cons, String.utf8ByteSize_append, ih]
  | swap first second texts =>
    simp only [String.join_cons, String.utf8ByteSize_append]
    omega
  | trans _ _ ih ih' => exact ih.trans ih'

/-- The size of joined texts does not depend on anything but their sizes. -/
theorem utf8ByteSize_join_map_congr {α : Type} {f g : α → String}
    (h : ∀ a, (f a).utf8ByteSize = (g a).utf8ByteSize) (items : List α) :
    (String.join (items.map f)).utf8ByteSize = (String.join (items.map g)).utf8ByteSize := by
  induction items with
  | nil => rfl
  | cons a items ih =>
    simp only [List.map_cons, String.join_cons, String.utf8ByteSize_append, h, ih]

/-! ### Style sheets -/

namespace StyleSheet

/-- **Style sheets that differ in the order of their rules and conditions alone.** -/
structure Reorders (sheet sheet' : StyleSheet) : Prop where
  base : sheet.base.Perm sheet'.base
  conditions : sheet.conditions.Perm sheet'.conditions
  rulesUnder : ∀ condition, (sheet.rulesUnder condition).Perm (sheet'.rulesUnder condition)

/-- Tokens in another order make the same style sheet up to order. -/
theorem reorders_ofTokens {calls calls' : List (String × Meaning)} (h : calls.Perm calls') :
    (ofTokens calls).Reorders (ofTokens calls') where
  base := by
    rw [base_ofTokens, base_ofTokens]
    exact h.flatMap_right _
  conditions := by
    -- Which conditions there are does not depend on the order, and none is listed twice.
    rw [conditions_ofTokens, conditions_ofTokens]
    exact FirstSeen.eraseDups_perm ((h.flatMap_right _).map _)
  rulesUnder := by
    intro condition
    rw [rulesUnder_ofTokens, rulesUnder_ofTokens]
    exact Table.group_perm condition (h.flatMap_right _)

/-- A style sheet is given by its conditions and the rules under each. -/
theorem media_entries_eq (sheet : StyleSheet) :
    sheet.media.entries
      = sheet.conditions.map fun condition => (condition, sheet.rulesUnder condition) :=
  Table.entries_eq_map_keys sheet.media []

/-- The text of a sheet is a layout of blocks, one for each condition. -/
theorem text_eq_layOut (sheet : StyleSheet) (timestamp : Option String) :
    sheet.text timestamp
      = layOut ((timestamp.map header).getD "" ++ baseText sheet.base)
          (sheet.conditions.map fun condition => block condition (sheet.rulesUnder condition)) := by
  rw [text, foldl_appendBlock, media_entries_eq, List.map_map]
  rfl

/-- The size of a layout. Every block brings a line end along, except one that opens the text. -/
theorem utf8ByteSize_layOut (front : String) (blocks : List String) :
    (layOut front blocks).utf8ByteSize
      = if front.utf8ByteSize = 0
        then (String.join (blocks.map fun block => "\n" ++ block)).utf8ByteSize - 1
        else front.utf8ByteSize
          + (String.join (blocks.map fun block => "\n" ++ block)).utf8ByteSize := by
  unfold layOut
  -- Without a front the first block opens the text, and its line end is missing.
  by_cases h : front = ""
  · rw [if_pos h, if_pos (String.utf8ByteSize_eq_zero_iff.mpr h)]
    cases blocks with
    | nil => rfl
    | cons first blocks =>
      have hend : "\n".utf8ByteSize = 1 := rfl
      -- The join has one line end more, namely that before the first block.
      rw [intercalate_cons_eq_join, List.map_cons, String.join_cons]
      simp only [String.utf8ByteSize_append, hend]
      omega
  · rw [if_neg h, if_neg (fun hsize => h (String.utf8ByteSize_eq_zero_iff.mp hsize)),
      String.utf8ByteSize_append]

/-- The size of a block does not depend on the order of its rules. -/
theorem utf8ByteSize_block_perm (condition : String) {rules rules' : List Rule}
    (h : rules.Perm rules') :
    (block condition rules).utf8ByteSize = (block condition rules').utf8ByteSize := by
  simp only [block, String.utf8ByteSize_append, utf8ByteSize_join_perm (h.map _)]

namespace Reorders

variable {sheet sheet' : StyleSheet}

/-- **The size of a style sheet does not depend on the order of its rules.** -/
theorem utf8ByteSize_text (h : sheet.Reorders sheet') (timestamp : Option String) :
    (sheet.text timestamp).utf8ByteSize = (sheet'.text timestamp).utf8ByteSize := by
  have hfront : ((timestamp.map header).getD "" ++ baseText sheet.base).utf8ByteSize
      = ((timestamp.map header).getD "" ++ baseText sheet'.base).utf8ByteSize := by
    simp only [baseText, String.utf8ByteSize_append, utf8ByteSize_join_perm (h.base.map _)]
  -- The blocks change places, and the rules within a block do.
  have hblocks : (String.join (sheet.conditions.map fun condition =>
        "\n" ++ block condition (sheet.rulesUnder condition))).utf8ByteSize
      = (String.join (sheet'.conditions.map fun condition =>
        "\n" ++ block condition (sheet'.rulesUnder condition))).utf8ByteSize := by
    rw [utf8ByteSize_join_perm (h.conditions.map _)]
    refine utf8ByteSize_join_map_congr (fun condition => ?_) _
    rw [String.utf8ByteSize_append, String.utf8ByteSize_append,
      utf8ByteSize_block_perm condition (h.rulesUnder condition)]
  simp only [text_eq_layOut, utf8ByteSize_layOut, hfront, List.map_map, Function.comp_def, hblocks]

end Reorders

/-- The counter of a sheet does not depend on the order of the tokens. -/
theorem ruleCount_ofTokens_perm {calls calls' : List (String × Meaning)} (h : calls.Perm calls') :
    (ofTokens calls).ruleCount = (ofTokens calls').ruleCount := by
  have hbase : (baseRulesOf calls).Perm (baseRulesOf calls') := h.flatMap_right _
  have hmedia : (mediaRulesOf calls).Perm (mediaRulesOf calls') := h.flatMap_right _
  -- The counter has the lengths of two lists that are only reordered.
  rw [ruleCount_ofTokens, ruleCount_ofTokens, hbase.length_eq, hmedia.length_eq]

end StyleSheet

/-! ### Scripts -/

namespace Script

/-- **Plans that differ in the order of their bindings and class copies alone.** -/
structure Plan.Reorders (p q : Plan) : Prop where
  bindings : p.bindings.Perm q.bindings
  classCopies : p.classCopies.Perm q.classCopies

theorem elementsOf_perm {xs ys : List Reference} (h : xs.Perm ys) :
    (elementsOf xs).Perm (elementsOf ys) :=
  FirstSeen.eraseDups_perm (h.map _)

theorem propertiesOf_perm {xs ys : List Reference} (h : xs.Perm ys) (id : String) :
    (propertiesOf xs id).Perm (propertiesOf ys id) :=
  (h.filter _).map _

section Registries

variable {r r' : Registry} (hreferences : r.references.toList.Perm r'.references.toList)
  (hcopies : r.classCopies.toList.Perm r'.classCopies.toList)

include hreferences

/-- The opening of a script depends on whether there are references, and not on which. -/
theorem openingLines_ofRegistry :
    openingLines (Plan.ofRegistry r) = openingLines (Plan.ofRegistry r') := by
  rw [openingLines, openingLines, rootLines, rootLines, geometry_ofRegistry, geometry_ofRegistry,
    List.isEmpty_map, List.isEmpty_map, (elementsOf_perm hreferences).isEmpty_eq]

include hcopies

/-- References in another order make the same plan up to order. -/
theorem Plan.reorders_ofRegistry : (ofRegistry r).Reorders (ofRegistry r') where
  bindings := (bindings_ofRegistry_perm r).trans
    (hreferences.trans (bindings_ofRegistry_perm r').symm)
  classCopies := hcopies

/-- A script has the same lines, whatever the order of the references. -/
theorem bodyLines_ofRegistry_perm :
    (bodyLines (Plan.ofRegistry r)).Perm (bodyLines (Plan.ofRegistry r')) := by
  have hgeometry : ((Plan.ofRegistry r).geometry.flatMap bindingLines).Perm
      ((Plan.ofRegistry r').geometry.flatMap bindingLines) := by
    rw [geometry_ofRegistry, geometry_ofRegistry, List.flatMap_map, List.flatMap_map]
    -- The blocks change places, and the lines within a block that set properties do.
    refine (elementsOf_perm hreferences).flatMap fun id _ => ?_
    exact (((propertiesOf_perm hreferences id).map _).append_left _).append_right _
  have hclasses : ((Plan.ofRegistry r).classCopies.flatMap classCopyLines).Perm
      ((Plan.ofRegistry r').classCopies.flatMap classCopyLines) := hcopies.flatMap_right _
  -- The fixed lines stay where they are.
  rw [bodyLines_eq, bodyLines_eq, openingLines_ofRegistry hreferences]
  exact (hgeometry.append_left _).append ((hclasses.append_left _).append_right _)

/-- **The size of a script does not depend on the order of its bindings.** -/
theorem utf8ByteSize_text_ofRegistry (timestamp : Option String) :
    (text (Plan.ofRegistry r) timestamp).utf8ByteSize
      = (text (Plan.ofRegistry r') timestamp).utf8ByteSize := by
  -- Both plans have something to do, or neither has.
  have hempty : (Plan.ofRegistry r).isEmpty = (Plan.ofRegistry r').isEmpty := by
    rw [Bool.eq_iff_iff, isEmpty_ofRegistry, isEmpty_ofRegistry]
    rw [← List.isEmpty_iff, ← List.isEmpty_iff, hreferences.isEmpty_eq, hcopies.isEmpty_eq,
      List.isEmpty_iff, List.isEmpty_iff]
  refine utf8ByteSize_join_perm (List.Perm.map _ ?_)
  -- The header is the same, and the lines behind it are reordered.
  rw [scriptLines, scriptLines, hempty]
  split
  · exact List.Perm.refl _
  · exact (bodyLines_ofRegistry_perm hreferences hcopies).append_left _

end Registries

end Script

/-! ### Sessions -/

namespace Session

/-- **Sessions that differ in the order of what was gathered alone.** -/
structure Reorders (s s' : Session) : Prop where
  tokens : s.tokens.toList.Perm s'.tokens.toList
  references : s.references.toList.Perm s'.references.toList
  classCopies : s.classCopies.toList.Perm s'.classCopies.toList
  diagnostics : s.diagnostics.Perm s'.diagnostics
  sources : s.sources = s'.sources

/-- **Texts in another order gather the same up to order.** -/
theorem reorders_foldl_scan {sources sources' : List String} (h : sources.Perm sources') :
    (sources.foldl scan ∅).Reorders (sources'.foldl scan ∅) := by
  rw [foldl_scan_eq_absorb, foldl_scan_eq_absorb]
  -- What a text yields does not depend on the texts before it, so the yields change places.
  constructor
  · rw [tokens_absorb, tokens_absorb]
    exact FirstSeen.eraseDups_perm (h.flatMap_right _)
  · exact List.Perm.refl _
  · rw [classCopies_absorb, classCopies_absorb]
    exact FirstSeen.eraseDups_perm (h.flatMap_right _)
  · exact h.flatMap_right _
  · exact congrArg (0 + ·) (h.flatMap_right _).length_eq

namespace Reorders

variable {s s' : Session} (h : s.Reorders s') (v : Vocabulary)

include h

/-- Sessions that differ in order alone have style sheets that do. -/
theorem sheet : (s.sheet v).Reorders (s'.sheet v) := by
  rw [sheet_eq_ofTokens, sheet_eq_ofTokens]
  exact StyleSheet.reorders_ofTokens (h.tokens.map _)

/-- Sessions that differ in order alone count as many rules. -/
theorem ruleCount_sheet : (s.sheet v).ruleCount = (s'.sheet v).ruleCount := by
  rw [sheet_eq_ofTokens, sheet_eq_ofTokens]
  exact StyleSheet.ruleCount_ofTokens_perm (h.tokens.map _)

/-- Sessions that differ in order alone register the same references. -/
theorem references_registry :
    (s.registry v).references.toList.Perm (s'.registry v).references.toList := by
  rw [registry_eq, registry_eq]
  -- Registering is inserting into a set, whose members do not depend on the order.
  exact FirstSeen.insertAll_perm h.references (h.tokens.flatMap_right _)

/-- Sessions that differ in order alone register the same class copies. -/
theorem classCopies_registry :
    (s.registry v).classCopies.toList.Perm (s'.registry v).classCopies.toList := by
  rw [registry_eq, registry_eq]
  exact h.classCopies

/-- Sessions that differ in order alone have plans that do. -/
theorem plan : (Script.Plan.ofRegistry (s.registry v)).Reorders
    (Script.Plan.ofRegistry (s'.registry v)) :=
  Script.Plan.reorders_ofRegistry (h.references_registry v) (h.classCopies_registry v)

/-- Sessions that differ in order alone report the same problems, each as often. -/
theorem diagnostics_compile (options : Options) :
    (s.compile v options).diagnostics.Perm (s'.compile v options).diagnostics := by
  rw [Session.diagnostics_compile, Session.diagnostics_compile]
  -- The problems of scanning come first, then those of the tokens.
  exact h.diagnostics.append (h.tokens.flatMap_right _)

/-- The figures of a compilation that does not minify are the same. -/
theorem stats_compile {options : Options} (hminify : options.minify = false) :
    (s.compile v options).stats = (s'.compile v options).stats := by
  -- Without minification the outputs are the texts of the sheet and of the plan.
  have hcss : (s.compile v options).css.utf8ByteSize = (s'.compile v options).css.utf8ByteSize := by
    rw [css_compile, css_compile, hminify]
    exact (h.sheet v).utf8ByteSize_text options.header?
  have hscript : (s.compile v options).script.utf8ByteSize
      = (s'.compile v options).script.utf8ByteSize := by
    rw [script_compile, script_compile, hminify]
    exact Script.utf8ByteSize_text_ofRegistry (h.references_registry v) (h.classCopies_registry v)
      options.header?
  -- Each of the figures is a length or a size of something that is only reordered.
  rw [Session.stats_compile, Session.stats_compile, Stats.mk.injEq]
  exact ⟨h.sources, h.tokens.length_eq, h.ruleCount_sheet v, (h.references_registry v).length_eq,
    (h.classCopies_registry v).length_eq, (h.diagnostics_compile v options).length_eq, hcss,
    hscript, rfl⟩

end Reorders

/-- **The order of texts matters for order alone.** Two runs over the same texts in different orders
write style sheets with the same rules under the same conditions and scripts with the same bindings
and class copies. They report the same problems, each as often, and their figures agree, the sizes
of the two texts among them. -/
theorem run_reorders (v : Vocabulary) (options : Options) {sources sources' : List String}
    (h : sources.Perm sources') :
    let options := { options with minify := false }
    let output := run v options sources
    let output' := run v options sources'
    let sheet := (sources.foldl scan ∅).sheet v
    let sheet' := (sources'.foldl scan ∅).sheet v
    let plan := Script.Plan.ofRegistry ((sources.foldl scan ∅).registry v)
    let plan' := Script.Plan.ofRegistry ((sources'.foldl scan ∅).registry v)
    output.css = sheet.text options.header? ∧ output'.css = sheet'.text options.header? ∧
      sheet.Reorders sheet' ∧
      output.script = Script.text plan options.header? ∧
      output'.script = Script.text plan' options.header? ∧
      plan.Reorders plan' ∧
      output.diagnostics.Perm output'.diagnostics ∧
      output.stats = output'.stats := by
  intro options output output' sheet sheet' plan plan'
  have hreorders := reorders_foldl_scan h
  -- A run scans the texts one after another and compiles what was gathered.
  have houtput : output = (sources.foldl scan ∅).compile v options := run_eq_compile v _ _
  have houtput' : output' = (sources'.foldl scan ∅).compile v options := run_eq_compile v _ _
  rw [houtput, houtput']
  exact ⟨rfl, rfl, hreorders.sheet v, rfl, rfl, hreorders.plan v,
    hreorders.diagnostics_compile v options, hreorders.stats_compile v rfl⟩

/-- Two texts the other way round: the style sheets and the problems differ, the figures do not. -/
theorem swapped_texts_keep_stats :
    let v : Vocabulary := ⟨Table.ofList [("w", .single "width")], ∅, ∅⟩
    let options : Options := ⟨false, false, ""⟩
    let first := "<p class='w[1px] #ghost.classes'>"
    let second := "<p class='w[#a:width] #spirit.classes'>"
    let output := run v options [first, second]
    let output' := run v options [second, first]
    [first, second].Perm [second, first] ∧
      output.css ≠ output'.css ∧ output.diagnostics ≠ output'.diagnostics ∧
      output.diagnostics.Perm output'.diagnostics ∧
      output.stats = output'.stats := by
  intro v options first second output output'
  have hperm : [first, second].Perm [second, first] := List.Perm.swap _ _ _
  obtain ⟨-, -, -, -, -, -, hdiagnostics, hstats⟩ := run_reorders v options hperm
  refine ⟨hperm, ?_, ?_, hdiagnostics, hstats⟩
  · -- Both orders are evaluated to see that the texts and the lists of problems are different.
    decide +kernel
  · decide +kernel

end Session

end UtilityCss
