import UtilityCss.Proofs.Gathering
import Mathlib.Data.List.DropRight

/-!
# Passes of a session

A session is used for one pass after another: steps that gather, then one that compiles, and so on
with the next pass. Gathering, resetting and compiling can come in any order, and this file says
what a whole sequence of steps does. `Session.after` is the session behind a sequence and
`Session.outputs` lists what its steps give out.

A step either gathers, and then it only adds its yield (`perform_of_gathers`), or it ends the pass.
Compiling changes the session before it ends the pass, since reading tokens registers references and
reports problems, so that the next pass starts afresh is not a matter of course: it rests on the
reset at the end, which has to bring back every field (`reset_eq_empty`, `perform_of_not_gathers`).
By induction over the sequence the session is that of the steps which gathered since the last one
that did not (`after_eq_after_pending`), so

* `outputs_eq_fresh` — every output is that of a fresh session which was given only the
  steps of its own pass;
* `compile_after_gathering` — a pass compiles the tokens that its steps yield, each once and at the
  place where it was met first, and a text that is scanned again adds nothing but its problems.
-/

namespace UtilityCss.Session

/-! ### Steps that gather -/

/-- Whether a step gathers. The other steps end the pass. -/
def Step.gathers : Step → Bool
  | .scan _ => true
  | .addClasses _ => true
  | .reset => false
  | .compile => false
  | .run _ => false

/-- **What a step gathers.** -/
def Step.yield : Step → Yield
  | .scan source => .ofSource source
  | .addClasses value => .ofClasses value
  | .reset => .nothing
  | .compile => .nothing
  | .run _ => .nothing

/-- The tokens that a step yields are stored as they are. -/
theorem Step.isStored_of_mem_yield {step : Step} {token : String}
    (h : token ∈ step.yield.tokens) : IsStored token := by
  cases step with
  | scan source => exact Yield.isStored_of_mem_ofSource h
  | addClasses value => exact isStored_of_mem_tokens h
  | reset => exact absurd h List.not_mem_nil
  | compile => exact absurd h List.not_mem_nil
  | run sources => exact absurd h List.not_mem_nil

section Steps

variable (v : Vocabulary) (options : Options)

/-- A step that gathers takes in its yield and gives nothing out. -/
theorem perform_of_gathers {step : Step} (h : step.gathers = true) (s : Session) :
    s.perform v options step = (s.absorb step.yield, none) := by
  cases step with
  | scan source => exact congrArg (·, none) (s.scan_eq_absorb source)
  | addClasses value => exact congrArg (·, none) (s.addClasses_eq_absorb value)
  | reset => exact Bool.noConfusion h
  | compile => exact Bool.noConfusion h
  | run sources => exact Bool.noConfusion h

/-- Compiling leaves nothing behind, neither of what was gathered nor of what reading the tokens
added to it. -/
theorem fst_finish (s : Session) : (s.finish v options).1 = ∅ := by
  show reset { (s.readTokens v).1 with diagnostics := [] } = ∅
  exact reset_eq_empty _

/-- A run does not see what the session held before. -/
theorem runFrom_eq_runFrom_empty (s : Session) (sources : List String) :
    s.runFrom v options sources = (∅ : Session).runFrom v options sources := by
  rw [runFrom, runFrom, reset_eq_empty, reset_eq_empty]

/-- A step that does not gather leaves nothing behind. -/
theorem perform_of_not_gathers {step : Step} (h : step.gathers = false) (s : Session) :
    (s.perform v options step).1 = ∅ := by
  cases step with
  | scan source => exact Bool.noConfusion h
  | addClasses value => exact Bool.noConfusion h
  | reset => exact s.reset_eq_empty
  | compile => exact s.fst_finish v options
  | run sources => exact fst_finish v options (sources.foldl scan s.reset)

/-! ### Sequences of steps -/

/-- The session after a sequence of steps. -/
def after (s : Session) (steps : List Step) : Session :=
  steps.foldl (fun s step => (s.perform v options step).1) s

/-- **The outputs of a sequence of steps**, one entry for each step. -/
def outputs : Session → List Step → List (Option Output)
  | _, [] => []
  | s, step :: steps =>
    (s.perform v options step).2 :: outputs (s.perform v options step).1 steps

/-- **The steps of the current pass**: those since the last step that did not gather. -/
def pending (steps : List Step) : List Step := steps.rtakeWhile Step.gathers

theorem after_append (s : Session) (xs ys : List Step) :
    after v options s (xs ++ ys) = after v options (after v options s xs) ys :=
  List.foldl_append

/-- What a step gives out depends on the session that the steps before it left. -/
theorem getElem?_outputs (s : Session) (steps : List Step) (i : Nat) :
    (outputs v options s steps)[i]?
      = steps[i]?.map fun step =>
          ((after v options s (steps.take i)).perform v options step).2 := by
  -- The session goes on from step to step, so it is any session.
  induction steps generalizing s i with
  | nil => rfl
  | cons step steps ih =>
    cases i with
    | zero => rfl
    | succ i => exact ih (s.perform v options step).1 i

/-- **Only the current pass counts.** -/
theorem after_eq_after_pending (steps : List Step) :
    after v options ∅ steps = after v options ∅ (pending steps) := by
  -- The last step decides, so the induction takes it off.
  induction steps using List.reverseRecOn with
  | nil => rfl
  | append_singleton steps step ih =>
    by_cases h : step.gathers = true
    · -- A step that gathers adds to the session of the pass so far.
      rw [pending, List.rtakeWhile_concat_pos _ _ _ h, after_append, after_append, ih]
      rfl
    · -- Any other step ends the pass, and no step is pending behind it.
      rw [pending, List.rtakeWhile_concat_neg _ _ _ h, after_append]
      exact perform_of_not_gathers v options (Bool.eq_false_iff.mpr h) _

theorem after_of_gathers {steps : List Step} (h : ∀ step ∈ steps, step.gathers = true)
    (s : Session) : after v options s steps = s.absorb (.all Step.yield steps) :=
  foldl_absorb
    (fun step hstep s => congrArg Prod.fst (perform_of_gathers v options (h step hstep) s)) s

/-- **No reference outlives the pass that registered it.** Between two steps there is none. -/
theorem references_after (steps : List Step) : (after v options ∅ steps).references = ∅ := by
  induction steps using List.reverseRecOn with
  | nil => rfl
  | append_singleton steps step ih =>
    rw [after_append]
    show ((after v options ∅ steps).perform v options step).1.references = ∅
    by_cases h : step.gathers = true
    · -- Gathering leaves the references as they are.
      rw [perform_of_gathers v options h]
      exact ih
    · rw [perform_of_not_gathers v options (Bool.eq_false_iff.mpr h)]
      rfl

/-- A run is a pass that scans its texts. -/
theorem run_eq_compile_after (sources : List String) :
    run v options sources = (after v options ∅ (sources.map .scan)).compile v options := by
  rw [run_eq_compile, after, List.foldl_map]
  rfl

/-- **Passes do not leak into each other.** In every sequence of steps, the output of a step that
compiles is that of a fresh session given only the steps of the current pass, a run gives out what a
run of a fresh session gives out, and the other steps give nothing out. A run of a fresh session is
a pass that scans its texts. The steps that end a pass leave the session as it was at its start,
whatever it held before them: its tokens, references, class copies, problems and texts. -/
theorem outputs_eq_fresh (steps : List Step) (i : Nat) :
    ((outputs v options ∅ steps)[i]? = steps[i]?.map fun
      | .compile => some ((after v options ∅ (pending (steps.take i))).compile v options)
      | .run sources => some (run v options sources)
      | .scan _ => none
      | .addClasses _ => none
      | .reset => none) ∧
    (∀ sources, run v options sources
      = (after v options ∅ (sources.map .scan)).compile v options) ∧
    ∀ s : Session, (s.perform v options .reset).1 = ⟨∅, ∅, ∅, [], 0⟩ ∧
      (s.perform v options .compile).1 = ⟨∅, ∅, ∅, [], 0⟩ ∧
      ∀ sources, (s.perform v options (.run sources)).1 = ⟨∅, ∅, ∅, [], 0⟩ := by
  refine ⟨?_, run_eq_compile_after v options, fun s => ⟨?_, ?_, fun sources => ?_⟩⟩
  · rw [getElem?_outputs, after_eq_after_pending]
    congr 1
    -- Only the steps that give something out look at the session.
    funext step
    cases step with
    | scan source => rfl
    | addClasses value => rfl
    | reset => rfl
    | compile => rfl
    | run sources => exact congrArg (some ·.2) (runFrom_eq_runFrom_empty v options _ sources)
  · exact perform_of_not_gathers v options rfl s
  · exact perform_of_not_gathers v options rfl s
  · exact perform_of_not_gathers v options rfl s

/-! ### What a pass compiles -/

section Gathered

variable {steps front back : List Step} {source : String}

/-- The tokens of a pass are those that its steps yield, each at its first place. -/
theorem tokens_after (h : ∀ step ∈ steps, step.gathers = true) :
    (after v options ∅ steps).tokens.toList
      = (steps.flatMap fun step => step.yield.tokens).eraseDups := by
  rw [after_of_gathers v options h, tokens_absorb]
  rfl

/-- The problems of a pass before its tokens are read are those of its steps. -/
theorem diagnostics_after (h : ∀ step ∈ steps, step.gathers = true) :
    (after v options ∅ steps).diagnostics
      = steps.flatMap fun step => step.yield.diagnostics := by
  rw [after_of_gathers v options h]
  rfl

/-- The problems of a pass: those of its steps, then those of its tokens. -/
theorem diagnostics_compile_after (h : ∀ step ∈ steps, step.gathers = true) :
    ((after v options ∅ steps).compile v options).diagnostics
      = (steps.flatMap fun step => step.yield.diagnostics)
        ++ (after v options ∅ steps).tokens.toList.flatMap fun t => (v.read t).diagnostics := by
  rw [diagnostics_compile, diagnostics_after v options h]

/-- A text that was scanned already brings no new tokens and no new class copies. -/
theorem absorb_ofSource_of_scanned (hfront : ∀ step ∈ front, step.gathers = true)
    (hscanned : .scan source ∈ front) :
    (after v options ∅ front).absorb (.ofSource source)
      = { after v options ∅ front with
          diagnostics := (after v options ∅ front).diagnostics
            ++ (Yield.ofSource source).diagnostics
          sources := (after v options ∅ front).sources + 1 } := by
  rw [after_of_gathers v options hfront]
  -- Whatever the text yields was yielded when it was scanned before.
  apply absorb_of_known
  · exact fun t ht => FirstSeen.mem_ofList.mpr (List.mem_flatMap.mpr ⟨_, hscanned, ht⟩)
  · exact fun id hid => FirstSeen.mem_ofList.mpr (List.mem_flatMap.mpr ⟨_, hscanned, hid⟩)

/-- The session of a pass in which a text is scanned again differs in its problems and in the number
of texts only. -/
theorem after_scan_again (hfront : ∀ step ∈ front, step.gathers = true)
    (hback : ∀ step ∈ back, step.gathers = true) (hscanned : .scan source ∈ front) :
    after v options ∅ (front ++ .scan source :: back)
      = { after v options ∅ (front ++ back) with
          diagnostics := (after v options ∅ front).diagnostics
            ++ (Yield.ofSource source).diagnostics
            ++ back.flatMap fun step => step.yield.diagnostics
          sources := (after v options ∅ (front ++ back)).sources + 1 } := by
  have honce : after v options ∅ (front ++ back)
      = (after v options ∅ front).absorb (.all Step.yield back) := by
    rw [after_append, after_of_gathers v options hback]
  have hagain : after v options ∅ (front ++ .scan source :: back)
      = ((after v options ∅ front).absorb (.ofSource source)).absorb (.all Step.yield back) := by
    rw [after_append, ← scan_eq_absorb, ← after_of_gathers v options hback]
    rfl
  rw [hagain, honce, absorb_ofSource_of_scanned v options hfront hscanned]
  -- The steps behind the scan add the same to both sessions.
  simp only [absorb, mk.injEq, true_and]
  exact ⟨rfl, Nat.add_right_comm _ _ _⟩

/-- **Scanning a text again** counts the text and repeats its problems. Nothing else changes,
wherever in the pass this happens. -/
theorem compile_after_scan_again (hfront : ∀ step ∈ front, step.gathers = true)
    (hback : ∀ step ∈ back, step.gathers = true) (hscanned : .scan source ∈ front) :
    let once := (after v options ∅ (front ++ back)).compile v options
    let again := (after v options ∅ (front ++ .scan source :: back)).compile v options
    again.css = once.css ∧ again.script = once.script ∧
      again.diagnostics = (front.flatMap fun step => step.yield.diagnostics)
        ++ (Yield.ofSource source).diagnostics
        ++ (back.flatMap fun step => step.yield.diagnostics)
        ++ (after v options ∅ (front ++ back)).tokens.toList.flatMap
          (fun t => (v.read t).diagnostics) ∧
      again.stats = { once.stats with
        filesScanned := once.stats.filesScanned + 1
        diagnosticCount := again.diagnostics.length } := by
  intro once again
  have hsession := after_scan_again v options hfront hback hscanned
  obtain ⟨hcss, hscript, hstats⟩ := compile_of_same (s := after v options ∅ (front ++ back))
    (t := after v options ∅ (front ++ .scan source :: back)) (by rw [hsession])
    (by rw [hsession]) (by rw [hsession]) v options
  refine ⟨hcss, hscript, ?_, ?_⟩
  · show ((after v options ∅ (front ++ .scan source :: back)).compile v options).diagnostics = _
    rw [diagnostics_compile, hsession, diagnostics_after v options hfront]
  · have hscanned : once.stats.filesScanned = (after v options ∅ (front ++ back)).sources :=
      congrArg Stats.filesScanned (stats_compile _ v options)
    rw [congrArg sources hsession, ← hscanned] at hstats
    exact hstats

/-- **What a pass compiles.** The tokens are those that the steps yield, each at its first place:
for a text, attribute by attribute, those of the elements that the attribute asks for and then its
own. The style sheet is made by adding each of them once, in this order. -/
theorem compile_after_gathering (h : ∀ step ∈ steps, step.gathers = true) :
    let s := after v options ∅ steps
    let tokens := (steps.flatMap fun step => step.yield.tokens).eraseDups
    let sheet := StyleSheet.ofTokens (tokens.map fun t => (t, (v.read t).meaning))
    let css := sheet.text options.header?
    s.tokens.toList = tokens ∧ tokens.Nodup ∧ (∀ t ∈ tokens, t ≠ "" ∧ trimToken t = t) ∧
    -- The rules of the sheet are those of the tokens.
    (s.compile v options).css = (if options.minify then Sheet.minify css else css) ∧
    sheet.base = tokens.flatMap (fun t => (v.read t).meaning.baseRules t) ∧
    (∀ condition, sheet.rulesUnder condition
      = Table.group condition (tokens.flatMap fun t => (v.read t).meaning.mediaRules t)) ∧
    -- A text that is scanned again repeats its problems.
    ∀ front back source, steps = front ++ back → .scan source ∈ front →
      let once := s.compile v options
      let again := (after v options ∅ (front ++ .scan source :: back)).compile v options
      let problems := fun step : Step => step.yield.diagnostics
      let problemsOfTokens := tokens.flatMap fun t => (v.read t).diagnostics
      again.css = once.css ∧ again.script = once.script ∧
        once.diagnostics = front.flatMap problems ++ back.flatMap problems ++ problemsOfTokens ∧
        again.diagnostics = front.flatMap problems ++ (Yield.ofSource source).diagnostics
          ++ back.flatMap problems ++ problemsOfTokens ∧
        again.stats = { once.stats with
          filesScanned := once.stats.filesScanned + 1
          diagnosticCount := again.diagnostics.length } := by
  intro s tokens sheet css
  have htokens : s.tokens.toList = tokens := tokens_after v options h
  refine ⟨htokens, FirstSeen.nodup_eraseDups _, ?_, ?_, ?_, ?_, ?_⟩
  · intro t ht
    obtain ⟨step, -, hstep⟩ := List.mem_flatMap.mp (List.mem_eraseDups.mp ht)
    have hstored := Step.isStored_of_mem_yield hstep
    exact ⟨hstored.ne_empty, hstored.trimmed⟩
  · have hsheet : s.sheet v = sheet := by rw [sheet_eq_ofTokens, htokens]
    rw [css_compile, hsheet]
  · rw [StyleSheet.base_ofTokens, StyleSheet.baseRulesOf, List.flatMap_map]
  · intro condition
    rw [StyleSheet.rulesUnder_ofTokens, StyleSheet.mediaRulesOf, List.flatMap_map]
  · rintro front back source rfl hscanned once again problems problemsOfTokens
    obtain ⟨hfront, hback⟩ := List.forall_mem_append.mp h
    obtain ⟨hcss, hscript, hproblems, hstats⟩ :=
      compile_after_scan_again v options hfront hback hscanned
    refine ⟨hcss, hscript, ?_, ?_, hstats⟩
    · show ((after v options ∅ (front ++ back)).compile v options).diagnostics = _
      rw [diagnostics_compile_after v options h, htokens, List.flatMap_append]
    · rw [htokens] at hproblems
      exact hproblems

end Gathered

end Steps

/-- A text with two markers. The token of the element that is found comes before the token of the
attribute that asks for it, and stands in the sheet once; the element that is not found is reported
at each scan. -/
theorem scan_twice_reports_twice :
    let v : Vocabulary := ⟨Table.ofList [("w", .single "width"), ("h", .single "height")], ∅, ∅⟩
    let options : Options := ⟨false, false, ""⟩
    let source := "<p class='w[1px] #box.classes #ghost.classes'><i id='box' class='h[2px]'>"
    let once := (after v options ∅ [.scan source]).compile v options
    let again := (after v options ∅ [.scan source, .scan source]).compile v options
    (∀ step ∈ [Step.scan source], step.gathers = true) ∧
      (after v options ∅ [.scan source]).tokens.toList = ["h[2px]", "w[1px]"] ∧
      again.css = once.css ∧ again.script = once.script ∧
      once.diagnostics = [.unresolvedElement "ghost"] ∧
      again.diagnostics = [.unresolvedElement "ghost", .unresolvedElement "ghost"] := by
  intro v options source once again
  have hgathers : ∀ step ∈ [Step.scan source], step.gathers = true := by decide
  obtain ⟨htokens, -, -, -, -, -, hscan⟩ := compile_after_gathering v options hgathers
  obtain ⟨hcss, hscript, honce, hagain, -⟩ :=
    hscan [.scan source] [] source rfl (List.mem_singleton.mpr rfl)
  refine ⟨hgathers, htokens.trans ?_, hcss, hscript, honce.trans ?_, hagain.trans ?_⟩
  · decide +kernel
  · decide +kernel
  · decide +kernel

end UtilityCss.Session
