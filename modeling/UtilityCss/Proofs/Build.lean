import UtilityCss.Project
import UtilityCss.Proofs.Saving

/-!
# What a build leaves behind

A build compiles the sources of a project and then publishes two texts: the style sheet is written
to its path, and the runtime script is written to another path or, if there is none, an old script
is removed from there. This file says what is at the two paths when a build has succeeded
(`build_leaves_outputs`).

The second path is always right: it holds the script, or nothing is there. The first one holds the
style sheet unless the two paths lead to the same place (`FileTree.SamePlace`), and nothing in a
configuration prevents that: a style sheet whose path ends in `.js` has its script at the same path,
and two different paths can be two ways to one file. Then the style sheet is lost, to the script or
together with the script that is not needed (`sheet_is_removed_as_stale_script`).
-/

namespace UtilityCss

namespace FileTree

/-- **Two paths lead to the same place**, at which a file can be. -/
def SamePlace (t : FileTree) (p q : Path) : Prop :=
  ∃ directory name, t.Names p directory name ∧ t.Names q directory name

/-- The place of a target. -/
def Target.place : Target → List String
  | member around name _ => around ++ [name]
  | directory place => place

theorem not_samePlace_of_place_ne {t : FileTree} {p q : Path}
    (h : (t.target p).toOption.map Target.place ≠ (t.target q).toOption.map Target.place) :
    ¬ t.SamePlace p q := by
  rintro ⟨directory, name, hp, hq⟩
  apply h
  rw [hp.target, hq.target]

/-- A file that was saved is found at its path. -/
theorem Saved.find {t t' : FileTree} {p : Path} {content : ByteArray} {directory : List String}
    {name : String} (h : t.Saved t' p content directory name) :
    t'.find p = .ok (.file content) :=
  h.names.find_eq_file_iff.mpr h.entryAt

theorem samePlace_iff {t : FileTree} {p q : Path} {directory directory' : List String}
    {name name' : String} (hp : t.Names p directory name) (hq : t.Names q directory' name') :
    t.SamePlace p q ↔ directory ++ [name] = directory' ++ [name'] := by
  constructor
  · -- A path names one place at most, so the common place is that of both.
    rintro ⟨common, file, hp', hq'⟩
    obtain ⟨rfl, rfl⟩ := hp.unique hp'
    obtain ⟨rfl, rfl⟩ := hq.unique hq'
    rfl
  · intro heq
    obtain ⟨rfl, hname⟩ := List.append_inj' heq rfl
    cases hname
    exact ⟨directory, name, hp, hq⟩

end FileTree

namespace Project

open FileTree

variable {t t' : FileTree} {css script : Path} {sheet text : String}

/-- What is at the first of two paths after files were saved at both. -/
theorem find_after_save_both (hsheet : (saveText css sheet).outcome t = (.ok (), t'))
    {t'' : FileTree} (htext : (saveText script text).outcome t' = (.ok (), t'')) :
    t''.find script = .ok (.file text.toUTF8) ∧
      (¬ t''.SamePlace css script → t''.find css = .ok (.file sheet.toUTF8)) ∧
      (t''.SamePlace css script → t''.find css = .ok (.file text.toUTF8)) := by
  obtain ⟨directory, name, hfirst⟩ := saved_of_save hsheet
  obtain ⟨directory', name', hsecond⟩ := saved_of_save htext
  have hnames : t''.Names css directory name := hsecond.keeps.names hfirst.names
  rw [samePlace_iff hnames hsecond.names, hnames.find_eq_file_iff, hnames.find_eq_file_iff]
  refine ⟨hsecond.find, ?_, ?_⟩
  · intro hne
    -- Saving the second file leaves other places alone, unless it makes a directory there.
    rcases hsecond.others _ hne with heq | ⟨hnone, -⟩
    · rw [heq, hfirst.entryAt]
    · rw [hfirst.entryAt] at hnone
      cases hnone
  · intro heq
    rw [heq, hsecond.entryAt]

/-- What is at the first of two paths after a file was saved there and one at the second path was
removed, if there was one. -/
theorem find_after_removeStale (hsheet : (saveText css sheet).outcome t = (.ok (), t'))
    {t'' : FileTree} (hstale : (removeStale script).outcome t' = (.ok (), t'')) :
    t''.contains script = false ∧
      (¬ t''.SamePlace css script → t''.find css = .ok (.file sheet.toUTF8)) ∧
      (t''.SamePlace css script → t''.contains css = false) := by
  obtain ⟨directory, name, hfirst⟩ := saved_of_save hsheet
  rw [removeStale, FileAction.outcome_change] at hstale
  split at hstale
  · next t₂ hremove =>
    cases hstale
    split at hremove
    · obtain ⟨directory', name', hnames', hold, hsets⟩ := sets_of_remove hremove
      -- A file was removed, so both paths still name their places.
      have hkeeps : t'.Keeps t'' := hsets.keeps hold
      have hcss : t''.Names css directory name := hkeeps.names hfirst.names
      have hscript : t''.Names script directory' name' := hkeeps.names hnames'
      rw [samePlace_iff hcss hscript, hcss.find_eq_file_iff, hcss.contains_eq, hscript.contains_eq,
        hsets.entryAt, hsets.entryAt, if_pos rfl]
      refine ⟨rfl, ?_, ?_⟩
      · intro hne
        rw [if_neg hne, hfirst.entryAt]
      · intro heq
        rw [if_pos heq]
        rfl
    · next hcontains =>
      -- The style sheet is at its own path, so this cannot be the path that is not occupied.
      cases hremove
      rw [Bool.not_eq_true] at hcontains
      refine ⟨hcontains, fun _ => hfirst.find, ?_⟩
      rintro ⟨common, file, hp, hq⟩
      rw [hp.contains_eq, ← hq.contains_eq, hcontains]
  · cases hstale

/-- A build that succeeds has compiled and published. -/
theorem publish_of_build {config : Config} {root : Path} {options : Options}
    {report : BuildReport} (h : (build config root options).outcome t = (.ok report, t')) :
    ∃ output, compile config root options t = .ok output ∧
      (publish config root output).outcome t = (.ok (), t') ∧
      report = Project.report config root output := by
  obtain ⟨output, t₁, hcompile, hrest⟩ := FileAction.outcome_bind_eq_ok_iff.mp h
  obtain ⟨⟨⟩, t₂, hpublish, hreport⟩ := FileAction.outcome_bind_eq_ok_iff.mp hrest
  -- Compiling looks at the tree and does not change it, and neither does the report.
  rw [FileAction.outcome_inspect] at hcompile
  rw [FileAction.outcome_mapError_eq_ok_iff] at hpublish
  rw [FileAction.outcome_pure] at hreport
  obtain ⟨houtput, rfl⟩ := Prod.mk.inj hcompile
  obtain ⟨hok, rfl⟩ := Prod.mk.inj hreport
  exact ⟨output, houtput, hpublish, (Except.ok.inj hok).symm⟩

/-- There is no script just if its text is empty. -/
theorem hasScript_eq_false_iff (output : Output) :
    output.hasScript = false ↔ output.script = "" := by
  simp [Output.hasScript]

/-- **What a build leaves behind.** If a build succeeds, the script is at its path, or nothing is
there if there is no script, and the report tells which. The style sheet is at its path, unless the
two paths lead to the same place: then there is what the second path asks for. -/
theorem build_leaves_outputs {config : Config} {root : Path} {options : Options}
    {report : BuildReport} (h : (build config root options).outcome t = (.ok report, t')) :
    ∃ output, compile config root options t = .ok output ∧
      let css := config.cssPath root
      let script := config.scriptPath root
      report.cssPath = css ∧
      report.scriptPath = (if output.script = "" then none else some script) ∧
      (output.script ≠ "" → t'.find script = .ok (.file output.script.toUTF8)) ∧
      (output.script = "" → t'.contains script = false) ∧
      (¬ t'.SamePlace css script → t'.find css = .ok (.file output.css.toUTF8)) ∧
      (t'.SamePlace css script →
        if output.script = "" then t'.contains css = false
        else t'.find css = .ok (.file output.script.toUTF8)) := by
  obtain ⟨output, hcompile, hpublish, rfl⟩ := publish_of_build h
  obtain ⟨⟨⟩, t₁, hsheet, hscript⟩ := FileAction.outcome_bind_eq_ok_iff.mp hpublish
  refine ⟨output, hcompile, rfl, ?_⟩
  -- Without a script an old one is removed; with one it is saved behind the style sheet.
  by_cases hempty : output.script = ""
  · have hnone : output.hasScript = false := (hasScript_eq_false_iff output).mpr hempty
    rw [hnone] at hscript
    obtain ⟨hgone, hother, hsame⟩ := find_after_removeStale hsheet hscript
    refine ⟨?_, fun hne => absurd hempty hne, fun _ => hgone, hother, ?_⟩
    · rw [report, hnone, if_pos hempty]
      rfl
    · rw [if_pos hempty]
      exact hsame
  · have hsome : output.hasScript = true := by
      rw [← Bool.not_eq_false, hasScript_eq_false_iff]
      exact hempty
    rw [hsome] at hscript
    obtain ⟨hthere, hother, hsame⟩ := find_after_save_both hsheet hscript
    refine ⟨?_, fun _ => hthere, fun hnone => absurd hnone hempty, hother, ?_⟩
    · rw [report, hsome, if_neg hempty]
      rfl
    · rw [if_neg hempty]
      exact hsame

/-- A page that refers to the width of an element, and outputs in a directory that is not there
yet. -/
theorem build_writes_both_outputs :
    let config : Config := { Config.standard with output := "out/a.css" }
    let options : Options := ⟨false, false, ""⟩
    let t : FileTree :=
      ⟨.directory (.cons "index.html" (.file "<p class='w[#box:width + 1px]'>".toUTF8) .nil), []⟩
    ∃ report t' output, (build config ⟨"."⟩ options).outcome t = (.ok report, t') ∧
      compile config ⟨"."⟩ options t = .ok output ∧
      report.cssPath = ⟨"./out/a.css"⟩ ∧ report.scriptPath = some ⟨"./out/a.js"⟩ ∧
      t'.find ⟨"./out/a.css"⟩ = .ok (.file output.css.toUTF8) ∧
      t'.find ⟨"./out/a.js"⟩ = .ok (.file output.script.toUTF8) := by
  intro config options t
  have hcss : config.cssPath ⟨"."⟩ = ⟨"./out/a.css"⟩ := by decide +kernel
  have hjs : config.scriptPath ⟨"."⟩ = ⟨"./out/a.js"⟩ := by decide +kernel
  -- Two facts about the build are evaluated: that there is a script, and that the places differ.
  have hpath : (((build config ⟨"."⟩ options).outcome t).1.map BuildReport.scriptPath).toOption
      = some (some ⟨"./out/a.js"⟩) := by decide +kernel
  have hplaces : (((build config ⟨"."⟩ options).outcome t).2.target ⟨"./out/a.css"⟩).toOption.map
      Target.place ≠ (((build config ⟨"."⟩ options).outcome t).2.target ⟨"./out/a.js"⟩).toOption.map
      Target.place := by decide +kernel
  generalize hbuild : (build config ⟨"."⟩ options).outcome t = built at hpath hplaces
  obtain ⟨result, t'⟩ := built
  cases result with
  | error e => cases hpath
  | ok report =>
    obtain ⟨output, hcompile, hcssPath, hscriptPath, hscript, -, hother, -⟩ :=
      build_leaves_outputs hbuild
    have hreport : report.scriptPath = some ⟨"./out/a.js"⟩ := Option.some.inj hpath
    have hne : output.script ≠ "" := by
      intro hempty
      rw [hreport, if_pos hempty] at hscriptPath
      cases hscriptPath
    rw [hcss] at hcssPath
    rw [hjs] at hscript
    rw [hcss, hjs] at hother
    exact ⟨report, t', output, rfl, hcompile, hcssPath, hreport,
      hother (not_samePlace_of_place_ne hplaces), hscript hne⟩

/-- A style sheet with the extension of a script is where its script would be, and is removed right
after it was written. The configuration is valid, and the build succeeds. -/
theorem sheet_is_removed_as_stale_script :
    let config : Config := { Config.standard with output := "app.js" }
    let t : FileTree :=
      ⟨.directory (.cons "index.html" (.file "<p class='w[1px]'>".toUTF8) .nil), []⟩
    let built := (build config ⟨"."⟩ ⟨false, false, ""⟩).outcome t
    config.isValid = true ∧ (built.1.map BuildReport.cssPath).toOption = some ⟨"./app.js"⟩ ∧
      built.2.contains ⟨"./app.js"⟩ = false := by
  decide +kernel

end Project

end UtilityCss
