import UtilityCss.Proofs.Build
import UtilityCss.Proofs.Discovery

/-!
# What a build can change

A build changes files in its second half only, and there it takes steps of three kinds
(`OutputStep`): it makes a directory around one of its two outputs, it writes one of them, or it
removes one. What holds of each step holds of the whole build, whether or not it succeeds, since a
build is a sequence of such steps (`takes_build`). So a build is `Confined` to its outputs: no other
file changes, no directory is lost, and the new directories are around the outputs.

What is around a path is meant as it is written: to write `a/../b/c.css`, the directory `a` is made
too, which is not around the file in the end.
-/

namespace UtilityCss

namespace FileTree

variable {t t' t'' : FileTree} {p q : Path} {outputs : List Path}

/-- The content of the file at a place, if there is one. -/
def fileAt (t : FileTree) (place : List String) : Option ByteArray :=
  match t.entryAt place with
  | some (.file content) => some content
  | _ => none

/-- A file is at a place just if it is seen there. -/
theorem fileAt_eq_some_iff {place : List String} {content : ByteArray} :
    t.fileAt place = some content ↔ t.entryAt place = some (.file content) := by
  unfold fileAt
  constructor
  · intro h
    split at h
    · next content' hentry => rw [hentry, Option.some.inj h]
    · cases h
  · intro h
    rw [h]

/-- Only the entry at a place matters for the file there. -/
theorem fileAt_congr {place : List String} (h : t'.entryAt place = t.entryAt place) :
    t'.fileAt place = t.fileAt place := by
  unfold fileAt
  rw [h]

/-- **A path leads to a place** at which a file can be, whether or not there is one. -/
def Leads (t : FileTree) (p : Path) (place : List String) : Prop :=
  ∃ directory name, t.Names p directory name ∧ place = directory ++ [name]

/-- A path goes on to lead to its place while no directory is lost. -/
theorem Keeps.leads (h : t.Keeps t') {place : List String} (hp : t.Leads p place) :
    t'.Leads p place := by
  obtain ⟨directory, name, hnames, hplace⟩ := hp
  exact ⟨directory, name, h.names hnames, hplace⟩

/-- The place that a path leads to is that of its target, which can be evaluated. -/
theorem Leads.place_eq {place : List String} (h : t.Leads p place) :
    (t.target p).toOption.map Target.place = some place := by
  obtain ⟨directory, name, hnames, rfl⟩ := h
  rw [hnames.target]
  rfl

/-! ### Steps and what they change -/

/-- **A step for outputs** at some paths. -/
inductive OutputStep (outputs : List Path) (t t' : FileTree) : Prop
  | makeDirectory {p q : Path} (hp : p ∈ outputs) (hq : q.IsAncestor p)
      (h : t.makeDirectory q = .ok t')
  | write {p : Path} {content : ByteArray} (hp : p ∈ outputs) (h : t.write p content = .ok t')
  | remove {p : Path} (hp : p ∈ outputs) (h : t.remove p = .ok t')

/-- **Nothing has changed but outputs** at some paths and the directories around them. -/
structure Confined (outputs : List Path) (t t' : FileTree) : Prop where
  keeps : t.Keeps t'
  files : ∀ place, t'.fileAt place ≠ t.fileAt place → ∃ p ∈ outputs, t'.Leads p place
  directories : ∀ place, t'.entryAt place = some .directory → t.entryAt place ≠ some .directory →
    ∃ p ∈ outputs, ∃ q : Path, q.IsAncestor p ∧ t'.locate q = .ok place

namespace Confined

/-- A tree that stays as it is changes within any outputs. -/
theorem refl (outputs : List Path) (t : FileTree) : Confined outputs t t where
  keeps := ⟨rfl, fun _ h => h⟩
  files _ h := absurd rfl h
  directories _ h hnew := absurd h hnew

/-- Two changes one after the other are confined to the same outputs. -/
theorem trans (h : Confined outputs t t') (h' : Confined outputs t' t'') :
    Confined outputs t t'' where
  keeps := h.keeps.trans h'.keeps
  files := by
    intro place hne
    -- Where only the first change has touched the place, the path still leads there in the end.
    by_cases heq : t''.fileAt place = t'.fileAt place
    · rw [heq] at hne
      obtain ⟨p, hp, hleads⟩ := h.files place hne
      exact ⟨p, hp, h'.keeps.leads hleads⟩
    · exact h'.files place heq
  directories := by
    intro place hplace hnew
    -- A directory that came up in the first change is still found by the path that it was made by.
    by_cases hmiddle : t'.entryAt place = some .directory
    · obtain ⟨p, hp, q, hq, hlocate⟩ := h.directories place hmiddle hnew
      refine ⟨p, hp, q, hq, h'.keeps.locate hlocate ?_⟩
      rw [hplace]
      rfl
    · exact h'.directories place hplace hmiddle

/-- A change at the place of an output that makes no directory. -/
theorem of_sets {directory : List String} {name : String} {entry : Option Entry} (hp : p ∈ outputs)
    (hnames : t.Names p directory name) (hold : t.entryAt (directory ++ [name]) ≠ some .directory)
    (hsets : t.Sets t' (directory ++ [name]) entry) (hentry : entry ≠ some .directory) :
    Confined outputs t t' where
  keeps := hsets.keeps hold
  files := by
    intro place hne
    -- Only one place has changed, and the output is named by its path still.
    by_cases hplace : place = directory ++ [name]
    · exact ⟨p, hp, directory, name, (hsets.keeps hold).names hnames, hplace⟩
    · refine absurd (fileAt_congr ?_) hne
      rw [hsets.entryAt, if_neg hplace]
  directories := by
    intro place hplace hnew
    rw [hsets.entryAt] at hplace
    split at hplace
    · exact absurd hplace hentry
    · exact absurd hplace hnew

/-- Making a directory around an output is confined to it. -/
theorem of_makeDirectory (hp : p ∈ outputs) (hq : q.IsAncestor p)
    (h : t.makeDirectory q = .ok t') : Confined outputs t t' := by
  obtain ⟨directory, name, slash, htarget, hname, hnone, hsets⟩ := sets_of_makeDirectory h
  have hkeeps : t.Keeps t' := (extends_of_makeDirectory h).keeps
  have hmade : t'.entryAt (directory ++ [name]) = some .directory := by
    rw [hsets.entryAt, if_pos rfl]
  refine ⟨hkeeps, ?_, ?_⟩
  · intro place hne
    by_cases hplace : place = directory ++ [name]
    · -- There was no file before, and there is none now.
      subst hplace
      unfold fileAt at hne
      rw [hmade, hnone] at hne
      exact absurd rfl hne
    · refine absurd (fileAt_congr ?_) hne
      rw [hsets.entryAt, if_neg hplace]
  · intro place hplace hnew
    rw [hsets.entryAt] at hplace
    split at hplace
    · -- The new directory is found by the path that it was made by.
      next heq =>
      subst heq
      exact ⟨p, hp, q, hq, locate_of_target (hkeeps.target htarget) hname hmade⟩
    · exact absurd hplace hnew

end Confined

namespace OutputStep

/-- **One step changes its output** and nothing else, by the spec of the operation. -/
theorem confined (h : OutputStep outputs t t') : Confined outputs t t' := by
  cases h with
  | makeDirectory hp hq h => exact .of_makeDirectory hp hq h
  | write hp h =>
    obtain ⟨directory, name, hnames, hold, hsets⟩ := sets_of_write h
    exact .of_sets hp hnames hold hsets fun hentry => nomatch hentry
  | remove hp h =>
    obtain ⟨directory, name, hnames, hold, hsets⟩ := sets_of_remove h
    exact .of_sets hp hnames hold hsets fun hentry => nomatch hentry

/-- One step keeps a tree proper. -/
theorem proper (h : OutputStep outputs t t') (ht : t.root.Proper) : t'.root.Proper := by
  cases h with
  | makeDirectory _ _ h => exact proper_of_makeDirectory ht h
  | write _ h => exact proper_of_write ht h
  | remove _ h => exact proper_of_remove ht h

end OutputStep

/-- **What steps change, they change for the outputs.** -/
theorem confined_of_steps (h : Relation.ReflTransGen (OutputStep outputs) t t') :
    Confined outputs t t' := by
  induction h with
  | refl => exact .refl outputs t
  | tail _ hstep ih => exact ih.trans hstep.confined

/-- Steps keep a tree proper. -/
theorem proper_of_steps (h : Relation.ReflTransGen (OutputStep outputs) t t')
    (ht : t.root.Proper) : t'.root.Proper := by
  induction h with
  | refl => exact ht
  | tail _ hstep ih => exact hstep.proper ih

/-! ### Actions that take such steps -/

/-- Saving an output makes directories around it and writes the file. -/
theorem takes_save (hp : p ∈ outputs) (content : ByteArray) :
    (save p content).Takes (OutputStep outputs) := by
  have hwrite : (FileAction.change fun t => t.write p content).Takes (OutputStep outputs) :=
    .change fun _ _ hok => .single (.write hp hok)
  unfold save
  dsimp only
  split
  · -- The directories that are made are the parent and what is around it.
    next parent hparent =>
    refine .bind ((takes_makeDirectories parent).mono ?_) fun _ => hwrite
    rintro t t' ⟨q, hq, hmake⟩
    exact .makeDirectory hp (.tail' hq hparent) hmake
  · exact hwrite

end FileTree

namespace Project

open FileTree

/-- Removing an old output takes one step, or none if there is nothing. -/
theorem takes_removeStale {p : Path} {outputs : List Path} (hp : p ∈ outputs) :
    (removeStale p).Takes (OutputStep outputs) := by
  refine .change fun t t' hok => ?_
  split at hok
  · exact .single (.remove hp hok)
  · cases hok
    exact .refl

/-- The paths of the two outputs of a project. -/
def outputPaths (config : Config) (root : Path) : List Path :=
  [config.cssPath root, config.scriptPath root]

/-- Publishing takes steps for both outputs. -/
theorem takes_publish (config : Config) (root : Path) (output : Output) :
    (publish config root output).Takes (OutputStep (outputPaths config root)) := by
  have hscript : config.scriptPath root ∈ outputPaths config root :=
    List.mem_cons_of_mem _ List.mem_cons_self
  refine .bind (takes_save List.mem_cons_self _) fun _ => ?_
  split
  · exact takes_save hscript _
  · exact takes_removeStale hscript

/-- **A build takes steps for its two outputs**, and none if it cannot compile. -/
theorem takes_build (config : Config) (root : Path) (options : Options) :
    (build config root options).Takes (OutputStep (outputPaths config root)) := by
  intro t
  unfold build
  rw [FileAction.outcome_bind, FileAction.outcome_inspect]
  split
  · -- Compiling has only looked at the tree, and nothing follows on publishing.
    next output t' heq =>
    cases (Prod.mk.inj heq).2
    refine FileAction.Takes.bind (takes_publish config root output).mapError (fun _ => ?_) t
    exact fun _ => .refl
  · next e t' heq =>
    cases (Prod.mk.inj heq).2
    exact .refl

/-- A build that cannot compile leaves the tree as it is. -/
theorem build_of_compile_error {config : Config} {root : Path} {options : Options} {t : FileTree}
    {e : Failure} (h : compile config root options t = .error e) :
    (build config root options).outcome t = (.error e, t) := by
  unfold build
  rw [FileAction.outcome_bind, FileAction.outcome_inspect, h]

/-- When the sources are compiled, only the outputs can be a reason to fail. -/
theorem file_of_build_error {config : Config} {root : Path} {options : Options} {t t' : FileTree}
    {output : Output} {e : Failure} (hcompile : compile config root options t = .ok output)
    (h : (build config root options).outcome t = (.error e, t')) : ∃ cause, e = .file cause := by
  unfold build at h
  rw [FileAction.outcome_bind, FileAction.outcome_inspect, hcompile] at h
  dsimp only at h
  rw [FileAction.outcome_bind, FileAction.outcome_mapError] at h
  -- Publishing fails with an error of a file, or the build succeeds.
  generalize (publish config root output).outcome t = published at h
  obtain ⟨cause | ⟨⟩, t₁⟩ := published
  · cases h
    exact ⟨cause, rfl⟩
  · cases h

/-- **A build is confined to its outputs.** Whatever it returns, only the files at the two paths can
differ afterwards, the only new directories are around these paths, and no directory is lost. If it
fails, it has changed nothing, unless it was an output that could not be written or removed. -/
theorem build_confined (config : Config) (root : Path) (options : Options) (t : FileTree) :
    let built := (build config root options).outcome t
    (∀ place, built.2.fileAt place ≠ t.fileAt place →
      ∃ p ∈ [config.cssPath root, config.scriptPath root], built.2.Leads p place) ∧
    (∀ place, built.2.entryAt place = some .directory → t.entryAt place ≠ some .directory →
      ∃ p ∈ [config.cssPath root, config.scriptPath root],
        ∃ q : Path, q.IsAncestor p ∧ built.2.locate q = .ok place) ∧
    (∀ place, t.entryAt place = some .directory → built.2.entryAt place = some .directory) ∧
    ∀ e, built.1 = .error e → (∃ cause, e = .file cause) ∨
      compile config root options t = .error e ∧ built.2 = t := by
  intro built
  have hconfined : Confined (outputPaths config root) t built.2 :=
    confined_of_steps (takes_build config root options t)
  refine ⟨hconfined.files, hconfined.directories, hconfined.keeps.directories, ?_⟩
  intro e he
  -- Before anything is published the tree is as it was, so only an output can be in between.
  cases hcompile : compile config root options t with
  | error e' =>
    have hbuilt : built = (.error e', t) := build_of_compile_error hcompile
    rw [hbuilt] at he ⊢
    cases he
    exact .inr ⟨rfl, rfl⟩
  | ok output =>
    exact .inl (file_of_build_error hcompile (Prod.ext he rfl : built = (.error e, built.2)))

/-! ### Source files that are outputs -/

section Published

variable {config : Config} {root : Path} {output : Output} {t t' : FileTree}
  (h : (publish config root output).outcome t = (.ok (), t')) {place : List String}
include h

/-- **What is at the place of the script** once the outputs are published. -/
theorem entryAt_scriptPath (hscript : t'.Leads (config.scriptPath root) place) :
    t'.entryAt place
      = if output.script = "" then none else some (.file output.script.toUTF8) := by
  obtain ⟨⟨⟩, t₁, hsheet, hsecond⟩ := FileAction.outcome_bind_eq_ok_iff.mp h
  obtain ⟨directory, name, hnames, rfl⟩ := hscript
  split
  · -- Without a script an old one was removed.
    next hempty =>
    rw [(hasScript_eq_false_iff output).mpr hempty] at hsecond
    obtain ⟨hgone, -, -⟩ := find_after_removeStale hsheet hsecond
    rwa [hnames.contains_eq, Option.isSome_eq_false_iff, Option.isNone_iff_eq_none] at hgone
  · -- The script was written last, so nothing has come over it.
    next hne =>
    have hsome : output.hasScript = true := by
      rw [← Bool.not_eq_false, hasScript_eq_false_iff]
      exact hne
    rw [hsome] at hsecond
    obtain ⟨hthere, -, -⟩ := find_after_save_both hsheet hsecond
    exact hnames.find_eq_file_iff.mp hthere

/-- **What is at the place of the style sheet**, unless the script is there. -/
theorem entryAt_cssPath (hcss : t'.Leads (config.cssPath root) place)
    (hscript : ¬ t'.Leads (config.scriptPath root) place) :
    t'.entryAt place = some (.file output.css.toUTF8) := by
  obtain ⟨⟨⟩, t₁, hsheet, hsecond⟩ := FileAction.outcome_bind_eq_ok_iff.mp h
  obtain ⟨directory, name, hnames, rfl⟩ := hcss
  -- The two paths do not have one place, or the script would be at this one.
  have hother : ¬ t'.SamePlace (config.cssPath root) (config.scriptPath root) := by
    rintro ⟨directory', name', hnames', hnames''⟩
    obtain ⟨rfl, rfl⟩ := hnames.unique hnames'
    exact hscript ⟨directory, name, hnames'', rfl⟩
  have hfind : t'.find (config.cssPath root) = .ok (.file output.css.toUTF8) := by
    split at hsecond
    · exact (find_after_save_both hsheet hsecond).2.1 hother
    · exact (find_after_removeStale hsheet hsecond).2.1 hother
  exact hnames.find_eq_file_iff.mp hfind

end Published

/-- **A build and a source file.** A source file is left as it is, whatever the build returns,
unless one of the two outputs has the same place. If the build succeeds, the outputs take such
places without a question: what was a source file is then the style sheet, or the script, or, if
there is no script, nothing any more. -/
theorem source_after_build (config : Config) (root : Path) (options : Options) {t : FileTree}
    (ht : t.root.Proper) {s : Sources} {files : List Path} (hfiles : s.discover t = .ok files)
    {p : Path} (hp : p ∈ files) :
    ∃ place content, t.resolve p = .ok place ∧ t.entryAt place = some (.file content) ∧
      let built := (build config root options).outcome t
      let css := config.cssPath root
      let script := config.scriptPath root
      (¬ built.2.Leads css place → ¬ built.2.Leads script place →
        built.2.resolve p = .ok place ∧ built.2.entryAt place = some (.file content)) ∧
      ∀ report, built.1 = .ok report →
        ∃ output, compile config root options t = .ok output ∧
          (built.2.Leads script place → built.2.entryAt place =
            if output.script = "" then none else some (.file output.script.toUTF8)) ∧
          (built.2.Leads css place → ¬ built.2.Leads script place →
            built.2.entryAt place = some (.file output.css.toUTF8)) := by
  -- A source file is below the root, by a path that goes down through names.
  obtain ⟨-, node, hfind, -⟩ := (Sources.discover_eq_ok_iff ht).mp hfiles
  obtain ⟨top, htop, hget⟩ := find_eq_ok_iff.mp hfind
  obtain ⟨names, content, hfile, rfl, -⟩ := (Sources.mem_discover_iff ht hfiles htop).mp hp
  refine ⟨top ++ names, content, resolve_below ht htop (Node.get?_of_entryAt_eq_file hfile), hfile,
    ?_, ?_⟩
  · intro hcss hscript
    have hsteps := takes_build config root options t
    have hconfined := confined_of_steps hsteps
    generalize ((build config root options).outcome t).2 = t' at hcss hscript hsteps hconfined ⊢
    -- A file that has changed would be at the place of an output.
    have hfile' : t'.entryAt (top ++ names) = some (.file content) := by
      rw [← fileAt_eq_some_iff] at hfile ⊢
      rw [← hfile]
      by_contra hne
      obtain ⟨q, hq, hleads⟩ := hconfined.files _ hne
      rcases List.mem_pair.mp hq with rfl | rfl
      · exact hcss hleads
      · exact hscript hleads
    -- And the path still leads to the file, through the same directories.
    refine ⟨?_, hfile'⟩
    have hsome : (t'.entryAt (top ++ names)).isSome = true := by
      rw [hfile']
      rfl
    have htop' := hconfined.keeps.locate htop (isSome_entryAt_of_append hsome)
    exact resolve_below (proper_of_steps hsteps ht) htop' (Node.get?_of_entryAt_eq_file hfile')
  · intro report hreport
    obtain ⟨output, hcompile, hpublish, -⟩ := publish_of_build (Prod.ext hreport rfl)
    exact ⟨output, hcompile, entryAt_scriptPath hpublish, entryAt_cssPath hpublish⟩

/-- A page next to the two outputs. -/
theorem page_is_left_beside_outputs :
    let config : Config := { Config.standard with output := "src/app.css" }
    let options : Options := ⟨false, false, ""⟩
    let t : FileTree := ⟨.directory
      (.cons "src" (.directory
        (.cons "app.css" (.file "p { }".toUTF8)
          (.cons "page.html" (.file "<p class='w[1px]'>".toUTF8) .nil))) .nil), []⟩
    let s : Sources := ⟨⟨"."⟩, [[.leading, .star]]⟩
    let p : Path := ⟨"./src/page.html"⟩
    t.root.Proper ∧ ∃ files, s.discover t = .ok files ∧ p ∈ files ∧
      ∃ place content, t.resolve p = .ok place ∧ t.entryAt place = some (.file content) ∧
        ((build config ⟨"."⟩ options).outcome t).2.entryAt place = some (.file content) := by
  intro config options t s p
  have ht : t.root.Proper := by decide +kernel
  have hmem : ((s.discover t).map fun files => decide (p ∈ files)).toOption = some true := by
    decide +kernel
  have hplace : (t.resolve p).toOption = some ["src", "page.html"] := by decide +kernel
  -- The build is evaluated once, for the places that its two paths lead to.
  have houtputs : ∀ q ∈ [config.cssPath ⟨"."⟩, config.scriptPath ⟨"."⟩],
      (((build config ⟨"."⟩ options).outcome t).2.target q).toOption.map Target.place
        ≠ some ["src", "page.html"] := by decide +kernel
  generalize hfiles : s.discover t = found at hmem
  cases found with
  | error e => cases hmem
  | ok files =>
    have hp : p ∈ files := of_decide_eq_true (Option.some.inj hmem)
    obtain ⟨place, content, hresolve, hfile, hkept, -⟩ :=
      source_after_build config ⟨"."⟩ options ht hfiles hp
    rw [hresolve] at hplace
    obtain rfl : place = ["src", "page.html"] := Option.some.inj hplace
    refine ⟨ht, files, rfl, hp, _, content, hresolve, hfile, (hkept ?_ ?_).2⟩
    · -- Neither path leads to the page, by what was evaluated.
      exact fun hcss => houtputs _ List.mem_cons_self hcss.place_eq
    · exact fun hscript => houtputs _ (List.mem_cons_of_mem _ List.mem_cons_self) hscript.place_eq

/-- A script that was written by hand has the path that the script of the style sheet would have. It
is a source file, and the only one; there is nothing to do at run time, so it is removed as an old
script. The configuration is valid, and the build succeeds. -/
theorem source_is_removed_as_stale_script :
    let config : Config := { Config.standard with output := "src/app.css" }
    let t : FileTree := ⟨.directory (.cons "src" (.directory
      (.cons "app.js" (.file "const a = <p className='w[1px]'>;".toUTF8) .nil)) .nil), []⟩
    let built := (build config ⟨"."⟩ ⟨false, false, ""⟩).outcome t
    config.isValid = true ∧
      ((Sources.ofPatterns ⟨"."⟩ config.content).bind fun s => s.discover t).toOption
        = some [⟨"./src/app.js"⟩] ∧
      (built.1.map BuildReport.cssPath).toOption = some ⟨"./src/app.css"⟩ ∧
      t.contains ⟨"./src/app.js"⟩ = true ∧ built.2.contains ⟨"./src/app.js"⟩ = false := by
  decide +kernel

end Project

end UtilityCss
