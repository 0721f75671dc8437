import UtilityCss.Proofs.Ancestors
import UtilityCss.Proofs.Confinement
import UtilityCss.Proofs.SavingAgain

/-!
# Building again

What happens when a project is built a second time, in the tree that the first build has left? Both
halves of a build have to come out as before:

* `compile_again` — the same source files are found and read, since the first build has changed no
  file at a place that the patterns select (`Sources.SelectsAt`);
* `publish_again` — the outputs are written where they are already, and nothing is there to be
  removed, so the tree stays as it is. This also holds where the two outputs have one place and the
  first of them is lost each time.

One thing can go wrong. The first build may have made directories, and the second walk enters them
if they are in the project. A path that goes down from a long root can be too long for the system
although the path by which the directory was made was not. For outputs that are given by relative
paths this cannot happen (`readable_again`), for others it can (`second_build_stops_at_long_path`).
-/

namespace UtilityCss

/-! ### Reading again -/

/-- Applying functions that agree on the items of a list. -/
theorem mapM_congr_of_mem {ε α β : Type} {f g : α → Except ε β} {items : List α}
    (h : ∀ item ∈ items, f item = g item) : items.mapM f = items.mapM g := by
  induction items with
  | nil => rfl
  | cons item items ih =>
    obtain ⟨hitem, hitems⟩ := List.forall_mem_cons.mp h
    rw [List.mapM_cons, List.mapM_cons, hitem, ih hitems]

/-- If checking items fails, one of them fails. -/
theorem exists_of_forM_eq_error {ε α : Type} {check : α → Except ε Unit} {items : List α} {e : ε}
    (h : items.forM check = .error e) : ∃ item ∈ items, check item = .error e := by
  by_contra hall
  induction items with
  | nil => cases h
  | cons item items ih =>
    replace h : (check item >>= fun _ => items.forM check) = .error e := h
    -- The first item fails, or the error comes from the others.
    cases hitem : check item with
    | error e' =>
      rw [hitem] at h
      cases h
      exact hall ⟨item, List.mem_cons_self, hitem⟩
    | ok =>
      rw [hitem] at h
      refine ih h ?_
      rintro ⟨other, hother, herror⟩
      exact hall ⟨other, List.mem_cons_of_mem _ hother, herror⟩

/-- An error under another name has a cause. -/
theorem exists_of_mapError_eq_error {ε δ α : Type} {f : ε → δ} {x : Except ε α} {e : δ}
    (h : x.mapError f = .error e) : ∃ cause, e = f cause := by
  cases x with
  | error cause => exact ⟨cause, (Except.error.inj h).symm⟩
  | ok a => cases h

namespace Sources

open FileTree (Confined)

variable {s : Sources} {t t' : FileTree} {files : List Path} {outputs : List Path}

/-- **A place that the patterns select**, whatever is there. -/
def SelectsAt (s : Sources) (t : FileTree) (place : List String) : Prop :=
  ∃ top names, t.locate s.root = .ok top ∧ place = top ++ names ∧
    s.selects (s.root.below names) = true

/-- **A place below an ignored directory** of the project. -/
def IgnoresAt (s : Sources) (t : FileTree) (place : List String) : Prop :=
  ∃ top names, t.locate s.root = .ok top ∧ place = top ++ names ∧
    ∃ name ∈ names, name ∈ ignoredNames

/-- No place below an ignored directory is selected. -/
theorem not_selectsAt_of_ignoresAt (ht' : t'.root.Proper) {p : Path} {place : List String}
    (hplace : t'.Leads p place) (h : s.IgnoresAt t place) : ¬ s.SelectsAt t place := by
  obtain ⟨top, names, htop, rfl, name, hname, hignored⟩ := h
  rintro ⟨top', names', htop', heq, hselects⟩
  obtain rfl : top = top' := Except.ok.inj (htop.symm.trans htop')
  obtain rfl : names = names' := List.append_cancel_left heq
  -- The place is that of a path, so the selection sees every name on the way as it is.
  have hmember : ∀ other ∈ top ++ names, FileTree.IsMemberName other := by
    obtain ⟨directory, file, hnames, hplace⟩ := hplace
    obtain ⟨members, hmembers⟩ :=
      Node.get?_of_entryAt_eq_directory (FileTree.entryAt_of_target hnames.target)
    intro other hother
    rw [hplace] at hother
    rcases List.mem_append.mp hother with hother | hother
    · exact (ht'.of_get? hmembers).1 other hother
    · rw [List.mem_singleton.mp hother]
      exact FileTree.isMemberName_of_target hnames.target hnames.checkName
  have hfile : ∀ other ∈ names, Path.IsFileName other := fun other hother =>
    (hmember other (List.mem_append_right _ hother)).toIsFileName
  -- A selected path has no ignored name on its way, and this one has.
  have hnot := not_ignored_of_selects (FileTree.text_ne_of_locate htop) hfile hselects name hname
  rw [List.contains_iff_mem.mpr hignored] at hnot
  cases hnot

/-- The patterns are applied from the root that they are given with. -/
theorem root_of_ofPatterns {root : Path} {patterns : List String}
    (h : ofPatterns root patterns = .ok s) : s.root = root := by
  unfold ofPatterns at h
  obtain ⟨tokens, -, h⟩ := bind_eq_ok_iff.mp h
  dsimp only at h
  split at h
  · cases h
  · cases h
    rfl

/-- Discovery fails while it walks through the tree, and in no other way. -/
theorem discover_eq_error {e : Failure} (h : s.discover t = .error e) :
    ∃ path cause, e = .traversal path cause := by
  unfold discover at h
  -- The root is not found, or one of the directories cannot be entered.
  cases hfind : (t.find s.root).mapError (Failure.traversal s.root) with
  | error e' =>
    rw [hfind] at h
    cases h
    obtain ⟨cause, rfl⟩ := exists_of_mapError_eq_error hfind
    exact ⟨s.root, cause, rfl⟩
  | ok node =>
    rw [hfind] at h
    replace h : ((node.directoryPaths ignoredNames.contains s.root).forM fun path =>
      (FileTree.checkPath path).mapError (Failure.traversal path)) >>= (fun _ => _) = .error e := h
    cases hcheck : (node.directoryPaths ignoredNames.contains s.root).forM fun path =>
        (FileTree.checkPath path).mapError (Failure.traversal path) with
    | error e' =>
      rw [hcheck] at h
      cases h
      obtain ⟨path, -, herror⟩ := exists_of_forM_eq_error hcheck
      obtain ⟨cause, rfl⟩ := exists_of_mapError_eq_error herror
      exact ⟨path, cause, rfl⟩
    | ok =>
      rw [hcheck] at h
      cases h

section Again

variable (ht : t.root.Proper) (ht' : t'.root.Proper) (hconfined : Confined outputs t t')
  (hapart : ∀ p ∈ outputs, ∀ place, t'.Leads p place → ¬ s.SelectsAt t place)
include hconfined hapart

/-- A file at a selected place stays as it is, and none comes up there. -/
theorem entryAt_eq_file_iff_again {top names : List String} {content : ByteArray}
    (htop : t.locate s.root = .ok top) (hselects : s.selects (s.root.below names) = true) :
    t'.entryAt (top ++ names) = some (.file content) ↔
      t.entryAt (top ++ names) = some (.file content) := by
  -- A file that has changed would be at the place of an output, and no output is at a selected one.
  have hsame : t'.fileAt (top ++ names) = t.fileAt (top ++ names) := by
    by_contra hne
    obtain ⟨p, hp, hleads⟩ := hconfined.files _ hne
    exact hapart p hp _ hleads ⟨top, names, htop, rfl, hselects⟩
  rw [← FileTree.fileAt_eq_some_iff, ← FileTree.fileAt_eq_some_iff, hsame]

variable {top : List String} (htop : t.locate s.root = .ok top)
  (htop' : t'.locate s.root = .ok top) (hfiles : s.discover t = .ok files)
include ht ht' htop htop' hfiles

/-- **The same source files are found again**, if the tree can still be read. -/
theorem discover_again (hreadable : s.Readable t') : s.discover t' = .ok files := by
  obtain ⟨node, hfind, -⟩ := id hreadable
  have hfiles' := (discover_eq_ok_iff ht').mpr ⟨hreadable, node, hfind, rfl⟩
  have hsame : (node.filePaths ignoredNames.contains s.root).filter s.selects = files := by
    -- Both lists are in the same order, so it is enough that they have the same members.
    refine Path.eq_of_pairwise_before (pairwise_discover ht' hfiles')
      (pairwise_discover ht hfiles) fun path => ?_
    rw [mem_discover_iff ht' hfiles' htop', mem_discover_iff ht hfiles htop]
    constructor
    · rintro ⟨names, content, hfile, rfl, hselects⟩
      rw [entryAt_eq_file_iff_again hconfined hapart htop hselects] at hfile
      exact ⟨names, content, hfile, rfl, hselects⟩
    · rintro ⟨names, content, hfile, rfl, hselects⟩
      rw [← entryAt_eq_file_iff_again hconfined hapart htop hselects] at hfile
      exact ⟨names, content, hfile, rfl, hselects⟩
  rw [← hsame]
  exact hfiles'

/-- **The same texts are read again.** -/
theorem readText_again {path : Path} (hpath : path ∈ files) :
    t'.readText path = t.readText path := by
  obtain ⟨names, content, hfile, rfl, hselects⟩ := (mem_discover_iff ht hfiles htop).mp hpath
  have hfile' := (entryAt_eq_file_iff_again hconfined hapart htop hselects).mpr hfile
  unfold FileTree.readText
  rw [FileTree.find_below ht htop (Node.get?_of_entryAt_eq_file hfile),
    FileTree.find_below ht' htop' (Node.get?_of_entryAt_eq_file hfile')]

end Again

end Sources

namespace Project

open FileTree

variable {config : Config} {root : Path} {options : Options} {output : Output} {t t' : FileTree}

/-! ### Publishing again -/

/-- Where there is nothing, nothing is removed. -/
theorem outcome_removeStale_of_not_contains {p : Path} (h : t.contains p = false) :
    (removeStale p).outcome t = (.ok (), t) := by
  rw [removeStale, FileAction.outcome_change, h]
  rfl

/-- What is there is removed. -/
theorem outcome_removeStale_of_remove {p : Path} (h : t.contains p = true)
    (hremove : t.remove p = .ok t') : (removeStale p).outcome t = (.ok (), t') := by
  rw [removeStale, FileAction.outcome_change, if_pos h, hremove]

/-- No directory is lost with an old output. -/
theorem keeps_of_removeStale {p : Path} (h : (removeStale p).outcome t = (.ok (), t')) :
    t.Keeps t' :=
  (confined_of_steps ((takes_removeStale (List.mem_singleton_self p)).steps h)).keeps

section Published

variable {css script : Path} {sheet text : String} {t₁ : FileTree}

/-- A file at a place that is not that of the second one is still there. -/
theorem entryAt_of_saved {directory directory' : List String} {name name' : String}
    (hsheet : t.Saved t₁ css sheet.toUTF8 directory name)
    (htext : t₁.Saved t' script text.toUTF8 directory' name')
    (hne : directory ++ [name] ≠ directory' ++ [name']) :
    t'.entryAt (directory ++ [name]) = some (.file sheet.toUTF8) := by
  rcases htext.others _ hne with heq | ⟨hnone, -⟩
  · rw [heq, hsheet.entryAt]
  · rw [hsheet.entryAt] at hnone
    cases hnone

/-- **Saving two files again changes nothing.** Where both have one place, the first one is written
there and then lost again, as it was the first time. -/
theorem save_both_again (ht' : t'.root.Proper)
    (hfirst : (saveText css sheet).outcome t = (.ok (), t₁))
    (hsecond : (saveText script text).outcome t₁ = (.ok (), t')) :
    ∃ u, (saveText css sheet).outcome t' = (.ok (), u) ∧
      (saveText script text).outcome u = (.ok (), t') := by
  obtain ⟨directory, name, hsheet⟩ := saved_of_save hfirst
  obtain ⟨directory', name', htext⟩ := saved_of_save hsecond
  have hcss : t'.Names css directory name := htext.keeps.names hsheet.names
  have hroom : t'.HasRoom css := htext.keeps.hasRoom (hasRoom_of_save hfirst)
  by_cases hsame : directory ++ [name] = directory' ++ [name']
  · -- Both writes set the same place, and the second one sets it to what it was.
    have hold : t'.entryAt (directory ++ [name]) ≠ some .directory := by
      rw [hsame, htext.entryAt]
      exact fun h => nomatch h
    obtain ⟨u, hwrite, hsets⟩ := exists_write sheet.toUTF8 hcss hold
    have hkeeps := hsets.keeps hold
    have hold' : u.entryAt (directory' ++ [name']) ≠ some .directory := by
      rw [← hsame, hsets.entryAt, if_pos rfl]
      exact fun h => nomatch h
    obtain ⟨v, hwrite', hsets'⟩ := exists_write text.toUTF8 (hkeeps.names htext.names) hold'
    rw [hsame] at hsets
    have hback := hsets.trans hsets'
    rw [← htext.entryAt] at hback
    obtain rfl : v = t' :=
      eq_of_sets ht' (proper_of_write (proper_of_write ht' hwrite) hwrite') hback
    exact ⟨u, outcome_save hroom hwrite,
      outcome_save (hkeeps.hasRoom (hasRoom_of_save hsecond)) hwrite'⟩
  · -- At two places both files are there, and writing them changes nothing.
    have hentry := entryAt_of_saved hsheet htext hsame
    exact ⟨t', outcome_save hroom (write_self ht' hcss hentry),
      outcome_save (hasRoom_of_save hsecond) (write_self ht' htext.names htext.entryAt)⟩

/-- **Saving a file and removing another one again changes nothing.** Where both have one place, the
file is written there and then removed again, as it was the first time. -/
theorem save_and_remove_again (ht' : t'.root.Proper)
    (hfirst : (saveText css sheet).outcome t = (.ok (), t₁))
    (hsecond : (removeStale script).outcome t₁ = (.ok (), t')) :
    ∃ u, (saveText css sheet).outcome t' = (.ok (), u) ∧
      (removeStale script).outcome u = (.ok (), t') := by
  obtain ⟨directory, name, hsheet⟩ := saved_of_save hfirst
  have hkeeps := keeps_of_removeStale hsecond
  have hcss : t'.Names css directory name := hkeeps.names hsheet.names
  have hroom : t'.HasRoom css := hkeeps.hasRoom (hasRoom_of_save hfirst)
  obtain ⟨hgone, hother, -⟩ := find_after_removeStale hfirst hsecond
  by_cases hsame : t'.SamePlace css script
  · -- At one place the style sheet is gone, since it was removed as an old script.
    obtain ⟨common, file, hcss', hscript⟩ := hsame
    obtain ⟨rfl, rfl⟩ := hcss.unique hcss'
    have hnone : t'.entryAt (directory ++ [name]) = none := by
      rwa [hscript.contains_eq, Option.isSome_eq_false_iff, Option.isNone_iff_eq_none] at hgone
    have hold : t'.entryAt (directory ++ [name]) ≠ some .directory := by
      rw [hnone]
      exact fun h => nomatch h
    obtain ⟨u, hwrite, hsets⟩ := exists_write sheet.toUTF8 hcss hold
    have hscript' := (hsets.keeps hold).names hscript
    have hentry : u.entryAt (directory ++ [name]) = some (.file sheet.toUTF8) := by
      rw [hsets.entryAt, if_pos rfl]
    have hcontains : u.contains script = true := by
      rw [hscript'.contains_eq, hentry]
      rfl
    have hremove : u.remove script = .ok (u.drop directory name) :=
      remove_eq_ok_iff.mpr ⟨directory, name, _, hscript', hentry, rfl⟩
    -- Written and removed: the place is as empty as it was.
    have hback : t'.Sets (u.drop directory name) (directory ++ [name]) none :=
      hsets.trans (sets_drop (entryAt_of_target hscript'.target)
        (by rw [hentry]; exact fun h => nomatch h))
    rw [← hnone] at hback
    have hproper := proper_of_remove (proper_of_write ht' hwrite) hremove
    rw [eq_of_sets ht' hproper hback] at hremove
    exact ⟨u, outcome_save hroom hwrite, outcome_removeStale_of_remove hcontains hremove⟩
  · -- At two places the style sheet is there and the script is not, so nothing is left to do.
    have hentry := hcss.find_eq_file_iff.mp (hother hsame)
    exact ⟨t', outcome_save hroom (write_self ht' hcss hentry),
      outcome_removeStale_of_not_contains hgone⟩

end Published

/-- **Publishing an output again changes nothing.** -/
theorem publish_again (ht' : t'.root.Proper)
    (h : (publish config root output).outcome t = (.ok (), t')) :
    (publish config root output).outcome t' = (.ok (), t') := by
  obtain ⟨⟨⟩, t₁, hfirst, hsecond⟩ := FileAction.outcome_bind_eq_ok_iff.mp h
  unfold publish
  rw [FileAction.outcome_bind_eq_ok_iff]
  cases hscript : output.hasScript with
  | true =>
    rw [hscript] at hsecond
    obtain ⟨u, hu, hback⟩ := save_both_again ht' hfirst hsecond
    exact ⟨(), u, hu, hback⟩
  | false =>
    rw [hscript] at hsecond
    obtain ⟨u, hu, hback⟩ := save_and_remove_again ht' hfirst hsecond
    exact ⟨(), u, hu, hback⟩

/-! ### Compiling again -/

/-- A project is compiled in three steps, and all of them succeed. -/
theorem compile_eq_ok_iff : compile config root options t = .ok output ↔
    ∃ s files texts, Sources.ofPatterns root config.content = .ok s ∧ s.discover t = .ok files ∧
      files.mapM (readSource t) = .ok texts ∧
      output = Session.run config.vocabulary options texts := by
  unfold compile
  constructor
  · intro h
    obtain ⟨s, hs, h⟩ := bind_eq_ok_iff.mp h
    obtain ⟨files, hfiles, h⟩ := bind_eq_ok_iff.mp h
    obtain ⟨texts, htexts, h⟩ := bind_eq_ok_iff.mp h
    cases h
    exact ⟨s, files, texts, hs, hfiles, htexts, rfl⟩
  · rintro ⟨s, files, texts, hs, hfiles, htexts, rfl⟩
    exact bind_eq_ok_iff.mpr ⟨s, hs, bind_eq_ok_iff.mpr ⟨files, hfiles,
      bind_eq_ok_iff.mpr ⟨texts, htexts, rfl⟩⟩⟩

/-- **The sources are compiled to the same output again**, if the tree can still be read. -/
theorem compile_again {outputs : List Path} (ht : t.root.Proper) (ht' : t'.root.Proper)
    (hconfined : Confined outputs t t') {s : Sources}
    (hs : Sources.ofPatterns root config.content = .ok s)
    (hapart : ∀ p ∈ outputs, ∀ place, t'.Leads p place → ¬ s.SelectsAt t place)
    (hreadable : s.Readable t') (hcompile : compile config root options t = .ok output) :
    compile config root options t' = .ok output := by
  obtain ⟨s', files, texts, hs', hfiles, htexts, rfl⟩ := compile_eq_ok_iff.mp hcompile
  obtain rfl : s = s' := Except.ok.inj (hs.symm.trans hs')
  obtain ⟨-, node, hfind, -⟩ := (Sources.discover_eq_ok_iff ht).mp hfiles
  obtain ⟨top, htop, -⟩ := find_eq_ok_iff.mp hfind
  -- The root is still there, and then it is at the same place.
  obtain ⟨node', hfind', -⟩ := id hreadable
  obtain ⟨top', htop', -⟩ := find_eq_ok_iff.mp hfind'
  obtain rfl : top = top' := locate_unique hconfined.keeps.here htop htop'
  refine compile_eq_ok_iff.mpr ⟨s, files, texts, hs, ?_, ?_, rfl⟩
  · exact Sources.discover_again ht ht' hconfined hapart htop htop' hfiles hreadable
  · -- A text is read again by the path of a file that was found.
    rw [← htexts]
    refine mapM_congr_of_mem fun path hpath => ?_
    unfold readSource
    rw [Sources.readText_again ht ht' hconfined hapart htop htop' hfiles hpath]

/-- A build stops at a tree that it cannot read and leaves it as it is. -/
theorem build_of_not_readable (ht : t.root.Proper) {s : Sources}
    (hs : Sources.ofPatterns root config.content = .ok s) (h : ¬ s.Readable t) :
    ∃ path cause, (build config root options).outcome t = (.error (.traversal path cause), t) := by
  cases hdiscover : s.discover t with
  | ok files => exact absurd ((Sources.discover_eq_ok_iff ht).mp hdiscover).1 h
  | error e =>
    -- Discovery has failed, and this is the error of the build.
    obtain ⟨path, cause, rfl⟩ := Sources.discover_eq_error hdiscover
    refine ⟨path, cause, build_of_compile_error ?_⟩
    unfold compile
    rw [hs]
    show (s.discover t >>= fun _ => _) = _
    rw [hdiscover]
    rfl

/-- A build that compiles and publishes succeeds. -/
theorem build_of_compile {report : BuildReport}
    (hcompile : compile config root options t = .ok output)
    (hpublish : (publish config root output).outcome t = (.ok (), t'))
    (hreport : report = Project.report config root output) :
    (build config root options).outcome t = (.ok report, t') := by
  refine FileAction.outcome_bind_eq_ok_iff.mpr ⟨output, t, ?_, ?_⟩
  · rw [FileAction.outcome_inspect, hcompile]
  · refine FileAction.outcome_bind_eq_ok_iff.mpr ⟨(), t', ?_, ?_⟩
    · exact FileAction.outcome_mapError_eq_ok_iff.mpr hpublish
    · rw [FileAction.outcome_pure, hreport]

/-! ### Outputs below the root -/

/-- Both outputs are given by relative paths, so they are looked for from the root. -/
def HasRelativeOutputs (config : Config) : Prop :=
  Path.isAbsolute ⟨config.output⟩ = false ∧
    ∀ path ∈ config.scriptOutput, Path.isAbsolute ⟨path⟩ = false

instance (config : Config) : Decidable (HasRelativeOutputs config) :=
  inferInstanceAs (Decidable (_ ∧ _))

/-- What is around an output is around a relative path behind the root. -/
theorem exists_relative_of_isAncestor (h : HasRelativeOutputs config) {p q : Path}
    (hp : p ∈ outputPaths config root) (hq : q.IsAncestor p) :
    ∃ path : Path, path.isAbsolute = false ∧ q.IsAncestor (root.join path) := by
  obtain ⟨hcss, hscript⟩ := h
  -- The script has a path of its own, or that of the style sheet with another extension.
  rcases List.mem_pair.mp hp with rfl | rfl
  · exact ⟨⟨config.output⟩, hcss, hq⟩
  · unfold Config.scriptPath at hq
    split at hq
    · next path hpath => exact ⟨⟨path⟩, hscript path hpath, hq⟩
    · exact ⟨⟨config.output⟩, hcss, (Path.isAncestor_withExtension (by decide) (by decide)).mp hq⟩

/-- The path of a style sheet that was published names a place. -/
theorem exists_names_cssPath (h : (publish config root output).outcome t = (.ok (), t')) :
    ∃ directory name, t'.Names (config.cssPath root) directory name := by
  obtain ⟨⟨⟩, t₁, hsheet, hsecond⟩ := FileAction.outcome_bind_eq_ok_iff.mp h
  obtain ⟨directory, name, hsaved⟩ := saved_of_save hsheet
  refine ⟨directory, name, Keeps.names ?_ hsaved.names⟩
  split at hsecond
  · obtain ⟨_, _, hsecond⟩ := saved_of_save hsecond
    exact hsecond.keeps
  · exact keeps_of_removeStale hsecond

/-- **A tree stays readable** when outputs below the root are published: a walk comes to the new
directories by paths that are no longer than those by which they were made. -/
theorem readable_again (ht : t.root.Proper) (ht' : t'.root.Proper) {s : Sources}
    (hs : s.root = root) (hrelative : HasRelativeOutputs config) (hreadable : s.Readable t)
    (hpublish : (publish config root output).outcome t = (.ok (), t')) : s.Readable t' := by
  subst hs
  have hconfined := confined_of_steps ((takes_publish config s.root output).steps hpublish)
  obtain ⟨node, hfind, -⟩ := id hreadable
  obtain ⟨top, htop, -⟩ := find_eq_ok_iff.mp hfind
  obtain ⟨⟨⟩, hpath, hdestination⟩ := bind_eq_ok_iff.mp htop
  obtain ⟨hfollow, -⟩ := destination_eq_ok_iff.mp hdestination
  -- The style sheet could be written below the root, so the root is still a directory.
  obtain ⟨directory, name, hcss⟩ := exists_names_cssPath hpublish
  obtain ⟨top', hfollow', hroot⟩ :=
    entryAt_root_of_names (text_ne_of_locate htop) hrelative.1 hcss
  rw [hconfined.keeps.here] at hfollow'
  obtain rfl := follow_unique hfollow hfollow'
  have hsome' : (t'.entryAt top).isSome = true := by
    rw [hroot]
    rfl
  obtain ⟨hsome, hsize⟩ := (Sources.readable_iff ht htop).mp hreadable
  refine (Sources.readable_iff ht' (hconfined.keeps.locate htop hsome')).mpr ⟨hsome', ?_⟩
  intro names hdirectory hnames
  by_cases hold : t.entryAt (top ++ names) = some .directory
  · exact hsize names hold hnames
  · -- A new directory is around an output, and it was made by a path that the system took.
    obtain ⟨p, hp, q, hq, hlocate⟩ := hconfined.directories _ hdirectory hold
    obtain ⟨path, hrelative, hq⟩ := exists_relative_of_isAncestor hrelative hp hq
    obtain ⟨⟨⟩, hlimit, -⟩ := bind_eq_ok_iff.mp hlocate
    cases hcases : names with
    | nil => exact (checkPath_eq_ok_iff.mp hpath).2
    | cons first rest =>
      rw [← hcases]
      have hne : names ≠ [] := hcases ▸ List.cons_ne_nil first rest
      calc (s.root.below names).text.utf8ByteSize
          ≤ q.text.utf8ByteSize :=
            size_below_le hconfined.keeps.here hrelative hq htop hsome hlocate hne hold
        _ ≤ pathLimit := (checkPath_eq_ok_iff.mp hlimit).2

/-- **Building again.** If a build has succeeded and its outputs are below ignored directories, or
at other places that the patterns do not select, the next build finds the same source files and
reads the same texts. It reports the same and leaves the tree exactly as it is, provided that the
tree can still be read. It always can if the outputs are given by relative paths. Otherwise the
build may have made a directory in the project by a short path that is too long from the root, and
the next build stops there and changes nothing. -/
theorem build_again {report : BuildReport} (ht : t.root.Proper)
    (hbuild : (build config root options).outcome t = (.ok report, t')) {s : Sources}
    (hs : Sources.ofPatterns root config.content = .ok s)
    (hapart : ∀ p ∈ [config.cssPath root, config.scriptPath root], ∀ place,
      t'.Leads p place → s.IgnoresAt t place ∨ ¬ s.SelectsAt t place) :
    (s.Readable t' → (build config root options).outcome t' = (.ok report, t')) ∧
      (¬ s.Readable t' → ∃ path cause,
        (build config root options).outcome t' = (.error (.traversal path cause), t')) ∧
      (HasRelativeOutputs config → s.Readable t') := by
  have hsteps := (takes_build config root options).steps hbuild
  have ht' : t'.root.Proper := proper_of_steps hsteps ht
  obtain ⟨output, hcompile, hpublish, hreport⟩ := publish_of_build hbuild
  -- The second build starts from the tree of the first, which is proper and differs in outputs
  -- only.
  refine ⟨?_, build_of_not_readable ht' hs, ?_⟩
  · intro hreadable
    have hother : ∀ p ∈ outputPaths config root, ∀ place,
        t'.Leads p place → ¬ s.SelectsAt t place := by
      intro p hp place hplace
      rcases hapart p hp place hplace with hignored | hother
      · exact Sources.not_selectsAt_of_ignoresAt ht' hplace hignored
      · exact hother
    have hagain := compile_again ht ht' (confined_of_steps hsteps) hs hother hreadable hcompile
    exact build_of_compile hagain (publish_again ht' hpublish) hreport
  · -- The first build has read the tree, so it was readable then.
    intro hrelative
    obtain ⟨s', files, -, hs', hfiles, -, -⟩ := compile_eq_ok_iff.mp hcompile
    obtain rfl : s = s' := Except.ok.inj (hs.symm.trans hs')
    exact readable_again ht ht' (Sources.root_of_ofPatterns hs) hrelative
      ((Sources.discover_eq_ok_iff ht).mp hfiles).1 hpublish

/-- A page that refers to the width of an element, and outputs at the usual paths. -/
theorem build_again_at_standard_paths :
    let options : Options := ⟨false, false, ""⟩
    let t : FileTree := ⟨.directory
      (.cons "index.html" (.file "<p class='w[#box:width + 1px]'>".toUTF8) .nil), []⟩
    t.root.Proper ∧ ∃ report t',
      (build Config.standard ⟨"."⟩ options).outcome t = (.ok report, t') ∧
      report.scriptPath = some ⟨"./dist/HUHM.js"⟩ ∧
      (build Config.standard ⟨"."⟩ options).outcome t' = (.ok report, t') := by
  intro options t
  have ht : t.root.Proper := by decide +kernel
  have htop : (t.locate ⟨"."⟩).toOption = some [] := by decide +kernel
  -- The build is evaluated for the path of its script and the places of both outputs.
  have heval : (((build Config.standard ⟨"."⟩ options).outcome t).1.map
        BuildReport.scriptPath).toOption = some (some ⟨"./dist/HUHM.js"⟩) ∧
      ∀ p ∈ [Config.standard.cssPath ⟨"."⟩, Config.standard.scriptPath ⟨"."⟩],
        (((build Config.standard ⟨"."⟩ options).outcome t).2.target p).toOption.map
          (fun target => target.place.head?) = some (some "dist") := by decide +kernel
  generalize hbuild : (build Config.standard ⟨"."⟩ options).outcome t = built at heval
  obtain ⟨result, t'⟩ := built
  obtain ⟨hscript, houtputs⟩ := heval
  cases result with
  | error e => cases hscript
  | ok report =>
    obtain ⟨output, hcompile, -⟩ := publish_of_build hbuild
    obtain ⟨s, -, -, hs, -⟩ := compile_eq_ok_iff.mp hcompile
    have hroot : t.locate s.root = .ok [] := by
      rw [Sources.root_of_ofPatterns hs]
      generalize t.locate ⟨"."⟩ = located at htop
      cases located with
      | error e => cases htop
      | ok place => exact congrArg _ (Option.some.inj htop)
    -- Both outputs are in a directory that is ignored.
    have hapart : ∀ p ∈ [Config.standard.cssPath ⟨"."⟩, Config.standard.scriptPath ⟨"."⟩], ∀ place,
        t'.Leads p place → s.IgnoresAt t place ∨ ¬ s.SelectsAt t place := by
      intro p hp place hplace
      have hhead := houtputs p hp
      have hplace' := hplace.place_eq
      rw [Option.map_eq_some_iff] at hhead hplace'
      obtain ⟨target, htarget, hhead⟩ := hhead
      obtain ⟨target', htarget', rfl⟩ := hplace'
      obtain rfl : target = target' := Option.some.inj (htarget.symm.trans htarget')
      exact .inl ⟨[], target.place, hroot, rfl, "dist", List.mem_of_head? hhead, by decide⟩
    obtain ⟨hagain, -, hrelative⟩ := build_again ht hbuild hs hapart
    exact ⟨ht, report, t', rfl, Option.some.inj hscript, hagain (hrelative (by decide))⟩

end Project

end UtilityCss
