import UtilityCss.Proofs.Rebuild

/-!
# A root with a long path

A second build can fail where the first one has succeeded. The walk names a directory by the path of
the root and the names below it, and this path can be too long for the system, while the directory
was made by an absolute path of its own that is short. `rebuild_of_long_root` is about every such
root, and a root that is written with thousands of slashes is one
(`second_build_stops_at_long_path`).
-/

namespace UtilityCss

namespace Project

open FileTree

variable {t : FileTree}

/-- A path of slashes is the root, however many there are. -/
theorem steps_slashes (n : Nat) :
    Path.steps ⟨String.ofList (List.replicate (n + 1) '/')⟩ = [.root] := by
  -- Slashes alone cut a text into empty pieces.
  have hcut : ∀ k, Path.cutSlashes (List.replicate k '/') = List.replicate (k + 1) [] := by
    intro k
    induction k with
    | zero => rfl
    | succ k ih =>
      rw [List.replicate_succ, ← List.nil_append ('/' :: _), Path.cutSlashes_append, ih]
      rfl
  have hne : String.ofList (List.replicate (n + 1) '/') ≠ "" := by
    rw [Ne, String.ofList_eq_empty_iff]
    exact List.cons_ne_nil _ _
  have htext : Path.cutSlashes (String.ofList (List.replicate (n + 1) '/')).toList
      = List.replicate (n + 2) [] := by rw [String.toList_ofList, hcut]
  generalize String.ofList _ = text at hne htext ⊢
  rw [Path.steps, Path.pieces_eq_openPieces (p := ⟨text⟩) hne, htext]
  -- Only the first of the empty pieces stands for a step.
  show Path.Step.root :: ((List.replicate (n + 1) []).map Path.inner).filterMap Path.Piece.step = _
  rw [List.map_replicate, List.filterMap_replicate_of_none rfl]

/-- Each slash counts for its size. -/
theorem size_slashes (n : Nat) :
    (String.ofList (List.replicate n '/')).utf8ByteSize = n := by
  rw [String.utf8ByteSize_ofList]
  induction n with
  | zero => rfl
  | succ n ih =>
    rw [List.replicate_succ, String.utf8Len_cons, ih]
    rfl

/-- A joined path is at least as long as both of its parts. -/
theorem size_le_size_join {p q : Path} (hq : q.isAbsolute = false) :
    p.text.utf8ByteSize + q.text.utf8ByteSize ≤ (p.join q).text.utf8ByteSize := by
  unfold Path.join
  rw [hq, if_neg Bool.false_ne_true]
  split
  · rw [String.utf8ByteSize_append]
  · -- A slash is put between them, which adds to the length.
    rw [String.utf8ByteSize_append, String.utf8ByteSize_append]
    omega

/-- A path whose only step is the root leads to the top. -/
theorem locate_top {root : Path} (hsteps : root.steps = [.root]) (hpath : checkPath root = .ok ())
    (ht : t.entryAt [] = some .directory) : t.locate root = .ok [] := by
  refine bind_eq_ok_iff.mpr ⟨(), hpath, destination_eq_ok_iff.mpr ⟨?_, fun _ => ht⟩⟩
  rw [hsteps]
  rfl

/-- No source file is found in an empty tree. -/
theorem discover_empty {s : Sources} (hsteps : s.root.steps = [.root])
    (hpath : checkPath s.root = .ok ()) : s.discover ⟨.directory .nil, []⟩ = .ok [] := by
  have hfind : find ⟨.directory .nil, []⟩ s.root = .ok (.directory .nil) :=
    find_eq_ok_iff.mpr ⟨[], locate_top hsteps hpath rfl, rfl⟩
  unfold Sources.discover
  rw [hfind]
  -- The walk checks the root and finds no member to go on with.
  show ((checkPath s.root).mapError _ >>= fun _ => _) >>= (fun _ => _) = _
  rw [hpath]
  rfl

/-- What is published with an absolute path for the style sheet, which is empty, into an empty tree.
The path of the root does not matter then. -/
theorem publish_absolute (root : Path) :
    let config : Config := { Config.standard with content := ["*.html"], output := "/out/a.css" }
    ∃ t', (publish config root (Session.run config.vocabulary ⟨false, false, ""⟩ [])).outcome
        ⟨.directory .nil, []⟩ = (.ok (), t') ∧
      t'.entryAt ["out"] = some .directory ∧
      ∀ p ∈ [config.cssPath root, config.scriptPath root], ∀ place, t'.Leads p place →
        place ∈ [["out", "a.css"], ["out", "a.js"]] := by
  intro config
  have hcss : ∀ root, config.cssPath root = ⟨"/out/a.css"⟩ := fun root => if_pos (by decide)
  have hscript : ∀ root, config.scriptPath root = ⟨"/out/a.js"⟩ := by
    intro root
    unfold Config.scriptPath
    rw [hcss]
    show Path.withExtension ⟨"/out/a.css"⟩ "js" = _
    decide +kernel
  -- The root is only used to resolve the two output paths.
  have hroot : ∀ output, publish config root output = publish config ⟨"/"⟩ output := by
    intro output
    unfold publish
    rw [hcss, hscript, hcss, hscript]
  rw [hroot]
  -- Now nothing depends on the root, and what is published can be evaluated.
  have heval : ∃ published, published = (publish config ⟨"/"⟩
        (Session.run config.vocabulary ⟨false, false, ""⟩ [])).outcome ⟨.directory .nil, []⟩ ∧
      published.1.toOption = some () ∧
      (published.2.locate ⟨"/out"⟩).toOption = some ["out"] ∧
      published.2.hasDirectory ⟨"/out"⟩ = true ∧
      ∀ p ∈ [⟨"/out/a.css"⟩, ⟨"/out/a.js"⟩], (published.2.target p).toOption.map Target.place
        ∈ [some ["out", "a.css"], some ["out", "a.js"]] := ⟨_, rfl, by decide +kernel⟩
  obtain ⟨⟨result, t'⟩, hpublished, hok, hlocate, hthere, hplaces⟩ := heval
  cases result with
  | error e => cases hok
  | ok =>
    refine ⟨t', hpublished.symm, ?_, ?_⟩
    · -- What was evaluated are tests, and they tell what the entries are.
      obtain ⟨place, hplace, hentry⟩ := hasDirectory_iff.mp hthere
      rw [hplace] at hlocate
      rwa [← Option.some.inj hlocate]
    · intro p hp place hplace
      rw [hcss, hscript] at hp
      have hmem := hplaces p hp
      rw [hplace.place_eq] at hmem
      simpa using hmem

/-- An empty tree, built from a root whose path is so long that no path below it can be handed over.
The outputs have short paths of their own. The first build makes a directory for them, and the
second one cannot enter it. -/
theorem rebuild_of_long_root {root : Path} (hsteps : root.steps = [.root])
    (hpath : checkPath root = .ok ()) (hlong : pathLimit < root.text.utf8ByteSize + 3) :
    let config : Config := { Config.standard with content := ["*.html"], output := "/out/a.css" }
    let options : Options := ⟨false, false, ""⟩
    let t : FileTree := ⟨.directory .nil, []⟩
    ∃ s report t', Sources.ofPatterns root config.content = .ok s ∧
      (build config root options).outcome t = (.ok report, t') ∧
      (∀ p ∈ [config.cssPath root, config.scriptPath root], ∀ place, t'.Leads p place →
        ¬ s.SelectsAt t place) ∧
      ∃ path cause,
        (build config root options).outcome t' = (.error (.traversal path cause), t') := by
  intro config options t
  have ht : t.root.Proper := by decide
  have htop : t.locate root = .ok [] := locate_top hsteps hpath rfl
  obtain ⟨s, hs, hroot, hpatterns⟩ : ∃ s, Sources.ofPatterns root config.content = .ok s ∧
      s.root = root ∧ s.patterns = [[.star, .literal '.', .literal 'h', .literal 't', .literal 'm',
        .literal 'l']] := ⟨⟨root, _⟩, rfl, rfl, rfl⟩
  subst hroot
  have hcompile : compile config s.root options t
      = .ok (Session.run config.vocabulary options []) :=
    compile_eq_ok_iff.mpr ⟨s, [], [], hs, discover_empty hsteps hpath, rfl, rfl⟩
  obtain ⟨t', hpublish, hout, hplaces⟩ := publish_absolute s.root
  refine ⟨s, _, t', hs, build_of_compile hcompile hpublish rfl, ?_, ?_⟩
  · -- The pattern selects files of the root itself, and the outputs are one directory further down.
    have hnot : ∀ names ∈ [["out", "a.css"], ["out", "a.js"]],
        (∀ name ∈ names, Path.IsFileName name) ∧
          Glob.matchesPath [.star, .literal '.', .literal 'h', .literal 't', .literal 'm',
            .literal 'l'] (String.ofList (List.intercalate ['/'] (names.map String.toList)))
            = false := by decide +kernel
    rintro p hp place hplace ⟨top, names, htop', rfl, hselects⟩
    obtain rfl : [] = top := Except.ok.inj (htop.symm.trans htop')
    obtain ⟨hnames, hmatch⟩ := hnot names (hplaces p hp _ hplace)
    rw [Sources.selects_below (text_ne_of_locate htop) hnames, hpatterns, List.any_cons, hmatch,
      Bool.false_or, List.any_nil, Bool.and_false] at hselects
    cases hselects
  · -- The new directory is one that the walk enters, and its path is too long.
    have hsteps' := (takes_publish config s.root _).steps hpublish
    have ht' : t'.root.Proper := proper_of_steps hsteps' ht
    have htop' := locate_top hsteps hpath ((confined_of_steps hsteps').keeps.directories [] rfl)
    refine build_of_not_readable ht' hs fun hreadable => ?_
    have hsize := ((Sources.readable_iff ht' htop').mp hreadable).2 ["out"] hout (by decide)
    have hjoin : s.root.text.utf8ByteSize + 3 ≤ (s.root.below ["out"]).text.utf8ByteSize :=
      size_le_size_join (p := s.root) (q := ⟨"out"⟩) (by decide)
    exact absurd (hjoin.trans hsize) (Nat.not_le.mpr hlong)

/-- **A second build can fail.** The root is written with thousands of slashes, and the style sheet
goes to a directory below it that has a short path. -/
theorem second_build_stops_at_long_path :
    let root : Path := ⟨String.ofList (List.replicate 4094 '/')⟩
    let config : Config := { Config.standard with content := ["*.html"], output := "/out/a.css" }
    let options : Options := ⟨false, false, ""⟩
    let t : FileTree := ⟨.directory .nil, []⟩
    config.isValid = true ∧ t.root.Proper ∧
      ∃ s report t', Sources.ofPatterns root config.content = .ok s ∧
        (build config root options).outcome t = (.ok report, t') ∧
        (∀ p ∈ [config.cssPath root, config.scriptPath root], ∀ place, t'.Leads p place →
          ¬ s.SelectsAt t place) ∧
        ∃ path cause,
          (build config root options).outcome t' = (.error (.traversal path cause), t') := by
  intro root config options t
  have hsize : root.text.utf8ByteSize = 4094 := size_slashes 4094
  -- The path is one byte below the limit, so the root itself can be handed over.
  have hpath : checkPath root = .ok () := by
    refine checkPath_eq_ok_iff.mpr ⟨checkText_eq_ok_iff.mpr ⟨?_, ?_⟩, ?_⟩
    · rw [String.toList_ofList]
      exact fun hnul => absurd (List.eq_of_mem_replicate hnul) (by decide)
    · intro hempty
      rw [hempty] at hsize
      cases hsize
    · rw [hsize]
      decide
  refine ⟨by decide +kernel, by decide, rebuild_of_long_root (steps_slashes 4093) hpath ?_⟩
  rw [hsize]
  decide

end Project

end UtilityCss
