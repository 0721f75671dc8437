import UtilityCss.Sources
import UtilityCss.Proofs.PathOrder
import UtilityCss.Proofs.ProperTrees

/-!
# Finding the source files

A walk gives paths, but which files it meets and in which order is a matter of names alone. So a
walk is first seen as a list of places (`Node.places`), each a list of names from its start:

* `mem_places` — it meets the files that are in no directory to be skipped;
* `pairwise_places` — it meets them in the order of their names, name by name.

Two filters keep ignored directories out: the walk does not enter them, and a path that goes through
one is not selected. They look at different things, the walk at directories below its start and the
selection at every name on the way from it, and a file can have the name of an ignored directory
too. But whatever the walk leaves out is not selected anyway (`not_ignored_of_selects`), so the walk
could as well enter everything (`discover_selected`).
-/

namespace UtilityCss

open FileTree (IsMemberName)

/-! ### Places -/

mutual

/-- The places of the files at and below a node, in the order of a walk. -/
def Node.places (skip : String → Bool) : Node → List (List String)
  | .file _ => [[]]
  | .directory members => members.places skip

/-- The places of the files below the members of a directory. -/
def Members.places (skip : String → Bool) : Members → List (List String)
  | .nil => []
  | .cons name node rest =>
    (if node.isDirectory && skip name then [] else (node.places skip).map (name :: ·))
      ++ rest.places skip

end

mutual

theorem Node.filePaths_eq (skip : String → Bool) : ∀ (path : Path) (node : Node),
    node.filePaths skip path = (node.places skip).map path.below
  -- A walk builds the path on its way down; a place is the names that it adds.
  | _, .file _ => rfl
  | path, .directory members => Members.filePaths_eq skip path members

theorem Members.filePaths_eq (skip : String → Bool) : ∀ (path : Path) (ms : Members),
    ms.filePaths skip path = (ms.places skip).map path.below
  | _, .nil => rfl
  | path, .cons name node rest => by
    rw [Members.filePaths, Members.places, List.map_append, Members.filePaths_eq skip path rest,
      Node.filePaths_eq skip _ node]
    split
    · rfl
    · rw [List.map_map]
      rfl

end

/-- A place below a directory starts with the name of a member. -/
theorem Members.exists_of_mem_places {skip : String → Bool} {names : List String} :
    ∀ {ms : Members}, names ∈ ms.places skip → ∃ name rest, names = name :: rest ∧ name ∈ ms.names
  | .nil, h => by cases h
  | .cons n node rest, h => by
    rw [Members.places] at h
    rcases List.mem_append.mp h with h | h
    · split at h
      · cases h
      · obtain ⟨tail, -, rfl⟩ := List.mem_map.mp h
        exact ⟨n, tail, rfl, List.mem_cons_self⟩
    · obtain ⟨name, tail, rfl, hname⟩ := Members.exists_of_mem_places h
      exact ⟨name, tail, rfl, List.mem_cons_of_mem _ hname⟩

namespace Node

/-- A member is passed over if it is a directory to be skipped. -/
theorem cons_mem_unless {skip : String → Bool} {node : Node} {name other : String}
    {rest : List String} {places : List (List String)} :
    other :: rest ∈ (if node.isDirectory && skip name then [] else places.map (name :: ·)) ↔
      other = name ∧ rest ∈ places ∧ (node.isDirectory = true → skip name = false) := by
  split
  · next hskip =>
    rw [Bool.and_eq_true] at hskip
    simp [hskip.1, hskip.2]
  · next hskip =>
    -- A file is not passed over, whatever its name is.
    have henter : node.isDirectory = true → skip name = false := by
      intro hdirectory
      rw [hdirectory, Bool.true_and] at hskip
      exact Bool.not_eq_true _ ▸ hskip
    rw [List.mem_map]
    constructor
    · rintro ⟨tail, htail, heq⟩
      cases heq
      exact ⟨rfl, htail, henter⟩
    · rintro ⟨rfl, hrest, -⟩
      exact ⟨rest, hrest, rfl⟩

/-- The names of the directories around a file are those before the last one, so the name of a
member counts if it is a directory itself. -/
theorem forall_dropLast_cons {skip : String → Bool} {node : Node} {name : String}
    {rest : List String} (hfile : ∃ content, node.entryAt rest = some (.file content)) :
    (∀ other ∈ (name :: rest).dropLast, skip other = false) ↔
      (node.isDirectory = true → skip name = false) ∧
        ∀ other ∈ rest.dropLast, skip other = false := by
  obtain ⟨content, hfile⟩ := hfile
  -- A file ends the place here, and below a directory it goes on.
  cases node with
  | file content' =>
    cases rest with
    | nil => simp [isDirectory]
    | cons first rest => cases hfile
  | directory members =>
    cases rest with
    | nil => cases hfile
    | cons first rest =>
      rw [List.dropLast_cons_cons, List.forall_mem_cons]
      exact and_congr_left fun _ => ⟨fun h _ => h, fun h => h rfl⟩

end Node

mutual

/-- **A walk meets the files** that are in no directory to be skipped. -/
theorem Node.mem_places (skip : String → Bool) : ∀ {node : Node}, node.Proper →
    ∀ names, names ∈ node.places skip ↔
      (∃ content, node.entryAt names = some (.file content)) ∧
        ∀ name ∈ names.dropLast, skip name = false
  | .file content, _, names => by
    rw [Node.places, List.mem_singleton]
    constructor
    · rintro rfl
      exact ⟨⟨content, rfl⟩, List.forall_mem_nil _⟩
    · rintro ⟨⟨content', hfile⟩, -⟩
      cases names with
      | nil => rfl
      | cons name names => cases hfile
  | .directory _, h, names => Members.mem_places skip h names

theorem Members.mem_places (skip : String → Bool) : ∀ {ms : Members}, ms.Proper →
    ∀ names, names ∈ ms.places skip ↔
      (∃ content, (Node.directory ms).entryAt names = some (.file content)) ∧
        ∀ name ∈ names.dropLast, skip name = false
  | .nil, _, names => by
    rw [Members.places]
    constructor
    · intro h
      cases h
    · rintro ⟨⟨content, hfile⟩, -⟩
      cases names with
      | nil => cases hfile
      | cons name names => cases hfile
  | .cons n node rest, h, [] => by
    constructor
    · intro hmem
      obtain ⟨name, tail, hnil, -⟩ := Members.exists_of_mem_places hmem
      cases hnil
    · rintro ⟨⟨content, hfile⟩, -⟩
      cases hfile
  | .cons n node rest, h, name :: tail => by
    have hnode := Node.mem_places skip h.2.2.1 tail
    have hrest := Members.mem_places skip h.2.2.2 (name :: tail)
    rw [Members.places, List.mem_append, Node.cons_mem_unless, hnode, hrest, Node.entryAt_cons,
      Node.entryAt_cons, Members.get?]
    by_cases hname : n = name
    · -- The file is below this member, and not below one of the same name after it.
      subst hname
      rw [if_pos rfl, h.get?_rest, Option.bind_some, Option.bind_none]
      constructor
      · rintro (⟨-, ⟨hfile, hdirectories⟩, henter⟩ | ⟨⟨content, hnone⟩, -⟩)
        · exact ⟨hfile, (Node.forall_dropLast_cons hfile).mpr ⟨henter, hdirectories⟩⟩
        · cases hnone
      · rintro ⟨hfile, hall⟩
        obtain ⟨henter, hdirectories⟩ := (Node.forall_dropLast_cons hfile).mp hall
        exact .inl ⟨rfl, ⟨hfile, hdirectories⟩, henter⟩
    · rw [if_neg hname]
      constructor
      · rintro (⟨heq, -⟩ | hbelow)
        · exact absurd heq.symm hname
        · exact hbelow
      · exact .inr

end

mutual

/-- **A walk goes in the order of names.** -/
theorem Node.pairwise_places (skip : String → Bool) : ∀ {node : Node}, node.Proper →
    (node.places skip).Pairwise (List.Lex (· < ·))
  | .file _, _ => List.pairwise_singleton _ _
  | .directory _, h => Members.pairwise_places skip h

theorem Members.pairwise_places (skip : String → Bool) : ∀ {ms : Members}, ms.Proper →
    (ms.places skip).Pairwise (List.Lex (· < ·))
  | .nil, _ => .nil
  | .cons n node rest, h => by
    rw [Members.places, List.pairwise_append]
    refine ⟨?_, Members.pairwise_places skip h.2.2.2, ?_⟩
    · split
      · exact .nil
      · exact (Node.pairwise_places skip h.2.2.1).map _ fun _ _ hlex => .cons hlex
    · intro names hnames names' hnames'
      obtain ⟨name', tail', rfl, hname'⟩ := Members.exists_of_mem_places hnames'
      split at hnames
      · cases hnames
      · -- The first names decide already: those of later members come after this one.
        obtain ⟨tail, -, rfl⟩ := List.mem_map.mp hnames
        exact .rel (h.2.1 name' hname')

end

mutual

/-- **A walk enters the directories** that are not to be skipped, nor in one that is. -/
theorem Node.mem_directoryPaths (skip : String → Bool) : ∀ {node : Node}, node.Proper →
    ∀ path q, q ∈ node.directoryPaths skip path ↔
      ∃ names, node.entryAt names = some .directory ∧ (∀ name ∈ names, skip name = false) ∧
        q = path.below names
  | .file _, _, path, q => by
    constructor
    · intro h
      cases h
    · rintro ⟨names, hdirectory, -⟩
      cases names with
      | nil => cases hdirectory
      | cons name names => cases hdirectory
  | .directory members, h, path, q => by
    rw [Node.directoryPaths, List.mem_cons, Members.mem_directoryPaths skip h path q]
    constructor
    · -- The directory itself comes first, then those below its members.
      rintro (rfl | ⟨name, rest, hbelow⟩)
      · exact ⟨[], rfl, List.forall_mem_nil _, rfl⟩
      · exact ⟨name :: rest, hbelow⟩
    · rintro ⟨names, hdirectory, hnames, rfl⟩
      cases names with
      | nil => exact .inl rfl
      | cons name rest => exact .inr ⟨name, rest, hdirectory, hnames, rfl⟩

theorem Members.mem_directoryPaths (skip : String → Bool) : ∀ {ms : Members}, ms.Proper →
    ∀ path q, q ∈ ms.directoryPaths skip path ↔
      ∃ name rest, (Node.directory ms).entryAt (name :: rest) = some .directory ∧
        (∀ other ∈ name :: rest, skip other = false) ∧ q = path.below (name :: rest)
  | .nil, _, path, q => by
    constructor
    · intro h
      cases h
    · rintro ⟨name, rest, hdirectory, -⟩
      cases hdirectory
  | .cons n node rest, h, path, q => by
    have hrest := Members.mem_directoryPaths skip h.2.2.2 path q
    have hnode := Node.mem_directoryPaths skip h.2.2.1 (path.join ⟨n⟩) q
    rw [Members.directoryPaths, List.mem_append, hrest]
    constructor
    · rintro (hmem | ⟨name, tail, hdirectory, hnames, rfl⟩)
      · split at hmem
        · cases hmem
        · next hskip =>
          obtain ⟨names, hdirectory, hnames, rfl⟩ := hnode.mp hmem
          refine ⟨n, names, ?_, List.forall_mem_cons.mpr ⟨?_, hnames⟩, rfl⟩
          · rw [Node.entryAt_cons, Members.get?, if_pos rfl, Option.bind_some, hdirectory]
          · exact Bool.not_eq_true _ ▸ hskip
      · refine ⟨name, tail, ?_, hnames, rfl⟩
        -- A later member is not hidden by this one, since it has another name.
        have hne : n ≠ name := by
          rintro rfl
          rw [Node.entryAt_cons, h.get?_rest] at hdirectory
          cases hdirectory
        rw [Node.entryAt_cons, Members.get?, if_neg hne, ← Node.entryAt_cons, hdirectory]
    · rintro ⟨name, tail, hdirectory, hnames, rfl⟩
      rw [Node.entryAt_cons, Members.get?] at hdirectory
      by_cases hname : n = name
      · subst hname
        rw [if_pos rfl, Option.bind_some] at hdirectory
        obtain ⟨hskip, hnames⟩ := List.forall_mem_cons.mp hnames
        rw [hskip, if_neg Bool.false_ne_true]
        exact .inl (hnode.mpr ⟨tail, hdirectory, hnames, rfl⟩)
      · rw [if_neg hname, ← Node.entryAt_cons] at hdirectory
        exact .inr ⟨name, tail, hdirectory, hnames, rfl⟩

end

/-! ### Selected paths -/

namespace Sources

variable {s : Sources} {t : FileTree} {node : Node}

/-- Below the root, the names on the way decide whether a path is selected. -/
theorem selects_below (hroot : s.root.text ≠ "") {names : List String}
    (hnames : ∀ name ∈ names, Path.IsFileName name) :
    s.selects (s.root.below names) = (!names.any ignoredNames.contains &&
      s.patterns.any fun tokens => Glob.matchesPath tokens
        (String.ofList (List.intercalate ['/'] (names.map String.toList)))) := by
  unfold selects
  rw [Path.relativeTo?_below hroot hnames, Option.getD_some]
  dsimp only
  rw [Path.steps_of_names hnames, List.any_map]
  rfl

/-- **A selected path goes through no ignored directory**, and to no file with such a name. -/
theorem not_ignored_of_selects (hroot : s.root.text ≠ "") {names : List String}
    (hnames : ∀ name ∈ names, Path.IsFileName name) (h : s.selects (s.root.below names) = true) :
    ∀ name ∈ names, ignoredNames.contains name = false := by
  rw [selects_below hroot hnames, Bool.and_eq_true, Bool.not_eq_true', List.any_eq_false] at h
  intro name hname
  exact Bool.not_eq_true _ ▸ h.1 name hname

/-- **A tree can be read from the root**: the root is there, and no directory that a walk from it
enters has a path that is too long. -/
def Readable (s : Sources) (t : FileTree) : Prop :=
  ∃ node, t.find s.root = .ok node ∧
    ∀ path ∈ node.directoryPaths ignoredNames.contains s.root,
      path.text.utf8ByteSize ≤ FileTree.pathLimit

/-- A walk fails if and only if it comes to a directory whose path is too long. -/
theorem discover_eq_ok_iff (ht : t.root.Proper) {files : List Path} :
    s.discover t = .ok files ↔ s.Readable t ∧ ∃ node, t.find s.root = .ok node ∧
      files = (node.filePaths ignoredNames.contains s.root).filter s.selects := by
  -- The paths that are checked go down from the root through names of members, and the root itself
  -- has been found. So only their length is left to be checked.
  have hcheck : ∀ node, t.find s.root = .ok node →
      ((node.directoryPaths ignoredNames.contains s.root).forM
          (fun path => (FileTree.checkPath path).mapError (Failure.traversal path)) = .ok () ↔
        ∀ path ∈ node.directoryPaths ignoredNames.contains s.root,
          path.text.utf8ByteSize ≤ FileTree.pathLimit) := by
    intro node hnode
    rw [forM_eq_ok_iff]
    refine forall₂_congr fun path hpath => ?_
    obtain ⟨names, hdirectory, -, rfl⟩ :=
      (Node.mem_directoryPaths _ (FileTree.proper_of_find ht hnode) _ _).mp hpath
    obtain ⟨below, hbelow, -⟩ := Option.map_eq_some_iff.mp hdirectory
    rw [mapError_eq_ok_iff, FileTree.checkPath_below (FileTree.checkPath_of_find hnode)
      ((FileTree.proper_of_find ht hnode).of_get? hbelow).1]
  unfold discover
  rw [bind_eq_ok_iff]
  constructor
  · rintro ⟨node, hnode, h⟩
    obtain ⟨⟨⟩, hforM, h⟩ := bind_eq_ok_iff.mp h
    rw [mapError_eq_ok_iff] at hnode
    exact ⟨⟨node, hnode, (hcheck node hnode).mp hforM⟩, node, hnode, (Except.ok.inj h).symm⟩
  · rintro ⟨⟨node, hnode, hsize⟩, node', hnode', rfl⟩
    obtain rfl : node = node' := Except.ok.inj (hnode.symm.trans hnode')
    exact ⟨node, mapError_eq_ok_iff.mpr hnode,
      bind_eq_ok_iff.mpr ⟨(), (hcheck node hnode).mpr hsize, rfl⟩⟩

/-! ### The source files -/

section Files

variable (hroot : s.root.text ≠ "") (hnode : node.Proper)
include hnode

/-- The names on the way to a file are file names. -/
theorem isFileName_of_file {names : List String} {content : ByteArray}
    (hfile : node.entryAt names = some (.file content)) :
    ∀ name ∈ names, Path.IsFileName name := by
  intro name hname
  exact ((hnode.of_get? (Node.get?_of_entryAt_eq_file hfile)).1 name hname).toIsFileName

include hroot

/-- A walk gives paths in their order. -/
theorem pairwise_filePaths (skip : String → Bool) :
    (node.filePaths skip s.root).Pairwise Path.Before := by
  rw [Node.filePaths_eq, List.pairwise_map]
  -- Places are in the order of names, and paths are compared name by name.
  refine (Node.pairwise_places skip hnode).imp_of_mem ?_
  intro names names' hmem hmem' hlex
  obtain ⟨⟨content, hfile⟩, -⟩ := (Node.mem_places skip hnode names).mp hmem
  obtain ⟨⟨content', hfile'⟩, -⟩ := (Node.mem_places skip hnode names').mp hmem'
  exact Path.before_below hroot (isFileName_of_file hnode hfile) (isFileName_of_file hnode hfile')
    hlex

/-- **A walk that skips nothing but ignored directories** meets every file with a selected path. -/
theorem mem_filter_filePaths {skip : String → Bool}
    (hskip : ∀ name, skip name = true → ignoredNames.contains name = true) {path : Path} :
    path ∈ (node.filePaths skip s.root).filter s.selects ↔
      ∃ names content, node.entryAt names = some (.file content) ∧ path = s.root.below names ∧
        s.selects path = true := by
  rw [Node.filePaths_eq, List.mem_filter, List.mem_map]
  constructor
  · rintro ⟨⟨names, hmem, rfl⟩, hselects⟩
    obtain ⟨⟨content, hfile⟩, -⟩ := (Node.mem_places skip hnode names).mp hmem
    exact ⟨names, content, hfile, rfl, hselects⟩
  · rintro ⟨names, content, hfile, rfl, hselects⟩
    refine ⟨⟨names, (Node.mem_places skip hnode names).mpr ⟨⟨content, hfile⟩, ?_⟩, rfl⟩, hselects⟩
    intro name hname
    have hnot := not_ignored_of_selects hroot (isFileName_of_file hnode hfile) hselects name
      (List.dropLast_subset _ hname)
    -- A name that is skipped would be an ignored one.
    cases hentered : skip name with
    | false => rfl
    | true => exact absurd (hskip name hentered) (hnot ▸ Bool.false_ne_true)

/-- Skipping ignored directories does not change what is selected. -/
theorem filter_filePaths_ignored :
    (node.filePaths ignoredNames.contains s.root).filter s.selects
      = (node.filePaths (fun _ => false) s.root).filter s.selects := by
  -- Both lists are in order, so it is enough that they have the same elements.
  refine Path.eq_of_pairwise_before ((pairwise_filePaths hroot hnode _).filter _)
    ((pairwise_filePaths hroot hnode _).filter _) fun path => ?_
  rw [mem_filter_filePaths hroot hnode fun _ h => h,
    mem_filter_filePaths hroot hnode fun _ h => absurd h Bool.false_ne_true]

end Files

section Discovered

variable {files : List Path} (ht : t.root.Proper) (hfiles : s.discover t = .ok files)
include ht hfiles

/-- The source files come in the order of their paths. -/
theorem pairwise_discover : files.Pairwise Path.Before := by
  obtain ⟨-, node, hfind, rfl⟩ := (discover_eq_ok_iff ht).mp hfiles
  exact (pairwise_filePaths (FileTree.text_ne_of_find hfind) (FileTree.proper_of_find ht hfind)
    _).filter _

/-- **What is found, by its place in the tree.** -/
theorem mem_discover_iff {top : List String} (htop : t.locate s.root = .ok top) {path : Path} :
    path ∈ files ↔ ∃ names content, t.entryAt (top ++ names) = some (.file content) ∧
      path = s.root.below names ∧ s.selects path = true := by
  obtain ⟨-, node, hfind, rfl⟩ := (discover_eq_ok_iff ht).mp hfiles
  rw [mem_filter_filePaths (FileTree.text_ne_of_find hfind) (FileTree.proper_of_find ht hfind)
    fun _ h => h]
  obtain ⟨top', htop', hget⟩ := FileTree.find_eq_ok_iff.mp hfind
  obtain rfl : top = top' := Except.ok.inj (htop.symm.trans htop')
  simp only [FileTree.entryAt_append hget]

end Discovered

/-- **Whether a tree can be read**, by the places of its directories. -/
theorem readable_iff (ht : t.root.Proper) {top : List String} (htop : t.locate s.root = .ok top) :
    s.Readable t ↔ (t.entryAt top).isSome = true ∧
      ∀ names, t.entryAt (top ++ names) = some .directory →
        (∀ name ∈ names, ignoredNames.contains name = false) →
        (s.root.below names).text.utf8ByteSize ≤ FileTree.pathLimit := by
  constructor
  · rintro ⟨node, hfind, hsize⟩
    obtain ⟨top', htop', hget⟩ := FileTree.find_eq_ok_iff.mp hfind
    obtain rfl : top = top' := Except.ok.inj (htop.symm.trans htop')
    refine ⟨?_, ?_⟩
    · rw [FileTree.entryAt_eq_map, hget]
      rfl
    · intro names hdirectory hnames
      rw [FileTree.entryAt_append hget] at hdirectory
      exact hsize _ ((Node.mem_directoryPaths _ (FileTree.proper_of_find ht hfind) _ _).mpr
        ⟨names, hdirectory, hnames, rfl⟩)
  · rintro ⟨hsome, hsize⟩
    rw [FileTree.entryAt_eq_map, Option.isSome_map, Option.isSome_iff_exists] at hsome
    obtain ⟨node, hget⟩ := hsome
    have hfind : t.find s.root = .ok node := FileTree.find_eq_ok_iff.mpr ⟨top, htop, hget⟩
    refine ⟨node, hfind, ?_⟩
    intro path hpath
    obtain ⟨names, hdirectory, hnames, rfl⟩ :=
      (Node.mem_directoryPaths _ (FileTree.proper_of_find ht hfind) _ _).mp hpath
    rw [← FileTree.entryAt_append hget] at hdirectory
    exact hsize names hdirectory hnames

/-- **The source files are the files with a selected path**, whether or not ignored directories are
entered, each of them once and in the order of their paths. -/
theorem discover_selected (ht : t.root.Proper) (hreadable : s.Readable t) :
    ∃ node files, t.find s.root = .ok node ∧ s.discover t = .ok files ∧
      files = (node.filePaths (fun _ => false) s.root).filter s.selects ∧
      (∀ path, path ∈ files ↔ (∃ names content, node.get? names = some (.file content) ∧
        path = s.root.below names) ∧ s.selects path = true) ∧
      files.Pairwise Path.Before ∧ files.Nodup := by
  obtain ⟨node, hfind, -⟩ := id hreadable
  have hnode : node.Proper := FileTree.proper_of_find ht hfind
  have hroot : s.root.text ≠ "" := FileTree.text_ne_of_find hfind
  have hsorted := (pairwise_filePaths hroot hnode fun _ => false).filter s.selects
  refine ⟨node, _, hfind, (discover_eq_ok_iff ht).mpr ⟨hreadable, node, hfind, rfl⟩,
    filter_filePaths_ignored hroot hnode, ?_, ?_, ?_⟩
  · intro path
    rw [mem_filter_filePaths hroot hnode fun _ h => h]
    constructor
    · rintro ⟨names, content, hfile, rfl, hselects⟩
      exact ⟨⟨names, content, Node.entryAt_eq_file_iff.mp hfile, rfl⟩, hselects⟩
    · rintro ⟨⟨names, content, hfile, rfl⟩, hselects⟩
      exact ⟨names, content, Node.entryAt_eq_file_iff.mpr hfile, rfl, hselects⟩
  · rw [filter_filePaths_ignored hroot hnode]
    exact hsorted
  · rw [filter_filePaths_ignored hroot hnode]
    -- The order is strict, so no path comes twice.
    refine hsorted.imp ?_
    rintro path _ hbefore rfl
    exact Path.before_irrefl path hbefore

/-- A project that lies in an ignored directory itself, with a directory and a file that have
ignored names, and a file whose name goes on where that of a directory ends. -/
theorem discover_below_ignored_root :
    let page : Node := .file "<p>".toUTF8
    let site : Node := .directory
      (.cons "a" (.directory (.cons "b.html" page .nil))
        (.cons "a.html" page
          (.cons "dist" page
            (.cons "lib" (.directory (.cons "node_modules"
              (.directory (.cons "c.html" page .nil)) .nil)) .nil))))
    let t : FileTree := ⟨.directory (.cons "dist" (.directory (.cons "site" site .nil)) .nil), []⟩
    let s : Sources := ⟨⟨"dist/site"⟩, [[.leading, .star, .literal '.', .star]]⟩
    t.root.Proper ∧ s.Readable t ∧ ∃ node files, t.find s.root = .ok node ∧
      s.discover t = .ok files ∧
      files = (node.filePaths (fun _ => false) s.root).filter s.selects ∧
      files.Pairwise Path.Before ∧
      files = [⟨"dist/site/a/b.html"⟩, ⟨"dist/site/a.html"⟩] := by
  intro page site t s
  have ht : t.root.Proper := by decide +kernel
  have hfiles : (s.discover t).toOption
      = some [⟨"dist/site/a/b.html"⟩, ⟨"dist/site/a.html"⟩] := by decide +kernel
  have hdiscover : s.discover t = .ok [⟨"dist/site/a/b.html"⟩, ⟨"dist/site/a.html"⟩] := by
    generalize s.discover t = result at hfiles
    cases result with
    | error => nomatch hfiles
    | ok => exact congrArg _ (Option.some.inj hfiles)
  have hreadable : s.Readable t := ((discover_eq_ok_iff ht).mp hdiscover).1
  obtain ⟨node, files, hnode, hok, hwalk, -, hsorted, -⟩ := discover_selected ht hreadable
  exact ⟨ht, hreadable, node, files, hnode, hok, hwalk, hsorted,
    Except.ok.inj (hok.symm.trans hdiscover)⟩

end Sources

end UtilityCss
