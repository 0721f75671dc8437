import UtilityCss.Proofs.Entries

/-!
# Changes at one place

Files are written and removed and directories are made at one place (`FileTree.Sets`). Each of the
operations is described once, by what must hold when it succeeds:

* `write_eq_ok_iff`, `remove_eq_ok_iff`, `makeDirectory_eq_ok_iff` — when an operation succeeds, and
  which tree it gives;
* `sets_of_write`, `sets_of_remove`, `sets_of_makeDirectory` — one place changes, and no directory
  was there.

So no operation loses a directory (`Sets.keeps`), and all paths lead where they led before.
-/

namespace UtilityCss

namespace FileTree

/-- **The second tree is the first one with another entry at a place.** -/
structure Sets (t t' : FileTree) (place : List String) (entry : Option Entry) : Prop where
  here : t'.here = t.here
  entryAt : ∀ other, t'.entryAt other = if other = place then entry else t.entryAt other

/-- A change at a place where no directory was loses none. -/
theorem Sets.keeps {t t' : FileTree} {place : List String} {entry : Option Entry}
    (h : t.Sets t' place entry) (hplace : t.entryAt place ≠ some .directory) : t.Keeps t' := by
  refine ⟨h.here, ?_⟩
  intro other hother
  -- A directory is at another place than the one that changes.
  have hne : other ≠ place := by
    rintro rfl
    exact hplace hother
  rw [h.entryAt other, if_neg hne, hother]

variable {t t' : FileTree} {p : Path} {directory : List String} {name : String}

/-- Putting in a node is a change at one place, if the node has no members. -/
theorem sets_put {node : Node} (hdirectory : t.entryAt directory = some .directory)
    (hold : t.entryAt (directory ++ [name]) ≠ some .directory)
    (hnode : ∀ m rest, node.entryAt (m :: rest) = none) :
    t.Sets (t.put directory name node) (directory ++ [name]) (some node.entry) := by
  have hnew : ∀ node' ∈ some node, ∀ m rest, node'.entryAt (m :: rest) = none := by
    intro node' hmem
    cases hmem
    exact hnode
  exact ⟨rfl, fun other => Node.entryAt_modifyMembers (Members.get?_insert name node) hnew other
    hdirectory hold⟩

/-- Taking out what is not a directory is a change at one place. -/
theorem sets_drop (hdirectory : t.entryAt directory = some .directory)
    (hold : t.entryAt (directory ++ [name]) ≠ some .directory) :
    t.Sets (t.drop directory name) (directory ++ [name]) none := by
  have hnew : ∀ node ∈ (none : Option Node), ∀ m rest, node.entryAt (m :: rest) = none := by
    intro node hmem
    cases hmem
  exact ⟨rfl, fun other => Node.entryAt_modifyMembers (Members.get?_erase name) hnew other
    hdirectory hold⟩

/-- **A file is written** where its path names a place without a directory. -/
theorem write_eq_ok_iff {content : ByteArray} :
    t.write p content = .ok t' ↔ ∃ directory name, t.Names p directory name ∧
      t.entryAt (directory ++ [name]) ≠ some .directory ∧
      t' = t.put directory name (.file content) := by
  constructor
  · intro h
    obtain ⟨target, htarget, h⟩ := bind_eq_ok_iff.mp h
    cases target with
    | directory place => cases h
    | member directory name slash =>
      cases slash with
      | true =>
        -- A file is not written by a path with a slash at its end.
        cases h
      | false =>
        obtain ⟨⟨⟩, hname, h⟩ := bind_eq_ok_iff.mp h
        refine ⟨directory, name, ⟨htarget, hname⟩, ?_, ?_⟩
        · -- A directory that is there already would have been reported.
          intro hentry
          obtain ⟨members, hmembers⟩ := Node.get?_of_entryAt_eq_directory hentry
          rw [member?, hmembers] at h
          cases h
        · split at h
          · cases h
          · cases h
            rfl
  · rintro ⟨directory, name, hnames, hold, rfl⟩
    refine bind_eq_ok_iff.mpr ⟨_, hnames.target, bind_eq_ok_iff.mpr ⟨(), hnames.checkName, ?_⟩⟩
    split
    · -- A directory at the place was excluded, and nothing else stops the write.
      next members hmembers =>
      refine absurd ?_ hold
      rw [entryAt_eq_map, show t.root.get? (directory ++ [name]) = _ from hmembers]
      rfl
    · rfl

/-- **A file is removed** where its path names the place of a file. -/
theorem remove_eq_ok_iff :
    t.remove p = .ok t' ↔ ∃ directory name content, t.Names p directory name ∧
      t.entryAt (directory ++ [name]) = some (.file content) ∧ t' = t.drop directory name := by
  constructor
  · intro h
    obtain ⟨target, htarget, h⟩ := bind_eq_ok_iff.mp h
    cases target with
    | directory place => cases h
    | member directory name slash =>
      obtain ⟨⟨⟩, hname, h⟩ := bind_eq_ok_iff.mp h
      split at h
      · -- There is nothing, or there is a directory, and both are errors.
        cases h
      · cases h
      · next content hfile =>
        -- A path with a slash at its end does not lead to a file.
        cases slash with
        | true => cases h
        | false =>
          cases h
          refine ⟨directory, name, content, ⟨htarget, hname⟩, ?_, rfl⟩
          rw [entryAt_eq_map, show t.root.get? (directory ++ [name]) = _ from hfile]
          rfl
  · rintro ⟨directory, name, content, hnames, hfile, rfl⟩
    refine bind_eq_ok_iff.mpr ⟨_, hnames.target, bind_eq_ok_iff.mpr ⟨(), hnames.checkName, ?_⟩⟩
    rw [member?, Node.get?_of_entryAt_eq_file hfile]
    rfl

/-- **A directory is made** where its path names a place with nothing there. -/
theorem makeDirectory_eq_ok_iff :
    t.makeDirectory p = .ok t' ↔ ∃ directory name slash,
      t.target p = .ok (.member directory name slash) ∧ checkName name = .ok () ∧
      t.entryAt (directory ++ [name]) = none ∧ t' = t.put directory name (.directory .nil) := by
  constructor
  · intro h
    obtain ⟨target, htarget, h⟩ := bind_eq_ok_iff.mp h
    cases target with
    | directory place => cases h
    | member directory name slash =>
      obtain ⟨⟨⟩, hname, h⟩ := bind_eq_ok_iff.mp h
      -- Whatever is there already is an error, a directory as well as a file.
      split at h
      · cases h
      · next hnone =>
        cases h
        refine ⟨directory, name, slash, htarget, hname, ?_, rfl⟩
        rw [entryAt_eq_map, show t.root.get? (directory ++ [name]) = _ from hnone]
        rfl
  · rintro ⟨directory, name, slash, htarget, hname, hnone, rfl⟩
    refine bind_eq_ok_iff.mpr ⟨_, htarget, bind_eq_ok_iff.mpr ⟨(), hname, ?_⟩⟩
    -- Nothing is there, so the directory is made.
    rw [member?, Option.map_eq_none_iff.mp hnone]
    rfl

/-- Writing a file changes the entry at its target, which is not a directory. -/
theorem sets_of_write {content : ByteArray} (h : t.write p content = .ok t') :
    ∃ directory name, t.Names p directory name ∧
      t.entryAt (directory ++ [name]) ≠ some .directory ∧
      t.Sets t' (directory ++ [name]) (some (.file content)) := by
  obtain ⟨directory, name, hnames, hold, rfl⟩ := write_eq_ok_iff.mp h
  exact ⟨directory, name, hnames, hold,
    sets_put (entryAt_of_target hnames.target) hold fun _ _ => rfl⟩

/-- Removing a file leaves nothing at its target, where the file was. -/
theorem sets_of_remove (h : t.remove p = .ok t') :
    ∃ directory name, t.Names p directory name ∧
      t.entryAt (directory ++ [name]) ≠ some .directory ∧
      t.Sets t' (directory ++ [name]) none := by
  obtain ⟨directory, name, content, hnames, hfile, rfl⟩ := remove_eq_ok_iff.mp h
  have hold : t.entryAt (directory ++ [name]) ≠ some .directory := by
    rw [hfile]
    exact fun hentry => nomatch hentry
  exact ⟨directory, name, hnames, hold, sets_drop (entryAt_of_target hnames.target) hold⟩

/-- Making a directory puts it at its target, where there was nothing. -/
theorem sets_of_makeDirectory (h : t.makeDirectory p = .ok t') :
    ∃ directory name slash, t.target p = .ok (.member directory name slash) ∧
      checkName name = .ok () ∧ t.entryAt (directory ++ [name]) = none ∧
      t.Sets t' (directory ++ [name]) (some .directory) := by
  obtain ⟨directory, name, slash, htarget, hname, hnone, rfl⟩ := makeDirectory_eq_ok_iff.mp h
  refine ⟨directory, name, slash, htarget, hname, hnone,
    sets_put (entryAt_of_target htarget) ?_ fun _ _ => rfl⟩
  rw [hnone]
  exact fun hentry => nomatch hentry

end FileTree

end UtilityCss
