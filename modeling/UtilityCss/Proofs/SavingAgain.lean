import UtilityCss.Proofs.ProperTrees
import UtilityCss.Proofs.Saving

/-!
# Saving a file a second time

A file is saved where it was saved before. The directories around it are there by now, so none of
them is made (`outcome_makeDirectories`) and saving is only writing (`outcome_save`). A write that
puts in what is there already gives the same tree (`write_self`), because a proper tree is
determined by its entries (`eq_of_sets`). Two changes at one place, of which the second takes back
the first, come to nothing by the same argument (`Sets.trans`).
-/

namespace UtilityCss

namespace FileTree

variable {t t' t'' : FileTree} {p : Path} {place : List String} {content : ByteArray}

/-! ### Directories that are there already -/

/-- A directory is at a path just if the path leads to one. -/
theorem hasDirectory_iff :
    t.hasDirectory p = true ↔
      ∃ place, t.locate p = .ok place ∧ t.entryAt place = some .directory := by
  -- The test looks a node up, and only a directory passes it.
  have hfind : t.hasDirectory p = true ↔ ∃ members, t.find p = .ok (.directory members) := by
    unfold hasDirectory
    split
    · next node hnode =>
      rw [hnode]
      cases node with
      | file content => exact ⟨fun h => (nomatch h), fun ⟨_, h⟩ => (nomatch h)⟩
      | directory members => exact ⟨fun _ => ⟨members, rfl⟩, fun _ => rfl⟩
    · next e he =>
      rw [he]
      exact ⟨fun h => (nomatch h), fun ⟨_, h⟩ => (nomatch h)⟩
  rw [hfind]
  constructor
  · rintro ⟨members, h⟩
    obtain ⟨place, hlocate, hget⟩ := find_eq_ok_iff.mp h
    refine ⟨place, hlocate, ?_⟩
    rw [entryAt_eq_map, hget]
    rfl
  · rintro ⟨place, hlocate, hentry⟩
    obtain ⟨members, hget⟩ := Node.get?_of_entryAt_eq_directory hentry
    exact ⟨members, find_eq_ok_iff.mpr ⟨place, hlocate, hget⟩⟩

/-- A directory at a path stays there while no directory is lost. -/
theorem Keeps.hasDirectory (h : t.Keeps t') (hp : t.hasDirectory p = true) :
    t'.hasDirectory p = true := by
  obtain ⟨place, hlocate, hentry⟩ := hasDirectory_iff.mp hp
  -- The directory is at its place still, and the way to it has lost nothing.
  have hentry' := h.directories place hentry
  exact hasDirectory_iff.mpr ⟨place, h.locate hlocate (by rw [hentry']; rfl), hentry'⟩

/-- A directory that was made is there. -/
theorem hasDirectory_of_makeDirectory (h : t.makeDirectory p = .ok t') :
    t'.hasDirectory p = true := by
  obtain ⟨directory, name, slash, htarget, hname, -, hsets⟩ := sets_of_makeDirectory h
  have hentry : t'.entryAt (directory ++ [name]) = some .directory := by
    rw [hsets.entryAt, if_pos rfl]
  -- The path that named a new member before leads to it now.
  exact hasDirectory_iff.mpr ⟨_, locate_of_target
    ((extends_of_makeDirectory h).keeps.target htarget) hname hentry, hentry⟩

/-- What a directory is for an operation that would make it: itself, or the member that is there. -/
theorem target_of_directory (hlocate : t.locate p = .ok place)
    (hentry : t.entryAt place = some .directory) :
    t.target p = .ok (.directory place) ∨ ∃ directory name slash,
      t.target p = .ok (.member directory name slash) ∧ checkName name = .ok () ∧
        place = directory ++ [name] := by
  obtain ⟨⟨⟩, hpath, hdestination⟩ := bind_eq_ok_iff.mp hlocate
  obtain ⟨hfollow, -⟩ := destination_eq_ok_iff.mp hdestination
  -- A path that ends in a name means the member, and one that ends in a dot the directory itself.
  by_cases hname : ∃ name, p.steps.getLast? = some (.down name) ∧ endsInName p = true
  · obtain ⟨name, hlast, hends⟩ := hname
    obtain ⟨front, hfront⟩ := List.getLast?_eq_some_iff.mp hlast
    rw [hfront, follow_append] at hfollow
    obtain ⟨directory, hdirectory, hstep⟩ := bind_eq_ok_iff.mp hfollow
    obtain ⟨_, henter, hend⟩ := bind_eq_ok_iff.mp hstep
    cases hend
    -- The last step enters the member, so the directory around it is a directory and the name is
    -- fine.
    obtain ⟨haround, hcheck, -, rfl⟩ := enter_eq_ok_iff.mp henter
    have hdrop : p.steps.dropLast = front := by rw [hfront, List.dropLast_concat]
    rw [← hdrop] at hdirectory
    exact .inr ⟨directory, name, leadsToDirectory p,
      target_eq_member_iff.mpr ⟨hpath, hlast, hends, hdirectory, haround, rfl⟩, hcheck, rfl⟩
  · refine .inl (bind_eq_ok_iff.mpr ⟨(), hpath, ?_⟩)
    split
    · next name hlast hends => exact absurd ⟨name, hlast, hends⟩ hname
    · exact bind_eq_ok_iff.mpr ⟨place, hfollow,
        bind_eq_ok_iff.mpr ⟨(), checkDirectory_eq_ok_iff.mpr hentry, rfl⟩⟩

/-- **A directory is not made again.** The error tells that it is there, and never that something on
the way to it is missing. -/
theorem makeDirectory_of_hasDirectory (h : t.hasDirectory p = true) :
    t.makeDirectory p = .error .alreadyExists := by
  obtain ⟨place, hlocate, hentry⟩ := hasDirectory_iff.mp h
  unfold makeDirectory
  -- In both cases something is found where the directory would be made.
  rcases target_of_directory hlocate hentry with
    htarget | ⟨directory, name, slash, htarget, hname, rfl⟩
  · rw [htarget]
    rfl
  · obtain ⟨members, hmembers⟩ := Node.get?_of_entryAt_eq_directory hentry
    have hmember : t.member? directory name = some (.directory members) := hmembers
    rw [htarget]
    dsimp only [bind, Except.bind]
    rw [hname]
    dsimp only
    rw [hmember]
    rfl

/-! ### Saving a file again -/

/-- **The directory around a path is there**, or it is where one stands. -/
def HasRoom (t : FileTree) (p : Path) : Prop :=
  ∀ parent, p.parent? = some parent → parent.text = "" ∨ t.hasDirectory parent = true

/-- Room for a file stays while no directory is lost. -/
theorem Keeps.hasRoom (h : t.Keeps t') (hp : t.HasRoom p) : t'.HasRoom p :=
  fun parent hparent => (hp parent hparent).imp_right h.hasDirectory

/-- A directory that could not be made is there, if this is no error. -/
theorem hasDirectory_of_outcome_unless {e : FileError}
    (h : (do if !(← get).hasDirectory p then throw e : FileAction FileError Unit).outcome t
      = (.ok (), t')) : t'.hasDirectory p = true := by
  rw [outcome_unless_hasDirectory] at h
  obtain ⟨hok, rfl⟩ := Prod.mk.inj h
  -- The check would have thrown.
  by_contra hno
  rw [if_neg hno] at hok
  cases hok

/-- A directory that was ensured is there. -/
theorem hasDirectory_of_ensureDirectory (h : (ensureDirectory p).outcome t = (.ok (), t')) :
    t'.hasDirectory p = true := by
  unfold ensureDirectory at h
  rw [FileAction.outcome_bind, FileAction.outcome_get] at h
  dsimp only at h
  split at h
  · next made hmake =>
    cases h
    exact hasDirectory_of_makeDirectory hmake
  · -- It could not be made, and then it is only checked.
    exact hasDirectory_of_outcome_unless h

/-- A directory is there after it was made together with those around it. -/
theorem hasDirectory_of_makeDirectories (hp : p.text ≠ "")
    (h : (makeDirectories p).outcome t = (.ok (), t')) : t'.hasDirectory p = true := by
  unfold makeDirectories makeDirectoriesUpTo at h
  rw [if_neg (mt String.isEmpty_iff.mp hp), FileAction.outcome_bind, FileAction.outcome_get] at h
  dsimp only at h
  split at h
  · next made hmake =>
    cases h
    exact hasDirectory_of_makeDirectory hmake
  · -- Something around it was missing, so it was tried once more behind that.
    split at h
    · obtain ⟨⟨⟩, t₁, -, hensure⟩ := FileAction.outcome_bind_eq_ok_iff.mp h
      exact hasDirectory_of_ensureDirectory hensure
    · cases h
  · exact hasDirectory_of_outcome_unless h

/-- Making directories that are there changes nothing. -/
theorem outcome_makeDirectories (h : p.text = "" ∨ t.hasDirectory p = true) :
    (makeDirectories p).outcome t = (.ok (), t) := by
  unfold makeDirectories makeDirectoriesUpTo
  by_cases hempty : p.text.isEmpty = true
  · rw [if_pos hempty]
    rfl
  · have hthere : t.hasDirectory p = true := h.resolve_left (mt String.isEmpty_iff.mpr hempty)
    rw [if_neg hempty, FileAction.outcome_bind, FileAction.outcome_get]
    dsimp only
    -- The attempt fails because the directory is there, and that is checked and accepted.
    rw [makeDirectory_of_hasDirectory hthere]
    dsimp only
    rw [outcome_unless_hasDirectory, if_pos hthere]

/-- **A file that was saved has room**: the directories around it were made first. -/
theorem hasRoom_of_save (h : (save p content).outcome t = (.ok (), t')) : t'.HasRoom p := by
  intro parent hparent
  by_cases hempty : parent.text = ""
  · exact .inl hempty
  · right
    unfold save at h
    rw [hparent] at h
    obtain ⟨⟨⟩, t₁, hmake, hchange⟩ := FileAction.outcome_bind_eq_ok_iff.mp h
    have hthere := hasDirectory_of_makeDirectories hempty hmake
    rw [FileAction.outcome_change] at hchange
    split at hchange
    · -- No directory is lost when the file is written.
      next t₂ hwrite =>
      cases hchange
      obtain ⟨directory, name, hnames, hold, hsets⟩ := sets_of_write hwrite
      exact (hsets.keeps hold).hasDirectory hthere
    · cases hchange

/-- **Saving a file is writing it** where the directory around it is there. -/
theorem outcome_save (hroom : t.HasRoom p) (hwrite : t.write p content = .ok t') :
    (save p content).outcome t = (.ok (), t') := by
  have hchange : (FileAction.change fun t => t.write p content).outcome t = (.ok (), t') := by
    rw [FileAction.outcome_change, hwrite]
  unfold save
  dsimp only
  split
  · -- The directories around the file are there, so making them changes nothing.
    next parent hparent =>
    exact FileAction.outcome_bind_eq_ok_iff.mpr
      ⟨(), t, outcome_makeDirectories (hroom parent hparent), hchange⟩
  · exact hchange

/-! ### Changes that are taken back -/

/-- A change that sets what was there changes nothing. -/
theorem eq_of_sets (ht : t.root.Proper) (ht' : t'.root.Proper)
    (h : t.Sets t' place (t.entryAt place)) : t' = t := by
  -- Proper trees with the same entries are equal.
  refine eq_of_entryAt ht ht' h.here fun other => ?_
  rw [h.entryAt]
  split
  · next heq => rw [heq]
  · rfl

/-- Of two changes at one place the second counts. -/
theorem Sets.trans {entry entry' : Option Entry} (h : t.Sets t' place entry)
    (h' : t'.Sets t'' place entry') : t.Sets t'' place entry' := by
  refine ⟨h'.here.trans h.here, fun other => ?_⟩
  rw [h'.entryAt, h.entryAt]
  split
  · rfl
  · rfl

/-- A file can be written at every place without a directory. -/
theorem exists_write {directory : List String} {name : String} (content : ByteArray)
    (hnames : t.Names p directory name)
    (hold : t.entryAt (directory ++ [name]) ≠ some .directory) :
    ∃ u, t.write p content = .ok u ∧ t.Sets u (directory ++ [name]) (some (.file content)) :=
  ⟨_, write_eq_ok_iff.mpr ⟨directory, name, hnames, hold, rfl⟩,
    sets_put (entryAt_of_target hnames.target) hold fun _ _ => rfl⟩

/-- **Writing what is there changes nothing.** -/
theorem write_self (ht : t.root.Proper) {directory : List String} {name : String}
    (hnames : t.Names p directory name)
    (hfile : t.entryAt (directory ++ [name]) = some (.file content)) :
    t.write p content = .ok t := by
  have hold : t.entryAt (directory ++ [name]) ≠ some .directory := by
    rw [hfile]
    exact fun h => nomatch h
  obtain ⟨u, hwrite, hsets⟩ := exists_write content hnames hold
  -- The write sets what is there.
  rw [← hfile] at hsets
  rw [hwrite, eq_of_sets ht (proper_of_write ht hwrite) hsets]

end FileTree

end UtilityCss
