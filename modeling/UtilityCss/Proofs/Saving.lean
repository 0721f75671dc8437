import Mathlib.Logic.Relation
import UtilityCss.Proofs.PlaceChanges

/-!
# Saving a file

A file is saved together with the directories around it. They are made one by one, and an action
that fails on its way leaves behind what it has made by then, so actions are described by the steps
that they take, whether or not they succeed (`FileAction.Takes`):

* `takes_makeDirectories` — directories are made at a path and around it, and this is all;
* `saved_of_save` — what is found after a file was written together with the directories around it.
-/

namespace UtilityCss

/-! ### Outcomes of actions -/

namespace FileAction

variable {ε δ α β : Type}

theorem outcome_pure (a : α) (t : FileTree) :
    (pure a : FileAction ε α).outcome t = (.ok a, t) := rfl

theorem outcome_get (t : FileTree) : (get : FileAction ε FileTree).outcome t = (.ok t, t) := rfl

/-- Two actions one after the other: the second runs in the tree that the first has left, and not at
all if the first fails. -/
theorem outcome_bind (x : FileAction ε α) (f : α → FileAction ε β) (t : FileTree) :
    (x >>= f).outcome t = match x.outcome t with
      | (.ok a, t') => (f a).outcome t'
      | (.error e, t') => (.error e, t') := by
  show ExceptT.bindCont f (x.outcome t).1 (x.outcome t).2 = _
  rcases x.outcome t with ⟨_ | _, t'⟩ <;> rfl

/-- Actions that succeed together succeed one by one. -/
theorem outcome_bind_eq_ok_iff {x : FileAction ε α} {f : α → FileAction ε β} {t t' : FileTree}
    {b : β} : (x >>= f).outcome t = (.ok b, t') ↔
      ∃ a t₁, x.outcome t = (.ok a, t₁) ∧ (f a).outcome t₁ = (.ok b, t') := by
  rw [outcome_bind]
  -- After an error nothing is run, so only the second case has anything to prove.
  rcases x.outcome t with ⟨e | a, t₁⟩
  · constructor
    · intro h
      cases h
    · rintro ⟨a, t₂, h, -⟩
      cases h
  · constructor
    · intro h
      exact ⟨a, t₁, rfl, h⟩
    · rintro ⟨a', t₂, h, hf⟩
      cases h
      exact hf

/-- Looking at a tree changes nothing. -/
theorem outcome_inspect (f : FileTree → Except ε α) (t : FileTree) :
    (inspect f).outcome t = (f t, t) := by
  show (inspect.liftExcept (f t)).outcome t = _
  cases f t <;> rfl

/-- A change that fails leaves the tree as it was. -/
theorem outcome_change (f : FileTree → Except ε FileTree) (t : FileTree) :
    (change f).outcome t = match f t with
      | .ok t' => (.ok (), t')
      | .error e => (.error e, t) := by
  rw [change, outcome_bind, outcome_inspect]
  cases f t <;> rfl

/-- Another error for the same failure does not matter for the tree. -/
theorem outcome_mapError (f : δ → ε) (x : FileAction δ α) (t : FileTree) :
    (mapError f x).outcome t = ((x.outcome t).1.mapError f, (x.outcome t).2) := by
  unfold outcome
  rcases hx : x.run.run t with ⟨e | a, t'⟩
  · rw [mapError, ExceptT.run_mk, StateT.run_bind, hx]
    rfl
  · rw [mapError, ExceptT.run_mk, StateT.run_bind, hx]
    rfl

/-- An action succeeds under another error just if it succeeds. -/
theorem outcome_mapError_eq_ok_iff {f : δ → ε} {x : FileAction δ α} {t t' : FileTree} {a : α} :
    (mapError f x).outcome t = (.ok a, t') ↔ x.outcome t = (.ok a, t') := by
  rw [outcome_mapError]
  rcases x.outcome t with ⟨e | b, t₁⟩
  · constructor
    · intro h
      cases h
    · intro h
      cases h
  · constructor
    · intro h
      cases h
      rfl
    · intro h
      cases h
      rfl

/-- **An action takes steps of one kind only**, whether or not it succeeds. -/
def Takes (step : FileTree → FileTree → Prop) (x : FileAction ε α) : Prop :=
  ∀ t, Relation.ReflTransGen step t (x.outcome t).2

namespace Takes

variable {step step' : FileTree → FileTree → Prop} {x : FileAction ε α} {f : α → FileAction ε β}

/-- The steps that lead to an outcome. -/
theorem steps (hx : x.Takes step) {t t' : FileTree} {result : Except ε α}
    (h : x.outcome t = (result, t')) : Relation.ReflTransGen step t t' := by
  have hsteps := hx t
  rwa [h] at hsteps

theorem mono (h : ∀ t t', step t t' → step' t t') (hx : x.Takes step) : x.Takes step' :=
  fun t => Relation.ReflTransGen.mono h _ _ (hx t)

/-- An action made of two takes the steps of both. -/
theorem bind (hx : x.Takes step) (hf : ∀ a, (f a).Takes step) : (x >>= f).Takes step := by
  intro t
  rw [outcome_bind]
  rcases hout : x.outcome t with ⟨e | a, t'⟩
  · -- The first action failed, and the steps that it took up to then remain.
    exact hx.steps hout
  · exact (hx.steps hout).trans (hf a t')

theorem mapError {g : ε → δ} (hx : x.Takes step) : (mapError g x).Takes step := by
  intro t
  rw [outcome_mapError]
  exact hx t

/-- A change takes steps just if it takes them where it succeeds. -/
theorem change {g : FileTree → Except ε FileTree}
    (h : ∀ t t', g t = .ok t' → Relation.ReflTransGen step t t') :
    (change g).Takes step := by
  intro t
  rw [outcome_change]
  split
  · next t' hok => exact h t t' hok
  · exact .refl

end Takes

end FileAction

/-- A path without its last step. -/
def Path.IsParent (q p : Path) : Prop := p.parent? = some q

/-- **A path around another one**, which is left when some of its last steps are taken off. -/
def Path.IsAncestor (q p : Path) : Prop := Relation.TransGen Path.IsParent q p

namespace FileTree

/-! ### Making directories -/

/-- **Directories came up where nothing was**, and nothing else changed. -/
structure Extends (t t' : FileTree) : Prop where
  here : t'.here = t.here
  entryAt : ∀ place, t'.entryAt place = t.entryAt place ∨
    t.entryAt place = none ∧ t'.entryAt place = some .directory

namespace Extends

variable {t t' t'' : FileTree}

theorem refl (t : FileTree) : t.Extends t := ⟨rfl, fun _ => .inl rfl⟩

/-- Directories come up in two steps. -/
theorem trans (h : t.Extends t') (h' : t'.Extends t'') : t.Extends t'' := by
  refine ⟨h'.here.trans h.here, ?_⟩
  intro place
  rcases h.entryAt place with heq | ⟨hnone, hdirectory⟩
  · rcases h'.entryAt place with heq' | ⟨hnone', hdirectory'⟩
    · exact .inl (heq'.trans heq)
    · exact .inr ⟨heq ▸ hnone', hdirectory'⟩
  · -- A directory that came up first cannot come up a second time.
    rcases h'.entryAt place with heq' | ⟨hnone', -⟩
    · exact .inr ⟨hnone, heq'.trans hdirectory⟩
    · rw [hdirectory] at hnone'
      cases hnone'

/-- What was there is there unchanged. -/
theorem entryAt_of_some (h : t.Extends t') {place : List String} {entry : Entry}
    (hplace : t.entryAt place = some entry) : t'.entryAt place = some entry := by
  rcases h.entryAt place with heq | ⟨hnone, -⟩
  · rw [heq, hplace]
  · rw [hplace] at hnone
    cases hnone

/-- No directory is lost where directories come up. -/
theorem keeps (h : t.Extends t') : t.Keeps t' := ⟨h.here, fun _ => h.entryAt_of_some⟩

end Extends

/-- Making one directory is the step case: it comes up where nothing was. -/
theorem extends_of_makeDirectory {t t' : FileTree} {p : Path} (h : t.makeDirectory p = .ok t') :
    t.Extends t' := by
  obtain ⟨directory, name, slash, -, -, hnone, hsets⟩ := sets_of_makeDirectory h
  refine ⟨hsets.here, ?_⟩
  intro other
  rw [hsets.entryAt other]
  split
  · next heq => exact .inr ⟨heq ▸ hnone, rfl⟩
  · exact .inl rfl

/-- **A directory is made**, at a path or around it. -/
def MakesDirectory (p : Path) (t t' : FileTree) : Prop :=
  ∃ q, Relation.ReflTransGen Path.IsParent q p ∧ t.makeDirectory q = .ok t'

/-- What follows a directory that could not be made. -/
theorem outcome_unless_hasDirectory (p : Path) (e : FileError) (t : FileTree) :
    (do if !(← get).hasDirectory p then throw e : FileAction FileError Unit).outcome t
      = (if t.hasDirectory p then .ok () else .error e, t) := by
  rw [FileAction.outcome_bind, FileAction.outcome_get]
  show FileAction.outcome (if !t.hasDirectory p then throw e else pure ()) t = _
  cases t.hasDirectory p with
  | true => rfl
  | false => rfl

/-- Ensuring a directory takes one step at most. -/
theorem takes_ensureDirectory (p : Path) : (ensureDirectory p).Takes (MakesDirectory p) := by
  intro t
  unfold ensureDirectory
  rw [FileAction.outcome_bind, FileAction.outcome_get]
  dsimp only
  split
  · next t' hmake => exact .single ⟨p, .refl, hmake⟩
  · next e _ => rw [outcome_unless_hasDirectory p e t]

/-- Making directories up to a depth makes them at the path or around it. -/
theorem takes_makeDirectoriesUpTo (depth : Nat) (p : Path) :
    (makeDirectoriesUpTo depth p).Takes (MakesDirectory p) := by
  -- The depth is the number of parents that may still be tried, and the path goes with it.
  induction depth generalizing p with
  | zero => exact takes_ensureDirectory p
  | succ depth ih =>
    intro t
    -- The directory is made at once, or it is made behind those around it, or it is there.
    unfold makeDirectoriesUpTo
    split
    · -- An empty path is where one stands, and nothing is made.
      exact .refl
    · rw [FileAction.outcome_bind, FileAction.outcome_get]
      dsimp only
      split
      · next t' hmake => exact .single ⟨p, .refl, hmake⟩
      · split
        · next parent hparent =>
          -- What is at or around the parent is around the path.
          have hwiden : ∀ t₁ t₂, MakesDirectory parent t₁ t₂ → MakesDirectory p t₁ t₂ := by
            rintro t₁ t₂ ⟨q, hq, hmake⟩
            exact ⟨q, hq.tail hparent, hmake⟩
          exact ((ih parent).mono hwiden).bind (fun _ => takes_ensureDirectory p) t
        · exact .refl
      · next e _ _ => rw [outcome_unless_hasDirectory p e t]

/-- **Making directories makes those that are missing**, also where it fails in the end. -/
theorem takes_makeDirectories (p : Path) : (makeDirectories p).Takes (MakesDirectory p) :=
  takes_makeDirectoriesUpTo _ p

/-- Making directories only adds directories to a tree. -/
theorem extends_makeDirectories (p : Path) (t : FileTree) :
    t.Extends ((makeDirectories p).outcome t).2 := by
  have hsteps := takes_makeDirectories p t
  generalize ((makeDirectories p).outcome t).2 = t' at hsteps ⊢
  induction hsteps with
  | refl => exact .refl t
  | tail _ hstep ih =>
    obtain ⟨q, -, hmake⟩ := hstep
    exact ih.trans (extends_of_makeDirectory hmake)

/-! ### Saving a file -/

/-- **What is found after a file was saved** at a path: the path names a place at which the file is
now and no directory was before, and elsewhere there is nothing new but directories. -/
structure Saved (t t' : FileTree) (p : Path) (content : ByteArray) (directory : List String)
    (name : String) : Prop where
  keeps : t.Keeps t'
  names : t'.Names p directory name
  before : t.entryAt (directory ++ [name]) ≠ some .directory
  entryAt : t'.entryAt (directory ++ [name]) = some (.file content)
  others : ∀ place, place ≠ directory ++ [name] → t'.entryAt place = t.entryAt place ∨
    t.entryAt place = none ∧ t'.entryAt place = some .directory

/-- A file that is saved is written to the tree with the directories around it. -/
theorem exists_write_of_save {t t' : FileTree} {p : Path} {content : ByteArray}
    (h : (save p content).outcome t = (.ok (), t')) :
    ∃ t₁, t.Extends t₁ ∧ t₁.write p content = .ok t' := by
  have hwrite : ∀ t₁, (FileAction.change fun t => t.write p content).outcome t₁ = (.ok (), t') →
      t₁.write p content = .ok t' := by
    intro t₁ hchange
    rw [FileAction.outcome_change] at hchange
    split at hchange
    · next t₂ hwrite =>
      cases hchange
      exact hwrite
    · cases hchange
  unfold save at h
  dsimp only at h
  split at h
  · next parent _ =>
    obtain ⟨⟨⟩, t₁, hmake, hchange⟩ := FileAction.outcome_bind_eq_ok_iff.mp h
    have hextends := extends_makeDirectories parent t
    rw [hmake] at hextends
    exact ⟨t₁, hextends, hwrite t₁ hchange⟩
  · exact ⟨t, .refl t, hwrite t h⟩

/-- **A file that was saved is found** at the place that its path names, also by all other paths
that lead there. -/
theorem saved_of_save {t t' : FileTree} {p : Path} {content : ByteArray}
    (h : (save p content).outcome t = (.ok (), t')) :
    ∃ directory name, t.Saved t' p content directory name := by
  obtain ⟨t₁, hextends, hwrite⟩ := exists_write_of_save h
  obtain ⟨directory, name, hnames, hold, hsets⟩ := sets_of_write hwrite
  have hkeeps : t₁.Keeps t' := hsets.keeps hold
  refine ⟨directory, name, hextends.keeps.trans hkeeps, hkeeps.names hnames, ?_, ?_, ?_⟩
  · -- No directory is lost while others are made, so one at this place would have stopped the
    -- write.
    exact fun hbefore => hold (hextends.keeps.directories _ hbefore)
  · rw [hsets.entryAt, if_pos rfl]
  · intro place hplace
    rw [hsets.entryAt, if_neg hplace]
    exact hextends.entryAt place

end FileTree

end UtilityCss
