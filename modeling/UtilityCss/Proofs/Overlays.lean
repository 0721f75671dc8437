import UtilityCss.Config.Basic
import UtilityCss.Proofs.FirstSeen

/-!
# Overlays in sequence

Overlays are laid over a configuration one after another. The parts of a configuration are laid over
in two ways, and this file says once for each what a whole sequence of overlays does:

* a list or a single value is replaced, so in the end it is the last one that some overlay gives
  (`foldl_eq_lastGiven`);
* a table takes in the definitions of another one, key by key. `Table.Layered` says what comes out
  of a sequence of tables: the value of a key is the last one that some layer gives it, the keys of
  the table at the bottom stay where they are, and new keys follow in the order in which they were
  first defined.

For the order of its keys a table is a collection in first-seen order (`Table.keySet`), so the
second point needs no induction of its own on lists of keys. A table is determined by its keys and
their values (`Table.eq_of_get?_eq`), which is why laying the same table over twice in a row is
laying it over once.
-/

namespace UtilityCss

/-! ### The last value given -/

/-- **The last value that the items of a list give**, if any of them gives one. -/
def lastGiven {α β : Type} (part : α → Option β) (items : List α) : Option β :=
  items.reverse.findSome? part

section LastGiven

variable {α β σ : Type} (step : σ → α → σ)

/-- The first item counts if none behind it gives a value. -/
theorem lastGiven_cons (part : α → Option β) (a : α) (items : List α) :
    lastGiven part (a :: items) = (lastGiven part items).or (part a) := by
  rw [lastGiven, List.reverse_cons, List.findSome?_append, List.findSome?_singleton]
  rfl

/-- **What every step replaces if it gives a value** is in the end the last value given, or else
the value at the start. -/
theorem foldl_eq_lastGiven (part : α → Option β) (get : σ → Option β)
    (hstep : ∀ s a, get (step s a) = (part a).or (get s)) (items : List α) (s : σ) :
    get (items.foldl step s) = (lastGiven part items).or (get s) := by
  -- The values that are given later win, so the one at the start comes last.
  induction items generalizing s with
  | nil => rfl
  | cons a items ih => rw [List.foldl_cons, ih, hstep, lastGiven_cons, Option.or_assoc]

/-- A value that is there at every time ends up as the last one that was given, or else stays as it
was. -/
theorem foldl_eq_lastGiven_getD (part : α → Option β) (get : σ → β)
    (hstep : ∀ s a, get (step s a) = (part a).getD (get s)) (items : List α) (s : σ) :
    get (items.foldl step s) = (lastGiven part items).getD (get s) := by
  have hsome := foldl_eq_lastGiven step part (fun s => some (get s))
    (fun s a => by rw [hstep, Option.or_some]) items s
  rw [Option.or_some] at hsome
  exact Option.some.inj hsome

end LastGiven

/-! ### Tables in layers -/

namespace Table

variable {κ ν : Type} [DecidableEq κ]

/-- The keys of a table as a collection in first-seen order. -/
def keySet (t : Table κ ν) : FirstSeen κ := ⟨t.keys, t.nodup⟩

/-- The key of a definition is inserted into the keys. -/
theorem keySet_insert (t : Table κ ν) (key : κ) (value : ν) :
    (t.insert key value).keySet = t.keySet.insert key := by
  apply FirstSeen.ext
  rw [FirstSeen.toList_insert]
  exact keys_alter t key _

/-- The keys of definitions are inserted one after another. -/
theorem keySet_insertAll (t : Table κ ν) (pairs : List (κ × ν)) :
    (t.insertAll pairs).keySet = t.keySet.insertAll (pairs.map Prod.fst) := by
  induction pairs generalizing t with
  | nil => rfl
  | cons pair pairs ih =>
    rw [List.map_cons, FirstSeen.insertAll_cons, ← keySet_insert t pair.1 pair.2, ← ih]
    rfl

theorem keySet_overlay (t u : Table κ ν) : (t.overlay u).keySet = t.keySet.insertAll u.keys :=
  keySet_insertAll t u.entries

/-- **Altering a key changes its value** and no other. -/
theorem valueIn?_alterIn (key other : κ) (f : Option ν → ν) (pairs : List (κ × ν)) :
    valueIn? other (alterIn key f pairs)
      = if other = key then some (f (valueIn? key pairs)) else valueIn? other pairs := by
  induction pairs with
  | nil =>
    by_cases h : other = key
    · simp [alterIn, valueIn?, h]
    · simp [alterIn, valueIn?, h, Ne.symm h]
  | cons pair pairs ih =>
    obtain ⟨k, v⟩ := pair
    by_cases hk : k = key
    · -- The key stands here: its value changes, and the pairs behind it stay.
      subst hk
      by_cases h : other = k
      · simp [alterIn, valueIn?, h]
      · simp [alterIn, valueIn?, h, Ne.symm h]
    · -- The key stands further on, and so does its value.
      by_cases h : other = key
      · subst h
        simp [alterIn, valueIn?, hk, ih]
      · simp [alterIn, valueIn?, hk, ih, h]

/-- A definition gives its key a value and leaves the others. -/
theorem get?_insert (t : Table κ ν) (key other : κ) (value : ν) :
    (t.insert key value).get? other = if other = key then some value else t.get? other :=
  valueIn?_alterIn key other _ t.entries

/-- A key that does not occur has no value. -/
theorem valueIn?_eq_none_of_notMem {key : κ} {pairs : List (κ × ν)}
    (h : key ∉ pairs.map Prod.fst) : valueIn? key pairs = none := by
  induction pairs with
  | nil => rfl
  | cons pair pairs ih =>
    rw [List.map_cons, List.mem_cons, not_or] at h
    rw [valueIn?, if_neg (Ne.symm h.1), ih h.2]

/-- Definitions of different keys can be made in any order: each key gets its own value. -/
theorem get?_insertAll (t : Table κ ν) {pairs : List (κ × ν)} (h : (pairs.map Prod.fst).Nodup)
    (key : κ) : (t.insertAll pairs).get? key = (valueIn? key pairs).or (t.get? key) := by
  induction pairs generalizing t with
  | nil => rfl
  | cons pair pairs ih =>
    obtain ⟨k, v⟩ := pair
    obtain ⟨hk, hpairs⟩ := List.nodup_cons.mp h
    have hstep : (t.insertAll ((k, v) :: pairs)).get? key
        = (valueIn? key pairs).or (if key = k then some v else t.get? key) := by
      rw [← get?_insert, ← ih (t.insert k v) hpairs]
      rfl
    rw [hstep]
    by_cases hkey : key = k
    · -- The key is not defined again behind this place.
      subst hkey
      simp [valueIn?, valueIn?_eq_none_of_notMem hk]
    · simp [valueIn?, hkey, Ne.symm hkey]

/-- **A key that the upper table defines has its value there**, and any other key has the value
that it had. -/
theorem get?_overlay (t u : Table κ ν) (key : κ) :
    (t.overlay u).get? key = (u.get? key).or (t.get? key) :=
  get?_insertAll t u.nodup key

/-- **A table is determined by its keys and the values that they have.** -/
theorem eq_of_get?_eq {t u : Table κ ν} (hkeys : t.keySet = u.keySet)
    (h : ∀ key, t.get? key = u.get? key) : t = u := by
  have hkeys' : t.keys = u.keys := congrArg FirstSeen.toList hkeys
  apply Table.ext
  -- A value is needed to fill the table of keys, so the empty table is a case of its own.
  cases hentries : t.entries with
  | nil =>
    have hnil : u.keys = [] := by rw [← hkeys', keys, hentries, List.map_nil]
    exact (List.map_eq_nil_iff.mp hnil).symm
  | cons pair pairs =>
    rw [← hentries, t.entries_eq_map_keys pair.2, u.entries_eq_map_keys pair.2, hkeys']
    simp only [h]

/-- Laying the same table over twice in a row is laying it over once. -/
theorem overlay_overlay_self (t u : Table κ ν) : (t.overlay u).overlay u = t.overlay u := by
  apply eq_of_get?_eq
  · rw [keySet_overlay (t.overlay u), keySet_overlay t]
    -- The keys are all there after the first time, and the values are the same ones.
    apply FirstSeen.insertAll_of_forall_mem
    intro key hkey
    exact FirstSeen.mem_insertAll.mpr (Or.inr hkey)
  · intro key
    rw [get?_overlay, get?_overlay, ← Option.or_assoc, Option.or_self]

/-- **What tables laid one over another give.** -/
structure Layered (bottom : Table κ ν) (layers : List (Table κ ν)) (result : Table κ ν) :
    Prop where
  /-- A key has the value of the last layer that defines it, or else the one at the bottom. -/
  get?_eq : ∀ key, result.get? key = (lastGiven (·.get? key) layers).or (bottom.get? key)
  /-- No key is there twice. -/
  nodup_keys : result.keys.Nodup
  /-- The keys at the bottom keep their places, and new keys follow as they were first defined. -/
  keys_eq : result.keys = bottom.keys ++ ((layers.flatMap keys).removeAll bottom.keys).eraseDups

/-- The keys of layers are inserted layer by layer. -/
theorem keySet_foldl_overlay (bottom : Table κ ν) (layers : List (Table κ ν)) :
    (layers.foldl overlay bottom).keySet = bottom.keySet.insertAll (layers.flatMap keys) := by
  induction layers generalizing bottom with
  | nil => rfl
  | cons u layers ih =>
    rw [List.foldl_cons, ih, keySet_overlay, List.flatMap_cons, FirstSeen.insertAll_append]

/-- **Tables laid one over another are layered.** -/
theorem layered_foldl (bottom : Table κ ν) (layers : List (Table κ ν)) :
    Layered bottom layers (layers.foldl overlay bottom) where
  get?_eq key :=
    foldl_eq_lastGiven overlay (·.get? key) (·.get? key) (fun t u => get?_overlay t u key)
      layers bottom
  nodup_keys := (layers.foldl overlay bottom).nodup
  keys_eq := by
    have hkeys := congrArg FirstSeen.toList (keySet_foldl_overlay bottom layers)
    exact hkeys.trans (FirstSeen.toList_insertAll ..)

/-- **A table of a state that every step lays one table over** is made of the layers of all
steps. -/
theorem layered_of_step {σ α : Type} (step : σ → α → σ) (part : α → Table κ ν)
    (get : σ → Table κ ν) (hstep : ∀ s a, get (step s a) = (get s).overlay (part a))
    (items : List α) (s : σ) :
    Layered (get s) (items.map part) (get (items.foldl step s)) := by
  -- The table of the state is folded along with the state.
  have hfold : get (items.foldl step s) = (items.map part).foldl overlay (get s) := by
    rw [List.foldl_map]
    exact (List.foldl_hom get fun s a => (hstep s a).symm).symm
  rw [hfold]
  exact layered_foldl (get s) (items.map part)

end Table

/-! ### Configurations -/

namespace Config

/-- Laying the same overlay over twice in a row is laying it over once. -/
theorem overlay_overlay_self (c : Config) (o : Overlay) :
    (c.overlay o).overlay o = c.overlay o := by
  have hvalue {α : Type} (given : Option α) (old : α) :
      given.getD (given.getD old) = given.getD old := by
    cases given <;> rfl
  simp only [overlay, Vocabulary.overlay, Theme.overlay, Settings.overlay, hvalue,
    Table.overlay_overlay_self, ← Option.or_assoc, Option.or_self]

/-- **A sequence of overlays in each part of a configuration.** What is replaced is the last value
given, or else the one at the start; the four tables are layered; and an overlay that comes twice in
a row counts once. -/
theorem overlayAll_parts (c : Config) (os : List Overlay) :
    (c.overlayAll os).content = (lastGiven (·.content) os).getD c.content
      ∧ (c.overlayAll os).output = (lastGiven (·.output) os).getD c.output
      ∧ (c.overlayAll os).scriptOutput = (lastGiven (·.scriptOutput) os).or c.scriptOutput
      ∧ (c.overlayAll os).settings.minify = (lastGiven (·.minify) os).getD c.settings.minify
      ∧ (c.overlayAll os).settings.comments
          = (lastGiven (·.comments) os).getD c.settings.comments
      ∧ Table.Layered c.vocabulary.breakpoints (os.map (·.breakpoints))
          (c.overlayAll os).vocabulary.breakpoints
      ∧ Table.Layered c.vocabulary.properties (os.map (·.properties))
          (c.overlayAll os).vocabulary.properties
      ∧ Table.Layered c.vocabulary.theme.colors (os.map (·.theme.colors))
          (c.overlayAll os).vocabulary.theme.colors
      ∧ Table.Layered c.vocabulary.theme.spacing (os.map (·.theme.spacing))
          (c.overlayAll os).vocabulary.theme.spacing
      ∧ ∀ (o : Overlay) (later : List Overlay),
          c.overlayAll (os ++ o :: o :: later) = c.overlayAll (os ++ o :: later) := by
  refine ⟨?_, ?_, ?_, ?_, ?_, ?_, ?_, ?_, ?_, ?_⟩
  · exact foldl_eq_lastGiven_getD overlay (·.content) content (fun _ _ => rfl) os c
  · exact foldl_eq_lastGiven_getD overlay (·.output) output (fun _ _ => rfl) os c
  · exact foldl_eq_lastGiven overlay (·.scriptOutput) scriptOutput (fun _ _ => rfl) os c
  · exact foldl_eq_lastGiven_getD overlay (·.minify) (·.settings.minify) (fun _ _ => rfl) os c
  · exact foldl_eq_lastGiven_getD overlay (·.comments) (·.settings.comments) (fun _ _ => rfl) os c
  · exact Table.layered_of_step overlay (·.breakpoints) (·.vocabulary.breakpoints)
      (fun _ _ => rfl) os c
  · exact Table.layered_of_step overlay (·.properties) (·.vocabulary.properties)
      (fun _ _ => rfl) os c
  · exact Table.layered_of_step overlay (·.theme.colors) (·.vocabulary.theme.colors)
      (fun _ _ => rfl) os c
  · exact Table.layered_of_step overlay (·.theme.spacing) (·.vocabulary.theme.spacing)
      (fun _ _ => rfl) os c
  · intro o later
    simp only [overlayAll, List.foldl_append, List.foldl_cons, overlay_overlay_self]

end Config

end UtilityCss
