import UtilityCss.FirstSeen
import UtilityCss.Table
import Mathlib.Data.List.Induction

/-!
# First occurrences and groups

Two containers of the library grow at their end and keep what they have: `FirstSeen`, and `Table`
when it is filled by `alter`. Both are folds, and this file says once what the folds compute, in
terms of the list that was fed to them:

* `FirstSeen.toList_ofList` — the items of a collection are the items of the list, each at its first
  place (`List.eraseDups`);
* `Table.entries_collect` — a table that folds every item into the value of its key has one entry
  for each key, keys in first-seen order, and the value of a key is the fold over the items with
  that key alone, in their own order.

The second statement is the stable grouping that media blocks and the bindings of a runtime script
are made by.
-/

namespace UtilityCss

namespace FirstSeen

variable {α : Type} [DecidableEq α]

theorem insert_of_mem {s : FirstSeen α} {a : α} (h : a ∈ s) : s.insert a = s := by
  apply FirstSeen.ext
  rw [toList_insert, if_pos h]

theorem toList_insert_of_notMem {s : FirstSeen α} {a : α} (h : a ∉ s) :
    (s.insert a).toList = s.toList ++ [a] := by
  rw [toList_insert, if_neg h]

/-- The items of a list are added at the end, those that are new, each at its first place. -/
theorem toList_insertAll (s : FirstSeen α) (items : List α) :
    (s.insertAll items).toList = s.toList ++ (items.removeAll s.toList).eraseDups := by
  induction items generalizing s with
  | nil => simp
  | cons a items ih =>
    rw [insertAll_cons, ih]
    -- A known item changes nothing; a new one goes to the end and is known from then on.
    by_cases h : a ∈ s
    · have hskip : (a :: items).removeAll s.toList = items.removeAll s.toList :=
        List.filter_cons_of_neg (by simpa using h)
      rw [insert_of_mem h, hskip]
    · have hkeep : (a :: items).removeAll s.toList = a :: items.removeAll s.toList :=
        List.filter_cons_of_pos (by simpa using h)
      rw [toList_insert_of_notMem h, List.append_assoc, hkeep, List.eraseDups_cons]
      have hfilter : items.removeAll (s.toList ++ [a])
          = (items.removeAll s.toList).filter fun b => !b == a := by
        simp only [List.removeAll, List.filter_filter]
        refine List.filter_congr fun b _ => ?_
        by_cases hb : b ∈ s.toList <;> by_cases hba : b = a <;> simp [hb, hba]
      rw [hfilter]
      rfl

/-- **The items of a list, each at its first place.** -/
theorem toList_ofList (items : List α) : (ofList items).toList = items.eraseDups := by
  unfold ofList
  rw [toList_insertAll]
  simp [empty]

@[simp] theorem mem_ofList {items : List α} {a : α} : a ∈ ofList items ↔ a ∈ items := by
  rw [← mem_toList, toList_ofList, List.mem_eraseDups]

theorem insertAll_append (s : FirstSeen α) (xs ys : List α) :
    s.insertAll (xs ++ ys) = (s.insertAll xs).insertAll ys :=
  List.foldl_append

/-- What is in the collection was there or is one of the items. -/
theorem mem_insertAll {s : FirstSeen α} {items : List α} {a : α} :
    a ∈ s.insertAll items ↔ a ∈ s ∨ a ∈ items := by
  induction items generalizing s with
  | nil => simp
  | cons b items ih => rw [insertAll_cons, ih, mem_insert, List.mem_cons, or_assoc]

/-- Other orders of the items give other orders of the collection. -/
theorem insertAll_perm {s t : FirstSeen α} {xs ys : List α} (hs : s.toList.Perm t.toList)
    (h : xs.Perm ys) : (s.insertAll xs).toList.Perm (t.insertAll ys).toList := by
  -- Neither collection repeats an item, so it is enough that they have the same ones.
  refine (List.perm_ext_iff_of_nodup (s.insertAll xs).nodup (t.insertAll ys).nodup).mpr fun a => ?_
  rw [mem_toList, mem_toList, mem_insertAll, mem_insertAll, h.mem_iff, ← mem_toList, hs.mem_iff,
    mem_toList]

/-- Items that are there already change nothing. -/
theorem insertAll_of_forall_mem {s : FirstSeen α} {items : List α} (h : ∀ a ∈ items, a ∈ s) :
    s.insertAll items = s := by
  induction items with
  | nil => rfl
  | cons a items ih =>
    obtain ⟨ha, hitems⟩ := List.forall_mem_cons.mp h
    rw [insertAll_cons, insert_of_mem ha, ih hitems]

theorem eraseDups_eq_nil_iff {items : List α} : items.eraseDups = [] ↔ items = [] := by
  simp only [List.eq_nil_iff_forall_not_mem, List.mem_eraseDups]

/-- First occurrences do not repeat. -/
theorem nodup_eraseDups (items : List α) : items.eraseDups.Nodup := by
  rw [← toList_ofList]
  exact (ofList items).nodup

/-- Lists with the same items have the same first occurrences, up to their places. -/
theorem eraseDups_perm {xs ys : List α} (h : xs.Perm ys) : xs.eraseDups.Perm ys.eraseDups := by
  rw [List.perm_ext_iff_of_nodup (nodup_eraseDups xs) (nodup_eraseDups ys)]
  intro a
  rw [List.mem_eraseDups, List.mem_eraseDups, h.mem_iff]

/-- One more item at the end of a list is a first occurrence if it is new. -/
theorem eraseDups_concat (items : List α) (a : α) :
    (items ++ [a]).eraseDups
      = if a ∈ items then items.eraseDups else items.eraseDups ++ [a] := by
  have hcons : ofList (items ++ [a]) = (ofList items).insert a := insertAll_append _ _ _
  rw [← toList_ofList, hcons, toList_insert, toList_ofList]
  by_cases h : a ∈ items
  · rw [if_pos (mem_ofList.mpr h), if_pos h]
  · rw [if_neg (fun hm => h (mem_ofList.mp hm)), if_neg h]

/-- A list without repetitions consists of first occurrences. -/
theorem eraseDups_of_nodup {items : List α} (h : items.Nodup) : items.eraseDups = items := by
  induction items with
  | nil => rfl
  | cons a items ih =>
    obtain ⟨ha, hitems⟩ := List.nodup_cons.mp h
    -- The first item does not come again, so nothing is taken out of the rest.
    have hfilter : (items.filter fun b => !b == a) = items := by
      rw [List.filter_eq_self]
      intro b hb
      have hba : b ≠ a := fun hba => ha (hba ▸ hb)
      simpa using hba
    rw [List.eraseDups_cons, hfilter, ih hitems]

end FirstSeen

/-! ### Groups -/

namespace Table

variable {κ ν α : Type} [DecidableEq κ]

/-- **Collect items by key**: every item is folded into the value of its key, which starts as
`init`. -/
def collect (init : ν) (add : ν → α → ν) (t : Table κ ν) (items : List (κ × α)) : Table κ ν :=
  items.foldl (fun t item => t.alter item.1 fun old => add (old.getD init) item.2) t

/-- The items that have a key, in order. -/
def group (key : κ) (items : List (κ × α)) : List α :=
  (items.filter fun item => item.1 = key).map Prod.snd

theorem group_append (key : κ) (xs ys : List (κ × α)) :
    group key (xs ++ ys) = group key xs ++ group key ys := by
  simp [group]

theorem group_perm (key : κ) {xs ys : List (κ × α)} (h : xs.Perm ys) :
    (group key xs).Perm (group key ys) :=
  (h.filter _).map _

/-- A key that does not occur has no items. -/
theorem group_of_notMem {key : κ} {items : List (κ × α)} (h : key ∉ items.map Prod.fst) :
    group key items = [] := by
  have hfilter : (items.filter fun item => item.1 = key) = [] := by
    rw [List.filter_eq_nil_iff]
    intro item hitem hkey
    exact h (List.mem_map.mpr ⟨item, hitem, by simpa using hkey⟩)
  rw [group, hfilter, List.map_nil]

/-- Looking a key up in a table that is given by a function on its keys. -/
theorem valueIn?_map (key : κ) (g : κ → ν) (keys : List κ) :
    valueIn? key (keys.map fun k => (k, g k)) = if key ∈ keys then some (g key) else none := by
  induction keys with
  | nil => rfl
  | cons k keys ih =>
    rw [List.map_cons, valueIn?, ih]
    by_cases hkey : k = key
    · simp [hkey]
    · simp [hkey, Ne.symm hkey]

/-- **A table is given by its keys and the values that they have.** -/
theorem entries_eq_map_keys (t : Table κ ν) (default : ν) :
    t.entries = t.keys.map fun key => (key, (t.get? key).getD default) := by
  unfold keys get?
  obtain ⟨pairs, h⟩ := t
  dsimp only
  induction pairs with
  | nil => rfl
  | cons pair pairs ih =>
    obtain ⟨k, value⟩ := pair
    obtain ⟨hk, hpairs⟩ := List.nodup_cons.mp h
    -- The first key does not come again, so the others are looked up behind it.
    have hrest : (pairs.map Prod.fst).map
          (fun key => (key, (valueIn? key ((k, value) :: pairs)).getD default))
        = (pairs.map Prod.fst).map fun key => (key, (valueIn? key pairs).getD default) := by
      refine List.map_congr_left fun key hkey => ?_
      have hne : k ≠ key := fun heq => hk (heq ▸ hkey)
      rw [valueIn?, if_neg hne]
    rw [List.map_cons, List.map_cons, hrest, ← ih hpairs, valueIn?, if_pos rfl]
    rfl

/-- Changing the value of a key in a table that is given by a function on its keys. -/
theorem alterIn_map (key : κ) (f : Option ν → ν) (g : κ → ν) {keys : List κ} (h : keys.Nodup) :
    alterIn key f (keys.map fun k => (k, g k))
      = if key ∈ keys then keys.map fun k => (k, if k = key then f (some (g k)) else g k)
        else keys.map (fun k => (k, g k)) ++ [(key, f none)] := by
  induction keys with
  | nil => simp [alterIn]
  | cons k keys ih =>
    obtain ⟨hk, hkeys⟩ := List.nodup_cons.mp h
    by_cases hkey : k = key
    · -- The key is found here, and nodup keeps it out of the rest.
      subst hkey
      have hrest : keys.map (fun j => (j, if j = k then f (some (g j)) else g j))
          = keys.map fun j => (j, g j) := by
        refine List.map_congr_left fun j hj => ?_
        have hjk : j ≠ k := fun hjk => hk (hjk ▸ hj)
        rw [if_neg hjk]
      simp [alterIn, hrest]
    · -- The key is further on, or it is new and goes to the end.
      rw [List.map_cons, alterIn, if_neg hkey, ih hkeys]
      by_cases hmem : key ∈ keys
      · simp [hmem, hkey]
      · simp [hmem, Ne.symm hkey]

/-- **A collected table is a stable grouping.** Keys stand in first-seen order, and the value of a
key is the fold over the items with that key. -/
theorem entries_collect (init : ν) (add : ν → α → ν) (items : List (κ × α)) :
    (collect init add ∅ items).entries
      = (items.map Prod.fst).eraseDups.map fun key => (key, (group key items).foldl add init) := by
  -- Items are collected from the left, so the induction takes the last one off.
  induction items using List.reverseRecOn with
  | nil => rfl
  | append_singleton rest last ih =>
    obtain ⟨key, item⟩ := last
    have hstep : (collect init add ∅ (rest ++ [(key, item)])).entries
        = alterIn key (fun old => add (old.getD init) item) (collect init add ∅ rest).entries := by
      rw [collect, List.foldl_append]
      rfl
    rw [hstep, ih, alterIn_map _ _ _ (FirstSeen.nodup_eraseDups _), List.map_append,
      List.map_cons, List.map_nil, FirstSeen.eraseDups_concat]
    simp only [List.mem_eraseDups]
    by_cases hmem : key ∈ rest.map Prod.fst
    · -- The group of a known key grows by the item, and the other groups stay.
      rw [if_pos hmem, if_pos hmem]
      refine List.map_congr_left fun k _ => ?_
      by_cases hk : k = key
      · subst hk
        simp [group]
      · simp [group, hk, Ne.symm hk]
    · -- A new key goes to the end, with the item as its only one.
      rw [if_neg hmem, if_neg hmem, List.map_append, List.map_cons, List.map_nil, group_append,
        group_of_notMem hmem]
      congr 1
      · refine List.map_congr_left fun k hk => ?_
        have hkey : k ≠ key := fun hkey => hmem (hkey ▸ List.mem_eraseDups.mp hk)
        simp [group, Ne.symm hkey]
      · simp [group]

end Table

end UtilityCss
