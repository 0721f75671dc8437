/-!
# Collections in first-seen order

Whatever the compiler gathers is reported in the order in which it was first met, each item once.
`FirstSeen α` is a list without repetitions that grows at its end only: `insert` leaves the
collection as it is when the item is already there. The absence of repetitions is part of the
type, so nothing that is built from these collections has to re-establish it.
-/

namespace UtilityCss

/-- A list without repetitions, in the order in which its items were first seen. -/
structure FirstSeen (α : Type) where
  /-- The items, the one seen first at the head. -/
  toList : List α
  /-- No item occurs twice. -/
  nodup : toList.Nodup

namespace FirstSeen

variable {α : Type}

@[ext] theorem ext {s t : FirstSeen α} (h : s.toList = t.toList) : s = t := by
  cases s; cases t; cases h; rfl

/-- The collection without items. -/
def empty : FirstSeen α := ⟨[], List.nodup_nil⟩

instance : EmptyCollection (FirstSeen α) := ⟨empty⟩

instance : Inhabited (FirstSeen α) := ⟨empty⟩

@[simp] theorem toList_empty : (∅ : FirstSeen α).toList = [] := rfl

instance : Membership α (FirstSeen α) := ⟨fun s a => a ∈ s.toList⟩

@[simp] theorem mem_toList {s : FirstSeen α} {a : α} : a ∈ s.toList ↔ a ∈ s := Iff.rfl

instance [DecidableEq α] (s : FirstSeen α) (a : α) : Decidable (a ∈ s) :=
  inferInstanceAs (Decidable (a ∈ s.toList))

/-- The number of items. -/
def size (s : FirstSeen α) : Nat := s.toList.length

/-- Whether there are no items. -/
def isEmpty (s : FirstSeen α) : Bool := s.toList.isEmpty

/-- **Add an item** at the end, unless it is there already. -/
def insert [DecidableEq α] (s : FirstSeen α) (a : α) : FirstSeen α :=
  if h : a ∈ s.toList then s
  else
    { toList := s.toList ++ [a]
      nodup := by
        rw [List.nodup_append]
        refine ⟨s.nodup, by simp, ?_⟩
        intro x hx y hy
        have hya : y = a := by simpa using hy
        exact fun hxy => h (hya ▸ hxy ▸ hx) }

theorem toList_insert [DecidableEq α] (s : FirstSeen α) (a : α) :
    (s.insert a).toList = if a ∈ s then s.toList else s.toList ++ [a] := by
  unfold insert
  split
  · rename_i h; rw [if_pos (show a ∈ s from h)]
  · rename_i h; rw [if_neg (show ¬ a ∈ s from h)]

@[simp] theorem mem_insert [DecidableEq α] {s : FirstSeen α} {a b : α} :
    b ∈ s.insert a ↔ b ∈ s ∨ b = a := by
  rw [← mem_toList, toList_insert]
  split
  · rename_i h
    exact ⟨Or.inl, fun hb => hb.elim id (fun e => e ▸ h)⟩
  · simp

/-- Add the items of a list one after another. -/
def insertAll [DecidableEq α] (s : FirstSeen α) (items : List α) : FirstSeen α :=
  items.foldl insert s

@[simp] theorem insertAll_nil [DecidableEq α] (s : FirstSeen α) : s.insertAll [] = s := rfl

@[simp] theorem insertAll_cons [DecidableEq α] (s : FirstSeen α) (a : α) (items : List α) :
    s.insertAll (a :: items) = (s.insert a).insertAll items := rfl

/-- The items of a list, each at its first place. -/
def ofList [DecidableEq α] (items : List α) : FirstSeen α := empty.insertAll items

end FirstSeen

end UtilityCss
