/-!
# Tables in order of definition

A table gives each of its keys one value and remembers the order in which the keys were defined.
Defining a key again changes its value and leaves its place alone; a new key goes to the end. Short
names, breakpoints and theme values are all tables, and so are the groups of media rules of a style
sheet.
-/

namespace UtilityCss

/-- Keys with their values, in the order in which the keys were first defined. -/
structure Table (κ ν : Type) where
  /-- The pairs of key and value. -/
  entries : List (κ × ν)
  /-- No key is defined twice. -/
  nodup : (entries.map Prod.fst).Nodup

namespace Table

variable {κ ν : Type}

@[ext] theorem ext {t u : Table κ ν} (h : t.entries = u.entries) : t = u := by
  cases t; cases u; cases h; rfl

/-- The table without keys. -/
def empty : Table κ ν := ⟨[], List.nodup_nil⟩

instance : EmptyCollection (Table κ ν) := ⟨empty⟩

instance : Inhabited (Table κ ν) := ⟨empty⟩

@[simp] theorem entries_empty : (∅ : Table κ ν).entries = [] := rfl

/-- The keys, in order of definition. -/
def keys (t : Table κ ν) : List κ := t.entries.map Prod.fst

/-- Whether the table has no keys. -/
def isEmpty (t : Table κ ν) : Bool := t.entries.isEmpty

variable [DecidableEq κ]

/-- The value of a key in a list of pairs: the one at the first place of the key. -/
def valueIn? (key : κ) : List (κ × ν) → Option ν
  | [] => none
  | (k, v) :: rest => if k = key then some v else valueIn? key rest

/-- **The value of a key.** -/
def get? (t : Table κ ν) (key : κ) : Option ν := valueIn? key t.entries

/-- Change the value of a key where it stands, or put the key at the end of a list of pairs. -/
def alterIn (key : κ) (f : Option ν → ν) : List (κ × ν) → List (κ × ν)
  | [] => [(key, f none)]
  | (k, v) :: rest => if k = key then (k, f (some v)) :: rest else (k, v) :: alterIn key f rest

theorem map_fst_alterIn (key : κ) (f : Option ν → ν) (pairs : List (κ × ν)) :
    (alterIn key f pairs).map Prod.fst
      = if key ∈ pairs.map Prod.fst then pairs.map Prod.fst else pairs.map Prod.fst ++ [key] := by
  induction pairs with
  | nil => simp [alterIn]
  | cons p rest ih =>
    obtain ⟨k, v⟩ := p
    by_cases h : k = key
    · simp [alterIn, h]
    · simp only [alterIn, if_neg h, List.map_cons, ih, List.mem_cons, Ne.symm h, false_or]
      split <;> simp

/-- **Change the value of a key**: `f` gets the value that the key has, if it has one. -/
def alter (t : Table κ ν) (key : κ) (f : Option ν → ν) : Table κ ν where
  entries := alterIn key f t.entries
  nodup := by
    rw [map_fst_alterIn]
    split
    · exact t.nodup
    · rename_i h
      rw [List.nodup_append]
      refine ⟨t.nodup, by simp, ?_⟩
      intro x hx y hy
      have hyk : y = key := by simpa using hy
      exact fun hxy => h (hyk ▸ hxy ▸ hx)

/-- Give a key a value. -/
def insert (t : Table κ ν) (key : κ) (value : ν) : Table κ ν := t.alter key fun _ => value

/-- The keys after a change: a new key goes to the end. -/
theorem keys_alter (t : Table κ ν) (key : κ) (f : Option ν → ν) :
    (t.alter key f).keys = if key ∈ t.keys then t.keys else t.keys ++ [key] :=
  map_fst_alterIn key f t.entries

/-- Give keys values one after another. -/
def insertAll (t : Table κ ν) (pairs : List (κ × ν)) : Table κ ν :=
  pairs.foldl (fun t p => t.insert p.1 p.2) t

/-- The table that a list of definitions makes: a key keeps its first place and its last value. -/
def ofList (pairs : List (κ × ν)) : Table κ ν := empty.insertAll pairs

/-- **Overlay**: define the keys of a second table on top of the first. -/
def overlay (t u : Table κ ν) : Table κ ν := t.insertAll u.entries

end Table

end UtilityCss
