import UtilityCss.Markup.ClassCopy
import UtilityCss.Proofs.Attributes

/-!
# Where references to the classes of an element are found

An attribute value asks for the classes of another element by a marker, `#id.classes`. A marker is
read in one way only, since its id ends at the full stop (`readClassCopy_eq_some_iff`). No marker
starts inside another one: a marker starts with a hash, and it holds no second one. So the scan
passes over none, and the ids that it lists are those of all the markers in the value
(`mem_classCopies_iff`).
-/

namespace UtilityCss.Markup

open UtilityCss.Text

/-- **A marker in an attribute value** that asks for the classes of the element with an id: the id
is a name, and it stands between a hash and the ending. -/
structure HasMarker (id value : List Char) : Prop where
  ne_nil : id ≠ []
  isNameChar : ∀ c ∈ id, isNameChar c = true
  isInfix : '#' :: (id ++ classCopySuffix) <:+: value

/-- **A marker is read just where one stands**, with the id up to the full stop. -/
theorem readClassCopy_eq_some_iff {text id : List Char} {n : Nat} :
    readClassCopy text = some (id, n)
      ↔ id ≠ [] ∧ (∀ c ∈ id, isNameChar c = true) ∧
        (∃ rest, text = '#' :: (id ++ (classCopySuffix ++ rest))) ∧
        n = 1 + id.length + classCopySuffix.length := by
  constructor
  · intro h
    unfold readClassCopy at h
    split at h
    · next rest =>
      dsimp only at h
      split at h
      · exact absurd h (by simp)
      · next hne =>
        obtain ⟨tail, hstrip, heq⟩ := Option.map_eq_some_iff.mp h
        obtain ⟨rfl, rfl⟩ := Prod.mk.inj heq
        -- What follows the hash is cut behind the name characters, and the ending comes there.
        have hrest : rest = rest.takeWhile isNameChar
            ++ rest.drop (rest.takeWhile isNameChar).length :=
          (List.prefix_iff_eq_append.mp (List.takeWhile_prefix _)).symm
        rw [strip?_eq_some_iff.mp hstrip] at hrest
        exact ⟨by simpa using hne, List.all_eq_true.mp List.all_takeWhile,
          ⟨tail, congrArg ('#' :: ·) hrest⟩, rfl⟩
    · exact absurd h (by simp)
  · rintro ⟨hne, hid, ⟨rest, rfl⟩, rfl⟩
    -- The full stop of the ending is no name character, so the id is read up to it.
    have htake : (id ++ (classCopySuffix ++ rest)).takeWhile isNameChar = id :=
      takeWhile_append_cons hid (show isNameChar '.' = false by decide) _
    have hstrip : strip? classCopySuffix ((id ++ (classCopySuffix ++ rest)).drop id.length)
        = some rest := by
      rw [List.drop_left]
      exact strip?_eq_some_iff.mpr rfl
    simp only [readClassCopy, htake, hstrip, List.isEmpty_iff, if_neg hne, Option.map_some]

/-- A marker is not empty and does not go beyond the text. -/
theorem consuming_readClassCopy : Consuming readClassCopy where
  pos h := by
    obtain ⟨-, -, -, rfl⟩ := readClassCopy_eq_some_iff.mp h
    omega
  le_length h := by
    obtain ⟨-, -, ⟨rest, rfl⟩, rfl⟩ := readClassCopy_eq_some_iff.mp h
    simp only [List.length_cons, List.length_append]
    omega

/-- No marker starts inside another one. -/
theorem stop_le_start {value : List Char} {s t : Site readClassCopy value}
    (h : s.start < t.start) : s.stop ≤ t.start := by
  obtain ⟨-, hid, ⟨rest, htext⟩, hlength⟩ := readClassCopy_eq_some_iff.mp s.isRead
  obtain ⟨-, -, ⟨rest', htext'⟩, -⟩ := readClassCopy_eq_some_iff.mp t.isRead
  by_contra hinside
  -- The hash of `t` would be a character of `s` behind the hash of `s`.
  obtain ⟨k, hk⟩ : ∃ k, t.start = s.start + (k + 1) := ⟨t.start - s.start - 1, by omega⟩
  rw [hk, ← List.drop_drop, htext, List.drop_succ_cons, ← List.append_assoc] at htext'
  have hk' : k < (s.value ++ classCopySuffix).length := by
    rw [List.length_append]
    simp only [Site.stop] at hinside
    omega
  have hhash : '#' ∈ s.value ++ classCopySuffix := by
    rw [List.drop_append_of_le_length hk'.le] at htext'
    have hmem : '#' ∈ (s.value ++ classCopySuffix).drop k := by
      cases hdrop : (s.value ++ classCopySuffix).drop k with
      | nil => exact absurd (List.drop_eq_nil_iff.mp hdrop) (Nat.not_le.mpr hk')
      | cons c cs =>
        rw [hdrop] at htext'
        rw [(List.cons.inj htext').1]
        exact List.mem_cons_self
    exact List.mem_of_mem_drop hmem
  -- Neither the id nor the ending has a hash.
  rcases List.mem_append.mp hhash with hmem | hmem
  · exact absurd (hid _ hmem) (by decide)
  · exact absurd hmem (by decide)

/-- **The ids that are listed are those of the markers in the value.** -/
theorem mem_classCopies_iff {id value : List Char} :
    id ∈ classCopies value ↔ HasMarker id value := by
  obtain ⟨sites, hsites⟩ := exists_scanned consuming_readClassCopy value 0
  have hfound : classCopies value = sites.map Site.value := hsites.found_eq
  rw [hfound, List.mem_map]
  constructor
  · rintro ⟨s, -, rfl⟩
    obtain ⟨hne, hid, ⟨rest, htext⟩, -⟩ := readClassCopy_eq_some_iff.mp s.isRead
    refine ⟨hne, hid, value.take s.start, rest, ?_⟩
    conv_rhs => rw [← List.take_append_drop s.start value, htext]
    simp
  · rintro ⟨hne, hid, front, back, htext⟩
    let t : Site readClassCopy value :=
      { start := front.length
        value := id
        length := 1 + id.length + classCopySuffix.length
        isRead := readClassCopy_eq_some_iff.mpr ⟨hne, hid, ⟨back, by
          rw [← htext, List.append_assoc, List.drop_left]
          simp⟩, rfl⟩ }
    -- A marker that the scan passed over would start inside another one.
    rcases hsites.mem_or_inside t (Nat.zero_le _) with hmem | ⟨s, -, hstart, hstop⟩
    · exact ⟨t, hmem, rfl⟩
    · exact absurd (stop_le_start hstart) (Nat.not_le.mpr hstop)

end UtilityCss.Markup
