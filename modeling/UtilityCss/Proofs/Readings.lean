import UtilityCss.Proofs.GlyphSites

/-!
# Reading references between blanks

A reference holds no blank, so whether one can be read at some place depends only on the text up to
the next blank, and a scan for references goes through a text word by word
(`expressionText_collapse`). Nor does a reference hold a second hash, so no reference hides another
one from the scan: what a scan finds is what can be read at all (`Rewrites.references_eq`), and that
is a question about glyphs (`references_eq_glyphReadings`).
-/

namespace UtilityCss

open UtilityCss.Text

namespace Reference

/-! ### Reading at one place -/

/-- A reference starts with a hash. -/
theorem read_of_ne {c : Char} (hc : c ≠ '#') (rest : List Char) : read (c :: rest) = none := by
  unfold read
  split
  · next after heq => exact absurd (List.cons.inj heq).1 hc
  · rfl

/-- No reference is read at a hash without an id. -/
theorem read_of_idLength_eq_zero {rest : List Char} (h : idLength rest = 0) :
    read ('#' :: rest) = none := by
  cases hread : read ('#' :: rest) with
  | none => rfl
  | some result =>
    obtain ⟨r, n⟩ := result
    obtain ⟨after, htext, -, hnamed⟩ := eq_append_of_read hread
    -- The id of a reference that was read is one of the text behind the hash.
    have hrest : rest = r.element.toList ++ ':' :: (r.property.toList ++ after) := by
      simpa [source] using htext
    rw [hrest, idLength_append_colon hnamed.element_chars] at h
    exact absurd (by simpa using h) hnamed.element_ne

/-- **Behind an id and its colon** a reference is read if a property follows. -/
theorem read_id {id : List Char} (hne : id ≠ []) (hid : ∀ c ∈ id, isNameChar c = true)
    (tail : List Char) :
    (read ('#' :: (id ++ ':' :: tail))).map Prod.fst
      = if tail.takeWhile isPropertyChar = [] then none
        else some ⟨String.ofList id, String.ofList (tail.takeWhile isPropertyChar)⟩ := by
  -- The colon is no name character, so the id that is read is the whole one.
  have htake : (id ++ ':' :: tail).takeWhile isNameChar = id :=
    takeWhile_append_cons hid (by decide) tail
  have hempty : id.isEmpty = false := by simpa using hne
  rw [read]
  dsimp only
  rw [htake, List.drop_left]
  simp only [hempty, Bool.false_or, List.isEmpty_iff]
  split <;> rfl

/-- No character of a property is blank. -/
theorem isBlank_of_isPropertyChar {c : Char} (h : isPropertyChar c = true) : isBlank c = false := by
  have hor : c.isAlpha = true ∨ c = '-' := by simpa [isPropertyChar] using h
  rcases hor with halpha | rfl
  · exact isBlank_of_isNameChar (Script.isNameChar_of_isAlpha halpha)
  · decide

/-- A run of name characters and a colon are in front of the next blank, if they are there. -/
theorem takeWhile_isSolid_id {id : List Char} (hid : ∀ c ∈ id, isNameChar c = true)
    (tail : List Char) :
    (id ++ ':' :: tail).takeWhile isSolid = id ++ ':' :: tail.takeWhile isSolid := by
  have hsolid : ∀ c ∈ id, isSolid c = true := by
    intro c hc
    simp [isSolid, isBlank_of_isNameChar (hid c hc)]
  rw [List.takeWhile_append_of_pos hsolid, List.takeWhile_cons_of_pos (by decide)]

/-- **A reference is read in front of the next blank.** -/
theorem map_read_takeWhile (text : List Char) :
    (read (text.takeWhile isSolid)).map Prod.fst = (read text).map Prod.fst := by
  cases text with
  | nil => rfl
  | cons c rest =>
    by_cases hc : c = '#'
    · subst hc
      rw [List.takeWhile_cons_of_pos (by decide)]
      -- The id and its colon are in front of the blank, and so is the property.
      by_cases hzero : idLength rest = 0
      · rw [read_of_idLength_eq_zero hzero,
          read_of_idLength_eq_zero (by rw [idLength_takeWhile_isSolid, hzero])]
      · obtain ⟨id, tail, rfl, -, hne, hid⟩ := exists_of_idLength_ne_zero hzero
        rw [takeWhile_isSolid_id hid, read_id hne hid, read_id hne hid,
          takeWhile_takeWhile_isSolid fun c => isBlank_of_isPropertyChar (c := c)]
    · rw [read_of_ne hc]
      by_cases hsolid : isSolid c
      · rw [List.takeWhile_cons_of_pos hsolid, read_of_ne hc]
      · rw [List.takeWhile_cons_of_neg hsolid]
        rfl

/-- How much was read is settled by what was read. -/
theorem read_congr {s t : List Char} (h : (read s).map Prod.fst = (read t).map Prod.fst) :
    read s = read t := by
  cases hs : read s with
  | none =>
    rw [hs] at h
    exact (Option.map_eq_none_iff.mp h.symm).symm
  | some a =>
    rw [hs] at h
    obtain ⟨b, hb, hfst⟩ := Option.map_eq_some_iff.mp h.symm
    obtain ⟨_, _, hlength, _⟩ := eq_append_of_read hs
    obtain ⟨_, _, hlength', _⟩ := eq_append_of_read hb
    rw [hb]
    exact congrArg some (Prod.ext hfst.symm (by rw [← hlength, ← hlength', hfst]))

/-- What stands behind a blank does not matter to a reference in front of it. -/
theorem read_append_blank {b : Char} (hb : isBlank b = true) (front rest : List Char) :
    read (front ++ b :: rest) = read front := by
  have hrun : (front ++ b :: rest).takeWhile isSolid = front.takeWhile isSolid := by
    induction front with
    | nil => rw [List.nil_append, List.takeWhile_cons_of_neg (by simp [isSolid, hb])]; rfl
    | cons c front ih => rw [List.cons_append, List.takeWhile_cons, List.takeWhile_cons, ih]
  refine read_congr ?_
  calc (read (front ++ b :: rest)).map Prod.fst
      = (read ((front ++ b :: rest).takeWhile isSolid)).map Prod.fst := (map_read_takeWhile _).symm
    _ = (read (front.takeWhile isSolid)).map Prod.fst := by rw [hrun]
    _ = (read front).map Prod.fst := map_read_takeWhile front

/-- **A scan starts anew behind a blank.** -/
theorem pieces_append_blank {b : Char} (hb : isBlank b = true) (front rest : List Char) :
    pieces read (front ++ b :: rest) = pieces read front ++ .plain b :: pieces read rest := by
  -- The induction is on the length, since a reference takes many characters at once.
  induction hlength : front.length using Nat.strongRecOn generalizing front with
  | _ n ih =>
    cases front with
    | nil => exact pieces_cons_of_none (read_of_ne (ne_of_test hb (by decide)) rest)
    | cons c front =>
      -- The scan sees the same at this place, with and without the rest.
      have hsame : read (c :: (front ++ b :: rest)) = read (c :: front) :=
        read_append_blank hb (c :: front) rest
      cases hread : read (c :: front) with
      | none =>
        have hlt : front.length < n := by rw [← hlength]; exact Nat.lt_succ_self _
        rw [List.cons_append, pieces_cons_of_none (hsame.trans hread), pieces_cons_of_none hread,
          ih front.length hlt front rfl]
        rfl
      | some result =>
        obtain ⟨r, k⟩ := result
        obtain ⟨after, htext, hk, -⟩ := eq_append_of_read hread
        obtain ⟨m, rfl⟩ : ∃ m, k = m + 1 := by
          rw [← hk]
          exact ⟨_, rfl⟩
        -- Both scans go on behind the reference, which ends in front of the blank.
        have hdrop : (c :: front).drop (m + 1) = after := by rw [← hk, htext, List.drop_left]
        have hdrop' : (c :: (front ++ b :: rest)).drop (m + 1) = after ++ b :: rest := by
          rw [← List.cons_append, htext, List.append_assoc, ← hk, List.drop_left]
        have hlt : after.length < n := by
          rw [← hlength, htext, List.length_append, hk]
          omega
        rw [List.cons_append, pieces_of_some (by simp) (hsame.trans hread),
          pieces_of_some (by simp) hread, hdrop, hdrop', ih after.length hlt after rfl]
        rfl

/-! ### Reading everywhere -/

/-- The references that can be read in a text, place by place. -/
def readings : List Char → List Reference
  | [] => []
  | c :: rest => ((read (c :: rest)).map Prod.fst).toList ++ readings rest

/-- Nothing is read where there is no hash. -/
theorem readings_append {front : List Char} (h : '#' ∉ front) (rest : List Char) :
    readings (front ++ rest) = readings rest := by
  induction front with
  | nil => rfl
  | cons c front ih =>
    obtain ⟨hc, hfront⟩ := not_or.mp (List.mem_cons.not.mp h)
    rw [List.cons_append, readings, read_of_ne (Ne.symm hc), ih hfront]
    rfl

/-- The names of a reference hold no hash. -/
theorem notMem_of_named {r : Reference} (h : r.Named) :
    '#' ∉ r.element.toList ++ ':' :: r.property.toList := by
  intro hmem
  rcases List.mem_append.mp hmem with helement | hproperty
  · exact ne_of_test (h.element_chars _ helement) (x := '#') (by decide) rfl
  · rcases List.mem_cons.mp hproperty with hcolon | hproperty
    · exact absurd hcolon (by decide)
    · exact ne_of_test (h.property_chars _ hproperty) (x := '#') (by decide) rfl

/-- **No reference hides another one.** -/
theorem Rewrites.references_eq {text result : List Char} {references : List Reference}
    (h : Rewrites text references result) : references = readings text := by
  induction h with
  | nil => rfl
  | keep hread _ ih =>
    rw [readings, hread]
    exact ih
  | @replace r text references result n hread _ ih =>
    obtain ⟨_, _, _, hnamed⟩ := eq_append_of_read hread
    have hsource : r.source ++ text
        = '#' :: ((r.element.toList ++ ':' :: r.property.toList) ++ text) := rfl
    -- The scan goes on behind the reference, and in its names there is nothing to read.
    rw [hsource] at hread
    rw [hsource, readings, hread, readings_append (notMem_of_named hnamed), ih]
    rfl

/-- The references that can be read among glyphs. -/
def glyphReadings : List Glyph → List Reference
  | [] => []
  | g :: gs => ((read (g.char :: joined gs)).map Prod.fst).toList ++ glyphReadings gs

/-- **What can be read in a text** can be read among its glyphs. -/
theorem readings_eq_glyphReadings (apart : Bool) (text : List Char) :
    readings text = glyphReadings (glyphsFrom apart text) := by
  induction text generalizing apart with
  | nil => rfl
  | cons c rest ih =>
    -- Nothing is read at a blank. At any other place only what is joined to it matters.
    cases hc : isBlank c with
    | true =>
      rw [glyphsFrom_cons_blank hc, readings, read_of_ne (ne_of_test hc (by decide)), ← ih]
      rfl
    | false =>
      rw [glyphsFrom_cons_solid hc, readings, glyphReadings, joined_glyphsFrom, ← ih,
        ← map_read_takeWhile (c :: rest), List.takeWhile_cons_of_pos (by simp [isSolid, hc])]

end Reference

namespace Value

/-- The texts of pieces are written one after the other. -/
theorem expressionText_append (front rest : List (Piece Reference)) :
    expressionText (front ++ rest) = expressionText front ++ expressionText rest := by
  rw [expressionText, List.flatMap_append, String.ofList_append]
  rfl

/-- **References are replaced word by word.** -/
theorem expressionText_collapse (text : List Char) :
    expressionText (pieces Reference.read (collapse text))
      = " ".intercalate
        ((words text).map fun word => expressionText (pieces Reference.read word)) := by
  rw [collapse]
  induction words text with
  | nil => rfl
  | cons word rest ih =>
    cases rest with
    | nil => simp
    | cons next rest =>
      -- The space between two words is a blank, so the scan starts anew behind it.
      have hspace : expressionText [.plain ' '] = " " := rfl
      rw [List.intercalate_cons_cons, List.append_assoc, List.singleton_append,
        Reference.pieces_append_blank (by decide), List.append_cons, expressionText_append,
        expressionText_append, hspace, ih]
      simp only [List.map_cons, String.intercalate_cons_cons]

/-- The references of a calculation are those that can be read among the glyphs of its expression
after one pass of spacing. -/
theorem references_eq_glyphReadings (text : List Char) :
    (ofExpression text).references
      = Reference.glyphReadings
        (respaceFrom Context.start false (glyphs (expression text))) := by
  rw [← glyphs_spaceOperators]
  exact (Reference.rewrites_pieces _).references_eq.trans
    (Reference.readings_eq_glyphReadings true _)

end Value

end UtilityCss
