import UtilityCss.Proofs.ChunkLayout
import UtilityCss.Proofs.NestedValues

/-!
# Commas outside brackets

A value is cut into parts at the commas that stand outside its brackets. The splitter finds them
with one counter for both kinds of brackets, which stays at zero when a bracket is closed that was
never opened. So every text has parts, also one like `a[b, c), d` in which the brackets do not
belong together, and this file says which.

`depthBehind` is the depth without the counter: the most brackets that a stretch of the text leaves
open, over all stretches that reach up to its end. A closing bracket too many is harmless because a
stretch may start behind it. The counter computes this depth (`foldl_nextDepth`), and so the places
where a text is cut are its commas at depth zero (`seams_rawParts`).

The invariant behind the rest is that each part begins at depth zero. Every part but the last one
also ends there, or the comma behind it would not separate. That is what `Row` says, so the parts of
any text are in a row (`row_rawParts`), and no part can be cut again (`parts_of_mem_parts`). Without
the blanks around them they still are in a row, and so parts that are written with commas between
them are found again (`parts_joinParts_parts`). A clamp is written in this way, between parentheses.
-/

namespace UtilityCss

open UtilityCss.Text

namespace Text

/-! ### Where pieces meet -/

section Places

variable {σ : Type} {separates : σ → Char → Bool}

/-- **Nothing is lost but the separators**: with one between any two pieces they are the text. -/
theorem intercalate_cut {x : Char} (h : ∀ s c, separates s c = true → c = x) (next : σ → Char → σ)
    (s : σ) (text : List Char) : [x].intercalate (cut separates next s text) = text := by
  induction text generalizing s with
  | nil => rfl
  | cons c rest ih =>
    obtain ⟨first, others, hcut⟩ :=
      List.exists_cons_of_ne_nil (cut_ne_nil separates next (next s c) rest)
    have hrest := ih (next s c)
    rw [hcut] at hrest
    rw [cut, hcut]
    split
    · next hseparates =>
      -- The separator stands between the empty piece and the rest.
      rw [List.intercalate_cons_cons, hrest, h s c hseparates]
      rfl
    · -- What is in front of the first piece is in front of the whole.
      rw [consPiece, ← hrest]
      cases others with
      | nil => simp only [List.intercalate_singleton]
      | cons other others => simp only [List.intercalate_cons_cons, List.cons_append]

/-- The places of the separators in a text, counted from its start. -/
def separatorPlaces (separates : σ → Char → Bool) (next : σ → Char → σ) (s : σ)
    (text : List Char) : List Nat :=
  (List.range text.length).filter fun i => text[i]?.any (separates ((text.take i).foldl next s))

/-- The first character separates from the state at the start, and behind it all places are one
further on. -/
theorem separatorPlaces_cons (separates : σ → Char → Bool) (next : σ → Char → σ) (s : σ)
    (c : Char) (rest : List Char) :
    separatorPlaces separates next s (c :: rest)
      = (if separates s c then [0] else [])
        ++ (separatorPlaces separates next (next s c) rest).map (· + 1) := by
  -- A place behind the first character has this character in front of it.
  have hlater : (fun i => (c :: rest)[i]?.any
        (separates (((c :: rest).take i).foldl next s))) ∘ Nat.succ
      = fun i => rest[i]?.any (separates ((rest.take i).foldl next (next s c))) := by
    funext i
    simp
  rw [separatorPlaces, List.length_cons, List.range_succ_eq_map, List.filter_cons, List.filter_map,
    hlater]
  cases hc : separates s c <;> simp [hc, separatorPlaces]

/-- **The places where pieces meet** when they are joined with one character between them. -/
def seams : List (List Char) → List Nat
  | [] => []
  | [_] => []
  | piece :: other :: others =>
    piece.length :: (seams (other :: others)).map (· + (piece.length + 1))

/-- There is one piece more than there are places where pieces meet. -/
theorem length_eq_length_seams {pieces : List (List Char)} (hne : pieces ≠ []) :
    pieces.length = (seams pieces).length + 1 := by
  fun_induction seams pieces with
  | case1 => exact absurd rfl hne
  | case2 => rfl
  | case3 piece other others ih =>
    rw [List.length_cons, ih (List.cons_ne_nil other others), List.length_cons, List.length_map]

/-- A character in front of the first piece moves all places by one. -/
theorem seams_consPiece (c : Char) {pieces : List (List Char)} (hne : pieces ≠ []) :
    seams (consPiece c pieces) = (seams pieces).map (· + 1) := by
  obtain ⟨piece, others, rfl⟩ := List.exists_cons_of_ne_nil hne
  cases others with
  | nil => rfl
  | cons other others =>
    -- The first piece is longer by one, and this moves every later place.
    simp only [consPiece, seams, List.map_cons, List.map_map, List.length_cons]
    rfl

/-- **Pieces meet at the separators**, and nowhere else. -/
theorem seams_cut (separates : σ → Char → Bool) (next : σ → Char → σ) (s : σ)
    (text : List Char) :
    seams (cut separates next s text) = separatorPlaces separates next s text := by
  induction text generalizing s with
  | nil => rfl
  | cons c rest ih =>
    have hne := cut_ne_nil separates next (next s c) rest
    rw [cut, separatorPlaces_cons, ← ih]
    split
    · -- A separator at the start leaves an empty piece in front, which meets the next one at zero.
      obtain ⟨first, others, hcut⟩ := List.exists_cons_of_ne_nil hne
      rw [hcut]
      rfl
    · rw [seams_consPiece c hne, List.nil_append]

end Places

/-- **A text and what is left of it** without the blanks at its ends. -/
structure TrimsTo (text bare : List Char) : Prop where
  between : ∃ front back, text = front ++ (bare ++ back) ∧ (∀ c ∈ front, isBlank c = true) ∧
    ∀ c ∈ back, isBlank c = true
  first : ∀ c ∈ bare.head?, isBlank c = false
  last : ∀ c ∈ bare.getLast?, isBlank c = false

theorem trimsTo_trim (text : List Char) : TrimsTo text (trim text) where
  between := exists_trim text
  first := not_isBlank_head_trim text
  last := not_isBlank_getLast_trim text

end Text

namespace Value

/-! ### Depth -/

/-- Whether a character opens a bracket, of either kind. -/
def isOpening (c : Char) : Bool := c == '[' || c == '('

/-- Whether a character closes a bracket, of either kind. -/
def isClosing (c : Char) : Bool := c == ']' || c == ')'

/-- How many brackets a text opens beyond those that it closes. -/
def surplus (text : List Char) : Nat := text.countP isOpening - text.countP isClosing

/-- **The depth behind a text**: the largest surplus of a stretch that reaches up to its end. A
counter that goes up with every opening bracket and down with every closing one, but never below
zero, stands at this number (`depthBehind_concat`). -/
def depthBehind : List Char → Nat
  | [] => 0
  | c :: rest => Nat.max (surplus (c :: rest)) (depthBehind rest)

/-- A bound on the depth is a bound on every stretch up to the end. -/
theorem depthBehind_le_iff {text : List Char} {depth : Nat} :
    depthBehind text ≤ depth ↔
      ∀ tail, tail <:+ text → tail.countP isOpening ≤ tail.countP isClosing + depth := by
  induction text with
  | nil => simp [depthBehind]
  | cons c rest ih =>
    -- The whole text is the one stretch that the others do not have.
    have hsurplus : surplus (c :: rest) ≤ depth ↔
        (c :: rest).countP isOpening ≤ (c :: rest).countP isClosing + depth := by
      rw [surplus, Nat.sub_le_iff_le_add, Nat.add_comm]
    simp only [depthBehind, Nat.max_le, List.suffix_cons_iff, forall_eq_or_imp, ih, hsurplus]

/-- The counter goes up, down or stays, by the kind of the character. -/
theorem nextDepth_eq_if (depth : Nat) (c : Char) :
    nextDepth depth c
      = if isOpening c then depth + 1 else if isClosing c then depth - 1 else depth := by
  simp only [nextDepth, isOpening, isClosing, Bool.or_eq_true, beq_iff_eq]

/-- No character opens and closes. -/
theorem isClosing_of_isOpening {c : Char} (h : isOpening c = true) : isClosing c = false := by
  simp only [isOpening, Bool.or_eq_true, beq_iff_eq] at h
  rcases h with rfl | rfl <;> rfl

/-- The stretches up to the end of a longer text: an empty one, and the old ones with the new
character. -/
theorem forall_suffix_concat {text : List Char} {c : Char} {P : List Char → Prop} :
    (∀ tail, tail <:+ text ++ [c] → P tail) ↔ P [] ∧ ∀ tail, tail <:+ text → P (tail ++ [c]) := by
  simp only [List.suffix_concat_iff]
  constructor
  · exact fun h => ⟨h [] (.inl rfl), fun tail htail => h _ (.inr ⟨tail, rfl, htail⟩)⟩
  · rintro ⟨hnil, htails⟩ tail (rfl | ⟨tail, rfl, htail⟩)
    · exact hnil
    · exact htails tail htail

/-- **The counter keeps the depth**, one character at a time. -/
theorem depthBehind_concat (text : List Char) (c : Char) :
    depthBehind (text ++ [c]) = nextDepth (depthBehind text) c := by
  -- Two numbers are equal if they have the same bounds, and bounds are about single stretches.
  refine eq_of_forall_ge_iff fun depth => ?_
  rw [depthBehind_le_iff, forall_suffix_concat, nextDepth_eq_if]
  simp only [List.countP_append, List.countP_singleton, List.countP_nil, Nat.zero_le, true_and]
  split
  · -- An opening bracket adds one to every stretch, a closing one takes one away.
    next hopening =>
    rw [isClosing_of_isOpening hopening]
    cases depth with
    | zero =>
      -- The new bracket alone is too much.
      refine iff_of_false (fun h => ?_) (Nat.not_succ_le_zero _)
      exact absurd (h [] List.nil_suffix) (by simp)
    | succ depth =>
      -- Behind the bracket one more is allowed.
      rw [Nat.succ_le_succ_iff, depthBehind_le_iff]
      simp [← Nat.add_assoc]
  · split
    · -- The counter stops at zero, and so does the subtraction.
      rw [Nat.sub_le_iff_le_add, depthBehind_le_iff]
      simp [Nat.add_assoc, Nat.add_comm 1]
    · rw [depthBehind_le_iff]
      simp

/-- **The counter stands at the depth** behind everything that was read. -/
theorem foldl_nextDepth (text : List Char) : text.foldl nextDepth 0 = depthBehind text := by
  induction text using List.reverseRecOn with
  | nil => rfl
  | append_singleton text c ih => rw [List.foldl_concat, ih, depthBehind_concat]

/-! ### Commas at depth zero -/

/-- **The places of the commas at depth zero** in a text. -/
def outerCommas (text : List Char) : List Nat :=
  (List.range text.length).filter fun i => text[i]? == some ',' && depthBehind (text.take i) == 0

/-- **Raw parts meet at the commas at depth zero.** -/
theorem seams_rawParts (text : List Char) : seams (rawParts text) = outerCommas text := by
  rw [rawParts, seams_cut, separatorPlaces, outerCommas]
  refine List.filter_congr fun i _ => ?_
  -- The state behind a text is its depth, and a comma separates at depth zero.
  rw [foldl_nextDepth]
  cases text[i]? <;> simp [separatesParts]

/-- One closing bracket of either kind is enough, and one too many does no harm. -/
example : outerCommas "a[b, c), d], (e".toList = [7, 11] := by decide

/-- Nothing but commas is lost. -/
theorem intercalate_rawParts (text : List Char) : [','].intercalate (rawParts text) = text :=
  intercalate_cut (fun _ _ h => (eq_comma_of_separatesParts h).1) nextDepth 0 text

/-- There is one part more than there are commas at depth zero. -/
theorem length_parts (text : List Char) : (parts text).length = (outerCommas text).length + 1 := by
  -- Trimming does not change the number of parts.
  rw [parts, List.length_map, ← seams_rawParts]
  exact length_eq_length_seams (cut_ne_nil separatesParts nextDepth 0 text)

/-! ### Parts without the blanks around them -/

/-- Blanks open and close nothing. -/
theorem eq_of_uncut_blanks {depth depth' : Nat} {blanks : List Char}
    (h : Uncut separatesParts nextDepth depth blanks depth')
    (hblanks : ∀ c ∈ blanks, isBlank c = true) : depth' = depth := by
  induction h with
  | nil => rfl
  | cons _ _ ih =>
    obtain ⟨hc, hblanks⟩ := List.forall_mem_cons.mp hblanks
    rw [ih hblanks, nextDepth_of_not_isBracket (isBracket_of_isBlank hc)]

/-- Blanks at the ends do not matter for the depth. -/
theorem uncut_trim {depth depth' : Nat} {text : List Char}
    (h : Uncut separatesParts nextDepth depth text depth') :
    Uncut separatesParts nextDepth depth (trim text) depth' := by
  obtain ⟨front, back, htext, hfront, hback⟩ := exists_trim text
  rw [htext] at h
  -- The text is read in three stretches, and the outer two do not change the depth.
  obtain ⟨start, hstart, h⟩ := h.of_append
  obtain ⟨stop, hbare, hstop⟩ := h.of_append
  rw [eq_of_uncut_blanks hstart hfront] at hbare
  rwa [eq_of_uncut_blanks hstop hback]

/-- Parts in a row stay in a row without the blanks around them. -/
theorem Row.map_trim {depth : Nat} {ps : List (List Char)} (h : Row depth ps) :
    Row depth (ps.map trim) := by
  induction h with
  | last huncut => exact .last (uncut_trim huncut)
  | cons huncut _ ih => exact .cons (uncut_trim huncut) ih

theorem row_parts (text : List Char) : Row 0 (parts text) := (row_rawParts text).map_trim

/-- Parts have no blanks around them. -/
theorem trim_of_mem_parts {text p : List Char} (h : p ∈ parts text) : trim p = p := by
  obtain ⟨raw, -, rfl⟩ := List.mem_map.mp h
  exact trim_trim raw

/-- **The parts of a text are found again** when commas are written between them. -/
theorem parts_joinParts_parts (text : List Char) : parts (joinParts (parts text)) = parts text := by
  -- Parts in a row come back trimmed, and they are trimmed already.
  rw [(row_parts text).parts_joinParts]
  exact (List.map_congr_left fun p hp => trim_of_mem_parts hp).trans (List.map_id _)

/-- Each part is a raw part without the blanks around it. -/
theorem trimsTo_parts (text : List Char) : List.Forall₂ TrimsTo (rawParts text) (parts text) :=
  List.forall₂_map_right_iff.mpr (List.forall₂_same.mpr fun raw _ => trimsTo_trim raw)

/-! ### Clamps -/

/-- A clamp of three parts has them as its bounds. -/
theorem bounds_of_clampOf? {ps : List (List Char)} {low ideal high : String}
    (h : clampOf? ps = some (clamp low ideal high)) : ps = bounds low ideal high := by
  obtain ⟨low', ideal', high', rfl, hvalue⟩ := clampOf?_eq_some_iff.mp h
  obtain ⟨rfl, rfl, rfl⟩ := clamp.inj hvalue
  simp [bounds]

/-- A colour is no clamp. -/
theorem rgbOf?_ne_clamp (text : List Char) (low ideal high : String) :
    rgbOf? text ≠ some (clamp low ideal high) := by
  intro h
  unfold rgbOf? at h
  split at h
  · -- What is read as a colour has three channels and is one.
    obtain ⟨red, -, h⟩ := Option.bind_eq_some_iff.mp h
    obtain ⟨green, -, h⟩ := Option.bind_eq_some_iff.mp h
    obtain ⟨blue, -, h⟩ := Option.bind_eq_some_iff.mp h
    exact absurd h (by simp)
  · exact absurd h (by simp)

end Value

namespace Vocabulary

open Value

section Clamps

variable {v : Vocabulary} {token : String} {text : List Char} {low ideal high : String}

/-- A value that was read as a clamp has the parts of the text. -/
theorem parts_of_clampValue (h : (clampValue token text).value = clamp low ideal high) :
    parts text = bounds low ideal high := by
  unfold clampValue at h
  split at h
  · next value hvalue => exact bounds_of_clampOf? (hvalue.trans (congrArg some h))
  · exact absurd h (by simp)

/-- A clamp under a breakpoint has the parts of the text. -/
theorem parts_of_mediaValue (h : (v.mediaValue token text).value = clamp low ideal high) :
    parts text = bounds low ideal high := by
  unfold mediaValue at h
  split at h
  · exact parts_of_clampValue h
  · split at h
    · -- A calculation and a plain value are no clamps.
      exact absurd h (by simp [calculate, ofExpression])
    · exact absurd h (by simp [plainValue])

/-- A clamp in brackets has the parts of what is between them. -/
theorem parts_of_bracketedValue (h : (bracketedValue text).value = clamp low ideal high) :
    parts text = bounds low ideal high := by
  unfold bracketedValue at h
  split at h
  · next value hvalue => exact bounds_of_clampOf? (hvalue.trans (congrArg some h))
  · split at h
    · exact absurd h (by simp [calculate, ofExpression])
    · exact absurd h (by simp)

/-- A single value that is a clamp has the parts of the text or of what is in its parentheses. -/
theorem exists_parts_of_singleValue
    (h : (v.singleValue token text).value = clamp low ideal high) :
    ∃ source, source <:+: text ∧ parts source = bounds low ideal high := by
  unfold singleValue at h
  split at h
  · -- The parentheses around the content are taken off first.
    next inner hinner => exact ⟨inner, infix_of_unwrap? hinner, parts_of_bracketedValue h⟩
  · split at h
    · -- Calculations, colours and plain values are no clamps.
      exact absurd h (by simp [calculate, ofExpression])
    · split at h
      · next value hvalue =>
        exact absurd (hvalue.trans (congrArg some h)) (rgbOf?_ne_clamp text low ideal high)
      · split at h
        · exact ⟨text, List.infix_refl text, parts_of_clampValue h⟩
        · exact absurd h (by simp [plainValue])

/-- **A clamp has the parts of a stretch of its token.** -/
theorem exists_parts_of_clamp (h : clamp low ideal high ∈ (v.read token).meaning.values) :
    ∃ source, source <:+: token.toList ∧ parts source = bounds low ideal high := by
  have horigin := v.origin_of_mem_read h
  -- The three origins of a value, of which one never gives a clamp.
  generalize hvalue : clamp low ideal high = value at horigin
  cases horigin with
  | plain _ => exact absurd hvalue (by simp [plainValue])
  | single htext =>
    obtain ⟨source, hsource, hparts⟩ := exists_parts_of_singleValue hvalue.symm
    exact ⟨source, hsource.trans htext, hparts⟩
  | media htext => exact ⟨_, htext, parts_of_mediaValue hvalue.symm⟩

end Clamps

/-- **Commas at depth zero divide a text into parts, and nothing else does.** The raw parts are the
text without these commas, and the parts are the raw parts without the blanks around them. A part is
not divided again, and the parts are found again when they are written with commas between them. In
particular this holds between the parentheses of a clamp, whatever stands in its three parts. -/
theorem parts_divided_at_outer_commas (v : Vocabulary) (token : String) (text : List Char) :
    [','].intercalate (rawParts text) = text ∧
      seams (rawParts text) = outerCommas text ∧
      (parts text).length = (outerCommas text).length + 1 ∧
      List.Forall₂ TrimsTo (rawParts text) (parts text) ∧
      (∀ p ∈ parts text, trim p = p ∧ parts p = [p]) ∧
      parts (joinParts (parts text)) = parts text ∧
      ∀ low ideal high, clamp low ideal high ∈ (v.read token).meaning.values →
        ∃ inner, (clamp low ideal high).text.toList = "clamp".toList ++ inParentheses inner ∧
          parts inner = bounds low ideal high ∧
          ∃ source, source <:+: token.toList ∧ parts source = bounds low ideal high := by
  refine ⟨intercalate_rawParts text, seams_rawParts text, length_parts text, trimsTo_parts text,
    fun p hp => ⟨trim_of_mem_parts hp, parts_of_mem_parts hp⟩, parts_joinParts_parts text, ?_⟩
  intro low ideal high hclamp
  obtain ⟨source, hsource, hparts⟩ := exists_parts_of_clamp hclamp
  -- What is written between the parentheses are parts with commas between them.
  have hinner : parts (joinParts (bounds low ideal high)) = bounds low ideal high := by
    rw [← hparts, parts_joinParts_parts]
  exact ⟨_, toList_text_clamp low ideal high, hinner, source, hsource, hparts⟩

/-- A clamp with a bracket that is closed by a parenthesis, and with a parenthesis that was never
opened. -/
theorem clamp_of_brackets_of_two_kinds :
    let v : Vocabulary :=
      ⟨.ofList [("w", .single "width")], .ofList [("Phone", "(max-width: 767px)")], ∅⟩
    let token := "w[@Phone[min[1px, 2vw) , 50%, 3px)]]"
    let low := "min[1px, 2vw)"
    clamp low "50%" "3px)" ∈ (v.read token).meaning.values ∧
      low.toList ∈ parts "min[1px, 2vw) , 50%".toList ∧ parts low.toList = [low.toList] ∧
      ∃ inner, (clamp low "50%" "3px)").text.toList = "clamp".toList ++ inParentheses inner ∧
        parts inner = bounds low "50%" "3px)" := by
  intro v token low
  have hclamp : clamp low "50%" "3px)" ∈ (v.read token).meaning.values := by decide +kernel
  have hlow : low.toList ∈ parts "min[1px, 2vw) , 50%".toList := by decide +kernel
  obtain ⟨-, -, -, -, hparts, -, hclamps⟩ :=
    parts_divided_at_outer_commas v token "min[1px, 2vw) , 50%".toList
  obtain ⟨inner, htext, hinner, -⟩ := hclamps low "50%" "3px)" hclamp
  exact ⟨hclamp, hlow, (hparts low.toList hlow).2, inner, htext, hinner⟩

end Vocabulary

end UtilityCss
