import UtilityCss.Path
import UtilityCss.Proofs.Scanning

/-!
# The steps of paths that are put together

What a path leads to depends on its steps, and its text only shows how they were written. This file
says which steps a path has that was made from others:

* `exists_pieces_join` — behind a path, the pieces of a relative one come as they are, except that
  the first of them cannot start anything any more;
* `exists_pieces_below` — a path that goes down through names (`Path.below`) has the pieces of its
  start and a piece for each name, so `steps_below`;
* `relativeTo?_below` — seen from its start, such a path is just its names.

A walk through directories makes no other paths, and names are told apart from dots and slashes by
`Path.IsFileName`, which every name on a path satisfies (`isFileName_of_mem_steps`).
-/

namespace UtilityCss

namespace Text

/-- Cutting at characters that pass a test is the cut of the library, whose lemmas are used
below. -/
theorem cutAt_eq_splitOnP (separates : Char → Bool) (text : List Char) :
    cutAt separates text = text.splitOnP separates := by
  induction text with
  | nil => rfl
  | cons c rest ih =>
    rw [cutAt_cons, List.splitOnP_cons_eq_if_modifyHead, ih]
    split
    · rfl
    · obtain ⟨piece, pieces, hpieces⟩ :=
        List.exists_cons_of_ne_nil (List.splitOnP_ne_nil separates rest)
      rw [hpieces]
      rfl

end Text

namespace Path

open Text

/-! ### Pieces -/

/-- The pieces of a text between slashes. -/
def cutSlashes (text : List Char) : List (List Char) := cutAt (· = '/') text

theorem cutSlashes_eq_splitOn (text : List Char) : cutSlashes text = text.splitOn '/' :=
  cutAt_eq_splitOnP _ text

theorem cutSlashes_ne_nil (text : List Char) : cutSlashes text ≠ [] := cutAt_ne_nil _ _

/-- A slash between two texts separates their pieces. -/
theorem cutSlashes_append (front rest : List Char) :
    cutSlashes (front ++ '/' :: rest) = cutSlashes front ++ cutSlashes rest :=
  cutAt_append rfl front rest

/-- The pieces with slashes between them are the text again. -/
theorem intercalate_cutSlashes (text : List Char) :
    List.intercalate ['/'] (cutSlashes text) = text := by
  rw [cutSlashes_eq_splitOn]
  exact List.intercalate_splitOn '/'

/-- Pieces without slashes are what their text is cut into. -/
theorem cutSlashes_intercalate {pieces : List (List Char)} (hne : pieces ≠ [])
    (h : ∀ piece ∈ pieces, '/' ∉ piece) :
    cutSlashes (List.intercalate ['/'] pieces) = pieces := by
  rw [cutSlashes_eq_splitOn]
  exact List.splitOn_intercalate '/' h hne

/-- No slash is left in a piece. -/
theorem slash_notMem_of_mem_cutSlashes {text piece : List Char} (h : piece ∈ cutSlashes text) :
    '/' ∉ piece := by
  induction text generalizing piece with
  | nil =>
    rw [List.mem_singleton.mp h]
    exact List.not_mem_nil
  | cons c rest ih =>
    -- The first character starts a new piece or goes into the first piece of the rest.
    obtain ⟨first, others, hcut⟩ := List.exists_cons_of_ne_nil (cutSlashes_ne_nil rest)
    unfold cutSlashes at h hcut ih
    rw [cutAt_cons, hcut] at h
    rw [hcut] at ih
    split at h
    · rcases List.mem_cons.mp h with rfl | hmem
      · exact List.not_mem_nil
      · exact ih hmem
    · next hc =>
      rcases List.mem_cons.mp h with rfl | hmem
      · -- The character that went into the first piece is no slash.
        intro hslash
        rcases List.mem_cons.mp hslash with rfl | hslash
        · exact hc rfl
        · exact ih List.mem_cons_self hslash
      · exact ih (List.mem_cons_of_mem _ hmem)

/-- A piece with another one before it. -/
def inner (piece : List Char) : Piece := ⟨piece, innerStep? piece⟩

/-- The pieces at the start of a path that goes on behind them. -/
def openPieces : List (List Char) → List Piece
  | [] => []
  | first :: rest => ⟨first, firstStep? false first⟩ :: rest.map inner

/-- The pieces of a path by a cut of its text in two. The first piece is not alone then. -/
theorem pieces_of_cutSlashes {p : Path} {front back : List (List Char)} (hfront : front ≠ [])
    (hback : back ≠ []) (h : cutSlashes p.text.toList = front ++ back) :
    p.pieces = openPieces front ++ back.map inner := by
  obtain ⟨first, rest, rfl⟩ := List.exists_cons_of_ne_nil hfront
  unfold cutSlashes at h
  unfold pieces
  rw [h, List.cons_append]
  have halone : (rest ++ back).isEmpty = false := by
    rw [← Bool.not_eq_true, List.isEmpty_iff]
    exact fun hnil => hback (List.append_eq_nil_iff.mp hnil).2
  simp only [halone, List.map_append]
  rfl

/-- Only for the empty path does it matter that nothing comes behind it. -/
theorem pieces_eq_openPieces {p : Path} (hp : p.text ≠ "") :
    p.pieces = openPieces (cutSlashes p.text.toList) := by
  obtain ⟨first, rest, hcut⟩ := List.exists_cons_of_ne_nil (cutSlashes_ne_nil p.text.toList)
  rw [hcut]
  unfold cutSlashes at hcut
  unfold pieces
  rw [hcut]
  have hfirst : firstStep? rest.isEmpty first = firstStep? false first := by
    cases rest with
    | cons piece rest => rfl
    | nil =>
      -- Then the text is its first piece, which is not empty.
      have htext := intercalate_cutSlashes p.text.toList
      rw [cutSlashes, hcut, List.intercalate_singleton] at htext
      have hne : first.isEmpty = false := by
        rw [← Bool.not_eq_true, List.isEmpty_iff, htext, String.toList_eq_nil_iff]
        exact hp
      unfold firstStep?
      rw [hne]
      rfl
  show (⟨first, _⟩ : Piece) :: _ = _
  rw [hfirst]
  rfl

/-- The texts of the pieces are what the text of the path is cut into. -/
theorem map_text_pieces (p : Path) : p.pieces.map Piece.text = cutSlashes p.text.toList := by
  unfold pieces cutSlashes
  split
  · next hcut => rw [hcut]; rfl
  · next first rest hcut =>
    rw [hcut, List.map_cons, List.map_map]
    exact congrArg _ (List.map_id rest)

/-- **The text of a path is its pieces**, with slashes between them. -/
theorem toList_text_eq (p : Path) :
    p.text.toList = List.intercalate ['/'] (p.pieces.map Piece.text) := by
  rw [map_text_pieces, intercalate_cutSlashes]

/-! ### Names -/

/-- **A name**, and neither a dot nor two, nor several names. -/
structure IsFileName (name : String) : Prop where
  ne_nil : name.toList ≠ []
  slash : '/' ∉ name.toList
  ne_dot : name.toList ≠ ['.']
  ne_dots : name.toList ≠ ['.', '.']

/-- A piece steps down to a name just if it is this name, and no dots. -/
theorem innerStep?_eq_down_iff {piece : List Char} {name : String} :
    innerStep? piece = some (.down name) ↔
      piece = name.toList ∧ name.toList ≠ [] ∧ name.toList ≠ ['.'] ∧ name.toList ≠ ['.', '.'] := by
  unfold innerStep?
  constructor
  · intro h
    split at h
    · cases h
    · next hnone =>
      split at h
      · cases h
      · next hdots =>
        cases h
        rw [String.toList_ofList]
        rw [Bool.or_eq_true, List.isEmpty_iff, decide_eq_true_iff, not_or] at hnone
        exact ⟨rfl, hnone.1, hnone.2, hdots⟩
  · rintro ⟨rfl, hne, hdot, hdots⟩
    have hnone : ¬ (name.toList.isEmpty || decide (name.toList = ['.'])) = true := by
      rw [Bool.or_eq_true, List.isEmpty_iff, decide_eq_true_iff, not_or]
      exact ⟨hne, hdot⟩
    rw [if_neg hnone, if_neg hdots, String.ofList_toList]

/-- The first piece steps down to a name just if any other piece would. -/
theorem firstStep?_eq_down_iff {alone : Bool} {piece : List Char} {name : String} :
    firstStep? alone piece = some (.down name) ↔ innerStep? piece = some (.down name) := by
  unfold firstStep?
  split
  · -- An empty piece at the start stands for the root.
    next hroot =>
    have hnil : piece = [] := List.isEmpty_iff.mp (Bool.and_eq_true_iff.mp hroot).1
    rw [hnil]
    exact ⟨fun h => (nomatch h), fun h => (nomatch h)⟩
  · split
    · next hdot =>
      rw [hdot]
      exact ⟨fun h => (nomatch h), fun h => (nomatch h)⟩
    · exact Iff.rfl

/-- A step down to a name comes from a piece of the text. -/
theorem mem_pieces_of_down {p : Path} {name : String} (h : .down name ∈ p.steps) :
    ∃ piece ∈ cutSlashes p.text.toList, innerStep? piece = some (.down name) := by
  obtain ⟨piece, hpiece, hstep⟩ := List.mem_filterMap.mp h
  unfold pieces at hpiece
  unfold cutSlashes
  split at hpiece
  · cases hpiece
  · next first rest hcut =>
    rw [hcut]
    -- The first piece has its own rule, which agrees with the others for names.
    rcases List.mem_cons.mp hpiece with rfl | hmem
    · exact ⟨first, List.mem_cons_self, firstStep?_eq_down_iff.mp hstep⟩
    · obtain ⟨text, htext, rfl⟩ := List.mem_map.mp hmem
      exact ⟨text, List.mem_cons_of_mem _ htext, hstep⟩

/-- What a path steps down to is a name. -/
theorem isFileName_of_mem_steps {p : Path} {name : String} (h : .down name ∈ p.steps) :
    IsFileName name := by
  obtain ⟨piece, hpiece, hstep⟩ := mem_pieces_of_down h
  obtain ⟨rfl, hne, hdot, hdots⟩ := innerStep?_eq_down_iff.mp hstep
  exact ⟨hne, slash_notMem_of_mem_cutSlashes hpiece, hdot, hdots⟩

/-- The characters of a name on a path are characters of its text. -/
theorem mem_text_of_mem_steps {p : Path} {name : String} (h : .down name ∈ p.steps) {c : Char}
    (hc : c ∈ name.toList) : c ∈ p.text.toList := by
  obtain ⟨piece, hpiece, hstep⟩ := mem_pieces_of_down h
  obtain ⟨rfl, -⟩ := innerStep?_eq_down_iff.mp hstep
  exact (infix_of_mem_cut hpiece).subset hc

/-- The piece that a name makes. -/
def namePiece (name : String) : Piece := ⟨name.toList, some (.down name)⟩

namespace IsFileName

variable {name : String} (h : IsFileName name)
include h

/-- A name makes one piece, which steps down to it. -/
theorem inner_eq : inner name.toList = namePiece name := by
  rw [inner, innerStep?_eq_down_iff.mpr ⟨rfl, h.ne_nil, h.ne_dot, h.ne_dots⟩, namePiece]

/-- A name is not cut. -/
theorem cutSlashes_eq : cutSlashes name.toList = [name.toList] :=
  cutAt_of_forall_not fun _ hc => decide_eq_false fun heq => h.slash (heq ▸ hc)

/-- A name alone is a relative path. -/
theorem not_isAbsolute : isAbsolute ⟨name⟩ = false := by
  refine decide_eq_false fun hhead => ?_
  exact h.slash (List.mem_of_head? hhead)

end IsFileName

/-! ### Joined paths -/

/-- Behind a path that does not end in a slash, all pieces are new ones. -/
theorem pieces_join_of_getLast? {p q : Path} (hp : p.text ≠ "")
    (hlast : p.text.toList.getLast? ≠ some '/') (hq : q.isAbsolute = false) :
    (p.join q).pieces = p.pieces ++ (cutSlashes q.text.toList).map inner := by
  have hempty : p.text.isEmpty = false := by
    rw [← Bool.not_eq_true, String.isEmpty_iff]
    exact hp
  have htext : (p.join q).text.toList = p.text.toList ++ '/' :: q.text.toList := by
    rw [join, hq, if_neg Bool.false_ne_true, if_neg (by simp [hlast, hempty]),
      String.toList_append, String.toList_append, List.append_assoc]
    rfl
  rw [pieces_eq_openPieces hp]
  apply pieces_of_cutSlashes (cutSlashes_ne_nil _) (cutSlashes_ne_nil _)
  rw [htext, cutSlashes_append]

/-- **The pieces of a path with another one behind it.** -/
theorem exists_pieces_join {p : Path} (hp : p.text ≠ "") :
    ∃ base : List Piece, base.filterMap Piece.step = p.steps ∧
      ∀ q : Path, q.isAbsolute = false →
        (p.join q).pieces = base ++ (cutSlashes q.text.toList).map inner := by
  by_cases hslash : p.text.toList.getLast? = some '/'
  · -- The last piece is empty, and the relative path is written in its place.
    obtain ⟨front, hfront⟩ := List.getLast?_eq_some_iff.mp hslash
    have hcut : cutSlashes p.text.toList = cutSlashes front ++ [[]] := by
      rw [hfront, cutSlashes_append]
      rfl
    refine ⟨openPieces (cutSlashes front), ?_, ?_⟩
    · rw [steps, pieces_of_cutSlashes (cutSlashes_ne_nil front) (by simp) hcut,
        List.filterMap_append]
      exact (List.append_nil _).symm
    · intro q hq
      have htext : (p.join q).text.toList = front ++ '/' :: q.text.toList := by
        rw [join, hq, if_neg Bool.false_ne_true, if_pos (by simp [hslash]), String.toList_append,
          hfront, List.append_assoc]
        rfl
      apply pieces_of_cutSlashes (cutSlashes_ne_nil front) (cutSlashes_ne_nil _)
      rw [htext, cutSlashes_append]
  · exact ⟨p.pieces, rfl, fun q => pieces_join_of_getLast? hp hslash⟩

/-- A path with a relative one behind it is not empty. -/
theorem text_join_ne {p q : Path} (hp : p.text ≠ "") (hq : q.isAbsolute = false) :
    (p.join q).text ≠ "" := by
  unfold join
  rw [hq]
  split
  · contradiction
  · split
    · exact fun h => hp (String.append_eq_empty_iff.mp h).1
    · intro h
      exact hp (String.append_eq_empty_iff.mp (String.append_eq_empty_iff.mp h).1).1

/-- **A path with names behind it**, one after another. -/
def below (p : Path) (names : List String) : Path :=
  names.foldl (fun path name => path.join ⟨name⟩) p

@[simp] theorem below_nil (p : Path) : p.below [] = p := rfl

theorem below_concat (p : Path) (names : List String) (name : String) :
    p.below (names ++ [name]) = (p.below names).join ⟨name⟩ := List.foldl_concat ..

/-- A path with a name behind it does not end in a slash. -/
theorem getLast?_text_join {p : Path} {name : String} (hname : IsFileName name) :
    (p.join ⟨name⟩).text.toList.getLast? ≠ some '/' := by
  have hlast : ∀ front : List Char, (front ++ name.toList).getLast? ≠ some '/' := by
    intro front hlast
    rw [List.getLast?_append_of_ne_nil _ hname.ne_nil] at hlast
    exact hname.slash (List.mem_of_getLast? hlast)
  unfold join
  rw [hname.not_isAbsolute, if_neg Bool.false_ne_true]
  split
  · rw [String.toList_append]
    exact hlast _
  · rw [String.toList_append]
    exact hlast _

theorem map_inner_name {name : String} (hname : IsFileName name) :
    (cutSlashes name.toList).map inner = [namePiece name] := by
  rw [hname.cutSlashes_eq, List.map_singleton, hname.inner_eq]

/-- A path that goes down through names is not empty. -/
theorem text_below_ne {p : Path} (hp : p.text ≠ "") {names : List String}
    (hnames : ∀ name ∈ names, IsFileName name) : (p.below names).text ≠ "" := by
  induction names generalizing p with
  | nil => exact hp
  | cons name names ih =>
    obtain ⟨hname, hnames⟩ := List.forall_mem_cons.mp hnames
    exact ih (text_join_ne hp hname.not_isAbsolute) hnames

/-- The characters of a joined path are those of both paths, and a slash. -/
theorem mem_text_join {p q : Path} {c : Char} (h : c ∈ (p.join q).text.toList) :
    c ∈ p.text.toList ∨ c = '/' ∨ c ∈ q.text.toList := by
  unfold join at h
  split at h
  · exact .inr (.inr h)
  · split at h
    · rw [String.toList_append, List.mem_append] at h
      exact h.imp_right .inr
    · rw [String.toList_append, String.toList_append, List.mem_append, List.mem_append] at h
      rcases h with (h | h) | h
      · exact .inl h
      · exact .inr (.inl (List.mem_singleton.mp h))
      · exact .inr (.inr h)

/-- The characters of a path that goes down are those of its start and of the names, and slashes. -/
theorem mem_text_below {p : Path} {names : List String} {c : Char}
    (h : c ∈ (p.below names).text.toList) :
    c ∈ p.text.toList ∨ c = '/' ∨ ∃ name ∈ names, c ∈ name.toList := by
  induction names generalizing p with
  | nil => exact .inl h
  | cons name names ih =>
    rcases ih h with h | h | ⟨other, hother, h⟩
    · rcases mem_text_join h with h | h | h
      · exact .inl h
      · exact .inr (.inl h)
      · exact .inr (.inr ⟨name, List.mem_cons_self, h⟩)
    · exact .inr (.inl h)
    · exact .inr (.inr ⟨other, List.mem_cons_of_mem _ hother, h⟩)

/-- **The pieces of a path that goes down through names.** -/
theorem exists_pieces_below {p : Path} (hp : p.text ≠ "") :
    ∃ base : List Piece, base.filterMap Piece.step = p.steps ∧
      (∀ q : Path, q.isAbsolute = false →
        (p.join q).pieces = base ++ (cutSlashes q.text.toList).map inner) ∧
      ∀ names : List String, names ≠ [] → (∀ name ∈ names, IsFileName name) →
        (p.below names).pieces = base ++ names.map namePiece := by
  obtain ⟨base, hsteps, hjoin⟩ := exists_pieces_join hp
  refine ⟨base, hsteps, hjoin, ?_⟩
  intro names hne hnames
  -- From the right: the first name may be written behind a slash that is already there.
  induction names using List.reverseRecOn with
  | nil => exact absurd rfl hne
  | append_singleton names name ih =>
    obtain ⟨hnames, hname⟩ := List.forall_mem_append.mp hnames
    have hname := hname name List.mem_cons_self
    rw [below_concat]
    rcases List.eq_nil_or_concat' names with rfl | ⟨front, last, rfl⟩
    · rw [below_nil, hjoin _ hname.not_isAbsolute, map_inner_name hname]
      rfl
    · -- Behind a name there is no slash yet, so the next name is a new piece.
      have hlast := hnames last (by simp)
      have hslash : (p.below (front ++ [last])).text.toList.getLast? ≠ some '/' := by
        rw [below_concat]
        exact getLast?_text_join hlast
      have hmap : (front ++ [last] ++ [name]).map namePiece
          = (front ++ [last]).map namePiece ++ [namePiece name] := List.map_append
      rw [pieces_join_of_getLast? (text_below_ne hp hnames) hslash hname.not_isAbsolute,
        ih (by simp) hnames, map_inner_name hname, List.append_assoc, hmap]

/-- The pieces of names stand for steps down to them. -/
theorem filterMap_namePiece (names : List String) :
    (names.map namePiece).filterMap Piece.step = names.map .down := by
  rw [List.filterMap_map, show Piece.step ∘ namePiece = some ∘ Step.down from rfl,
    List.filterMap_eq_map]

/-- **The steps of a path that goes down through names.** -/
theorem steps_below {p : Path} (hp : p.text ≠ "") {names : List String}
    (hnames : ∀ name ∈ names, IsFileName name) :
    (p.below names).steps = p.steps ++ names.map .down := by
  obtain ⟨base, hsteps, -, hbelow⟩ := exists_pieces_below hp
  cases names with
  | nil => exact (List.append_nil _).symm
  | cons name names =>
    rw [steps, hbelow _ (by simp) hnames, List.filterMap_append, hsteps, filterMap_namePiece]

/-! ### The way from the start -/

/-- A path that is not empty has a step. -/
theorem steps_ne_nil {p : Path} (hp : p.text ≠ "") : p.steps ≠ [] := by
  obtain ⟨first, rest, hcut⟩ := List.exists_cons_of_ne_nil (cutSlashes_ne_nil p.text.toList)
  rw [steps, pieces_eq_openPieces hp, hcut]
  -- The first piece of a path that is not empty always stands for a step.
  have hfirst : (firstStep? false first).isSome = true := by
    unfold firstStep? innerStep?
    split
    · rfl
    · next hroot =>
      split
      · rfl
      · next hdot =>
        have hne : first.isEmpty = false := by simpa using hroot
        rw [hne, decide_eq_false hdot, if_neg (by simp)]
        split
        · rfl
        · rfl
  intro hnil
  have hnone := List.filterMap_eq_nil_iff.mp hnil _ List.mem_cons_self
  rw [show firstStep? false first = none from hnone] at hfirst
  cases hfirst

/-- Behind the steps of a front, only what leads nowhere is left of it. -/
theorem dropWhile_dropSteps (front back : List Piece) :
    (dropSteps (front.filterMap Piece.step).length (front ++ back)).dropWhile
        (fun piece => piece.step.isNone)
      = back.dropWhile fun piece => piece.step.isNone := by
  induction front with
  | nil => rw [List.filterMap_nil, List.length_nil, List.nil_append, dropSteps]
  | cons piece front ih =>
    cases hstep : piece.step with
    | some step =>
      rw [List.filterMap_cons_some hstep, List.length_cons, List.cons_append, dropSteps, hstep,
        if_pos (by rfl)]
      exact ih
    | none =>
      rw [List.filterMap_cons_none hstep, List.cons_append]
      -- A piece without a step is dropped by the count or, when that is over, by its missing step.
      cases hlength : (front.filterMap Piece.step).length with
      | zero =>
        rw [hlength, dropSteps] at ih
        rw [dropSteps, List.dropWhile_cons_of_pos (by simp [hstep])]
        exact ih
      | succ n =>
        rw [hlength] at ih
        rw [dropSteps, hstep, if_neg (by simp)]
        exact ih

/-- Names lead somewhere, so none of their pieces is dropped at the front. -/
theorem dropWhile_namePiece (names : List String) :
    (names.map namePiece).dropWhile (fun piece => piece.step.isNone) = names.map namePiece := by
  cases names with
  | nil => rfl
  | cons name names => rfl

/-- No piece of a name is trimmed off at either end. -/
theorem trimPieces_namePiece (names : List String) :
    trimPieces (names.map namePiece) = names.map namePiece := by
  rw [trimPieces, ← List.map_reverse, dropWhile_namePiece, List.map_reverse, List.reverse_reverse]

/-- The path that the pieces of names are written as. -/
theorem ofPieces_namePiece (names : List String) :
    ofPieces (names.map namePiece)
      = ⟨String.ofList (List.intercalate ['/'] (names.map String.toList))⟩ := by
  have hroot : (names.map namePiece).map Piece.step ≠ [some .root] := by
    cases names with
    | nil => simp
    | cons name names => simp [namePiece]
  rw [ofPieces, if_neg hroot, List.map_map]
  rfl

/-- **The way from the start of a path that goes down through names** is these names. -/
theorem relativeTo?_below {p : Path} (hp : p.text ≠ "") {names : List String}
    (hnames : ∀ name ∈ names, IsFileName name) :
    (p.below names).relativeTo? p
      = some ⟨String.ofList (List.intercalate ['/'] (names.map String.toList))⟩ := by
  obtain ⟨base, hsteps, -, hbelow⟩ := exists_pieces_below hp
  have hstart : p.steps.isEmpty = false := by simpa using steps_ne_nil hp
  -- The steps of the start come first, and what is left behind them are the names.
  have hfront : p.steps.isPrefixOf (p.below names).steps = true := by
    rw [List.isPrefixOf_iff_prefix, steps_below hp hnames]
    exact List.prefix_append _ _
  have hrest : (dropSteps p.steps.length (p.below names).pieces).dropWhile
      (fun piece => piece.step.isNone) = names.map namePiece := by
    cases names with
    | nil =>
      -- The path itself: all its steps are dropped, and then what leads nowhere.
      have hall := dropWhile_dropSteps p.pieces []
      rwa [List.append_nil] at hall
    | cons name names =>
      rw [hbelow _ (by simp) hnames, ← hsteps, dropWhile_dropSteps, dropWhile_namePiece]
  unfold relativeTo?
  rw [hstart, if_neg Bool.false_ne_true, if_pos hfront]
  simp only [hrest, trimPieces_namePiece, ofPieces_namePiece]

/-- The steps of a path that is written as names with slashes between them. -/
theorem steps_of_names {names : List String} (hnames : ∀ name ∈ names, IsFileName name) :
    steps ⟨String.ofList (List.intercalate ['/'] (names.map String.toList))⟩
      = names.map .down := by
  cases names with
  | nil => rfl
  | cons name names =>
    have hcut : cutSlashes (String.ofList
        (List.intercalate ['/'] ((name :: names).map String.toList))).toList
        = (name :: names).map String.toList := by
      rw [String.toList_ofList, cutSlashes_intercalate (by simp)]
      intro piece hpiece
      obtain ⟨other, hother, rfl⟩ := List.mem_map.mp hpiece
      exact (hnames other hother).slash
    obtain ⟨hname, hrest⟩ := List.forall_mem_cons.mp hnames
    have hne : String.ofList (List.intercalate ['/'] ((name :: names).map String.toList)) ≠ "" := by
      intro hempty
      rw [hempty] at hcut
      exact hname.ne_nil (List.cons.inj hcut).1.symm
    -- The first name is no dot, so it steps down like the others.
    have hfirst : firstStep? false name.toList = some (.down name) :=
      firstStep?_eq_down_iff.mpr (congrArg Piece.step hname.inner_eq)
    have hmap : (names.map String.toList).map inner = names.map namePiece := by
      rw [List.map_map]
      exact List.map_congr_left fun other hother => (hrest other hother).inner_eq
    -- The text matters only through the pieces that it is cut into.
    generalize String.ofList (List.intercalate ['/'] ((name :: names).map String.toList)) = text
      at hcut hne ⊢
    have hpieces : pieces ⟨text⟩ = (name :: names).map namePiece := by
      rw [pieces_eq_openPieces hne, hcut, List.map_cons, openPieces, hfirst, hmap]
      rfl
    rw [steps, hpieces, filterMap_namePiece]

end Path

end UtilityCss
