import Mathlib.Data.String.Basic
import UtilityCss.Proofs.ProperTrees
import UtilityCss.Proofs.Saving

/-!
# The paths around a path

To write a file, the directories around it are made, by the paths that are left when the last steps
of its path are taken off. Such a path has some of the first pieces of the whole one
(`IsAncestor.exists_front`), so it is never longer. The paths around a file also do not depend on
its extension (`isAncestor_withExtension`).

A walk from a root names the same directories by other paths: the path of the root with names behind
it. If the path of the file was the path of the root with a relative path behind it, the names are
among the pieces of that relative path, so the path of the walk is not longer than the path by which
the directory was made (`size_below_le`).
-/

namespace UtilityCss

namespace Path

/-! ### First pieces -/

theorem isPrefix_trimPieces (pieces : List Piece) : trimPieces pieces <+: pieces :=
  List.rdropWhile_prefix _ pieces

theorem trimPieces_trimPieces (pieces : List Piece) :
    trimPieces (trimPieces pieces) = trimPieces pieces :=
  List.rdropWhile_idempotent _ pieces

/-- Nothing is trimmed if the last piece stands for a step. -/
theorem trimPieces_concat (before : List Piece) {last : Piece} (hlast : last.step.isSome = true) :
    trimPieces (before ++ [last]) = before ++ [last] := by
  have hkept : ¬ last.step.isNone = true := by
    rw [← Option.not_isSome, hlast]
    exact Bool.false_ne_true
  exact List.rdropWhile_concat_neg (fun piece : Piece => piece.step.isNone) before last hkept

/-- Trimmed pieces stand for the same steps. -/
theorem filterMap_trimPieces (pieces : List Piece) :
    (trimPieces pieces).filterMap Piece.step = pieces.filterMap Piece.step := by
  -- The induction takes pieces off the end, where they are trimmed.
  induction pieces using List.reverseRecOn with
  | nil => rfl
  | append_singleton pieces piece ih =>
    cases hstep : piece.step with
    | some step => rw [trimPieces_concat pieces (by rw [hstep]; rfl)]
    | none =>
      have htrim : trimPieces (pieces ++ [piece]) = trimPieces pieces :=
        List.rdropWhile_concat_pos (fun piece : Piece => piece.step.isNone) pieces piece
          (by rw [hstep]; rfl)
      rw [htrim, ih, List.filterMap_append, List.filterMap_cons_none hstep, List.filterMap_nil,
        List.append_nil]

/-- Pieces keep the texts that they are read from. -/
theorem map_text_openPieces (texts : List (List Char)) :
    (openPieces texts).map Piece.text = texts := by
  cases texts with
  | nil => rfl
  | cons first rest =>
    rw [openPieces, List.map_cons, List.map_map]
    exact congrArg _ (List.map_id rest)

/-- The first pieces of a path are pieces of the first texts. -/
theorem exists_openPieces_of_isPrefix {front : List Piece} {texts : List (List Char)}
    (h : front <+: openPieces texts) : ∃ firsts, firsts <+: texts ∧ front = openPieces firsts := by
  cases texts with
  | nil => exact ⟨[], List.prefix_rfl, List.prefix_nil.mp h⟩
  | cons first rest =>
    -- The first piece is read in a way of its own, so it has to be the same one.
    cases front with
    | nil => exact ⟨[], List.nil_prefix, rfl⟩
    | cons piece front =>
      obtain ⟨rfl, hfront⟩ := List.cons_prefix_cons.mp h
      refine ⟨first :: rest.take front.length, ?_, ?_⟩
      · exact List.cons_prefix_cons.mpr ⟨rfl, List.take_prefix _ rest⟩
      · rw [openPieces, List.map_take]
        exact congrArg _ (List.prefix_iff_eq_take.mp hfront)

/-- A path starts at the root just if its first piece is empty. -/
theorem firstStep?_eq_root_iff {piece : List Char} :
    firstStep? false piece = some .root ↔ piece = [] := by
  constructor
  · intro h
    by_contra hne
    unfold firstStep? at h
    rw [List.isEmpty_eq_false_iff.mpr hne, Bool.false_and, if_neg Bool.false_ne_true] at h
    split at h
    · cases h
    · exact innerStep?_ne_root piece h
  · rintro rfl
    rfl

/-- The pieces of the root. -/
theorem eq_of_map_step_eq_root {firsts : List (List Char)}
    (h : (openPieces firsts).map Piece.step = [some .root]) : firsts = [[]] := by
  obtain ⟨piece, hpiece, hstep⟩ := List.map_eq_singleton_iff.mp h
  cases firsts with
  | nil => cases hpiece
  | cons first rest =>
    obtain ⟨rfl, hrest⟩ := List.cons.inj hpiece
    rw [firstStep?_eq_root_iff.mp hstep, List.map_eq_nil_iff.mp hrest]

/-- **Pieces are read as they were written.** Pieces at the end that lead nowhere do not matter; a
path that is only the root has one more of them. -/
theorem trimPieces_pieces_ofPieces {firsts : List (List Char)}
    (hslash : ∀ piece ∈ firsts, '/' ∉ piece)
    (htrim : trimPieces (openPieces firsts) = openPieces firsts) :
    trimPieces (ofPieces (openPieces firsts)).pieces = openPieces firsts := by
  by_cases hne : firsts = []
  · rw [hne]
    decide
  unfold ofPieces
  split
  · next hroot =>
    rw [eq_of_map_step_eq_root hroot]
    decide
  · next hroot =>
    -- The text is that of the pieces with slashes between them, so it is cut into them again.
    have hcut : cutSlashes (String.ofList
        (List.intercalate ['/'] ((openPieces firsts).map Piece.text))).toList = firsts := by
      rw [String.toList_ofList, map_text_openPieces, cutSlashes_intercalate hne hslash]
    have htext : String.ofList
        (List.intercalate ['/'] ((openPieces firsts).map Piece.text)) ≠ "" := by
      -- Otherwise the only piece would be empty, and this is the root.
      intro hempty
      rw [hempty] at hcut
      apply hroot
      rw [← hcut]
      rfl
    generalize String.ofList _ = text at hcut htext ⊢
    rw [pieces_eq_openPieces (p := ⟨text⟩) htext, hcut, htrim]

/-! ### Ancestors -/

/-- The parent of a path drops its last piece that stands for a step. -/
theorem parent?_of_trimPieces {p : Path} {before : List Piece} {last : Piece}
    (h : trimPieces p.pieces = before ++ [last]) (hlast : last.step ≠ some .root) :
    p.parent? = some (ofPieces (trimPieces before)) := by
  unfold parent?
  rw [h, List.reverse_append, List.reverse_singleton, List.singleton_append]
  show (if _ then _ else _) = _
  rw [if_neg hlast, List.reverse_reverse]

/-- A parent has some of the first pieces. -/
theorem exists_front_of_parent? {p q : Path} (h : p.parent? = some q) :
    ∃ front, front <+: trimPieces p.pieces ∧ trimPieces front = front ∧ q = ofPieces front := by
  unfold parent? at h
  split at h
  · cases h
  · next last before hreverse =>
    split at h
    · cases h
    · cases h
      -- The pieces are reversed to take the last one off, so they are turned round again.
      have hpieces : trimPieces p.pieces = before.reverse ++ [last] := by
        rw [← List.reverse_reverse (trimPieces p.pieces), hreverse, List.reverse_cons]
      refine ⟨trimPieces before.reverse, ?_, trimPieces_trimPieces _, rfl⟩
      rw [hpieces]
      exact (isPrefix_trimPieces _).trans (List.prefix_append _ _)

theorem text_ne_of_trimPieces {p : Path} (h : trimPieces p.pieces ≠ []) : p.text ≠ "" := by
  intro hempty
  obtain rfl : p = ⟨""⟩ := congrArg Path.mk hempty
  exact h rfl

/-- No slash is left in the first pieces of a path. -/
theorem slash_notMem_of_isPrefix {p : Path} {firsts : List (List Char)}
    (h : openPieces firsts <+: p.pieces) : ∀ piece ∈ firsts, '/' ∉ piece := by
  have htexts : (openPieces firsts).map Piece.text <+: p.pieces.map Piece.text := h.map _
  rw [map_text_openPieces, map_text_pieces] at htexts
  exact fun piece hpiece => slash_notMem_of_mem_cutSlashes (htexts.subset hpiece)

/-- **A path around another one has some of its first pieces.** -/
theorem IsAncestor.exists_front {p q : Path} (h : q.IsAncestor p) :
    ∃ firsts, openPieces firsts <+: p.pieces ∧
      trimPieces (openPieces firsts) = openPieces firsts ∧ q = ofPieces (openPieces firsts) := by
  -- The induction goes from the path outwards: each parent drops some more of the pieces.
  induction h using Relation.TransGen.head_induction_on with
  | single hparent =>
    obtain ⟨front, hfront, htrim, rfl⟩ := exists_front_of_parent? hparent
    -- The empty path has no parent.
    have htext : p.text ≠ "" := by
      refine text_ne_of_trimPieces fun hnil => ?_
      unfold IsParent parent? at hparent
      rw [hnil] at hparent
      cases hparent
    have hpieces := hfront.trans (isPrefix_trimPieces _)
    rw [pieces_eq_openPieces htext] at hpieces ⊢
    obtain ⟨firsts, -, rfl⟩ := exists_openPieces_of_isPrefix hpieces
    exact ⟨firsts, hpieces, htrim, rfl⟩
  | head hparent _ ih =>
    obtain ⟨firsts, hfirsts, htrim, rfl⟩ := ih
    obtain ⟨front, hfront, htrim', rfl⟩ := exists_front_of_parent? hparent
    rw [trimPieces_pieces_ofPieces (slash_notMem_of_isPrefix hfirsts) htrim] at hfront
    obtain ⟨firsts', -, rfl⟩ := exists_openPieces_of_isPrefix hfront
    exact ⟨firsts', hfront.trans hfirsts, htrim', rfl⟩

/-- The steps of a path that is written from first pieces are those of the pieces. -/
theorem steps_ofPieces {p : Path} {firsts : List (List Char)}
    (hfirsts : openPieces firsts <+: p.pieces)
    (htrim : trimPieces (openPieces firsts) = openPieces firsts) :
    (ofPieces (openPieces firsts)).steps = (openPieces firsts).filterMap Piece.step := by
  rw [steps, ← filterMap_trimPieces,
    trimPieces_pieces_ofPieces (slash_notMem_of_isPrefix hfirsts) htrim]

/-- Paths with the same parent have the same paths around them. -/
theorem isAncestor_congr {p p' q : Path} (h : p.parent? = p'.parent?) :
    q.IsAncestor p ↔ q.IsAncestor p' := by
  unfold IsAncestor
  -- The first step outwards is the only one that looks at the path itself.
  rw [Relation.TransGen.tail'_iff, Relation.TransGen.tail'_iff]
  unfold IsParent
  rw [h]

/-! ### Extensions -/

/-- A piece stands for a step unless it is empty or a dot. -/
theorem innerStep?_isSome_iff {piece : List Char} :
    (innerStep? piece).isSome = true ↔ piece ≠ [] ∧ piece ≠ ['.'] := by
  unfold innerStep?
  split
  · next hskip => simpa [← not_or] using hskip
  · next hkept =>
    have hne : piece ≠ [] ∧ piece ≠ ['.'] := by simpa [← not_or] using hkept
    refine ⟨fun _ => hne, fun _ => ?_⟩
    split
    · rfl
    · rfl

/-- The last piece is read like the others if it stands for a step. -/
theorem openPieces_concat (firsts : List (List Char)) {last : List Char}
    (hlast : (innerStep? last).isSome = true) :
    openPieces (firsts ++ [last]) = openPieces firsts ++ [inner last] := by
  cases firsts with
  | nil =>
    -- Only an empty piece or a dot would start in another way.
    obtain ⟨hne, hdot⟩ := innerStep?_isSome_iff.mp hlast
    have hfirst : firstStep? false last = innerStep? last := by
      unfold firstStep?
      rw [List.isEmpty_eq_false_iff.mpr hne, Bool.false_and, if_neg Bool.false_ne_true, if_neg hdot]
    show [(⟨last, firstStep? false last⟩ : Piece)] = [inner last]
    rw [hfirst]
    rfl
  | cons first rest =>
    rw [List.cons_append, openPieces, openPieces, List.map_append]
    rfl

/-- The parent of a path that is written from its pieces. -/
theorem parent?_ofList {firsts : List (List Char)} {last : List Char}
    (hfirsts : ∀ piece ∈ firsts, '/' ∉ piece) (hslash : '/' ∉ last)
    (hlast : (innerStep? last).isSome = true) :
    parent? ⟨String.ofList (List.intercalate ['/'] (firsts ++ [last]))⟩
      = some (ofPieces (trimPieces (openPieces firsts))) := by
  have hcut : cutSlashes (String.ofList (List.intercalate ['/'] (firsts ++ [last]))).toList
      = firsts ++ [last] := by
    rw [String.toList_ofList, cutSlashes_intercalate (by simp)]
    intro piece hpiece
    rcases List.mem_append.mp hpiece with hpiece | hpiece
    · exact hfirsts piece hpiece
    · rwa [List.mem_singleton.mp hpiece]
  generalize String.ofList _ = text at hcut ⊢
  -- The empty text has one piece, which is empty, and the last piece is not.
  have htext : text ≠ "" := by
    rintro rfl
    have hmem : last ∈ cutSlashes "".toList := by
      rw [hcut]
      exact List.mem_append_right _ List.mem_cons_self
    exact (innerStep?_isSome_iff.mp hlast).1 (List.mem_singleton.mp hmem)
  have hpieces : trimPieces (pieces ⟨text⟩) = openPieces firsts ++ [inner last] := by
    rw [pieces_eq_openPieces (p := ⟨text⟩) htext, hcut, openPieces_concat firsts hlast]
    exact trimPieces_concat _ hlast
  exact parent?_of_trimPieces hpieces (innerStep?_ne_root last)

/-- The stem of a name is made of characters of the name. -/
theorem splitName_fst_subset (name : List Char) : (splitName name).1 ⊆ name := by
  unfold splitName
  dsimp only
  split
  · exact List.Subset.refl name
  · exact List.take_subset _ name

/-- The name of a file is the last piece of its path. -/
theorem exists_firsts_of_fileName? {p : Path} {name : List Char} (h : p.fileName? = some name) :
    ∃ firsts step, trimPieces p.pieces = openPieces firsts ++ [⟨name, some (.down step)⟩] ∧
      (∀ piece ∈ firsts, '/' ∉ piece) ∧ '/' ∉ name := by
  unfold fileName? at h
  split at h
  · next text step hlast =>
    cases h
    obtain ⟨before, hpieces⟩ := List.getLast?_eq_some_iff.mp hlast
    have htext : p.text ≠ "" := text_ne_of_trimPieces (by simp [hpieces])
    have hstart : before ++ [⟨name, some (.down step)⟩] <+: p.pieces :=
      hpieces ▸ isPrefix_trimPieces p.pieces
    have hbefore := (List.prefix_append before _).trans hstart
    obtain ⟨firsts, -, rfl⟩ := exists_openPieces_of_isPrefix (pieces_eq_openPieces htext ▸ hbefore)
    -- A piece of a path has no slash, and the name is one.
    have hname : '/' ∉ name := by
      have hmem := List.mem_map_of_mem (f := Piece.text)
        (hstart.subset (List.mem_append_right _ List.mem_cons_self))
      rw [map_text_pieces] at hmem
      exact slash_notMem_of_mem_cutSlashes hmem
    exact ⟨firsts, step, hpieces, slash_notMem_of_isPrefix hbefore, hname⟩
  · cases h

/-- A name with an extension is more than a dot. -/
theorem innerStep?_extended_isSome (stem : List Char) {extension : List Char}
    (hne : extension ≠ []) : (innerStep? (stem ++ '.' :: extension)).isSome = true := by
  refine innerStep?_isSome_iff.mpr ⟨by simp, fun hdot => ?_⟩
  have hlength := congrArg List.length hdot
  rw [List.length_append, List.length_cons, List.length_singleton] at hlength
  exact hne (List.length_eq_zero_iff.mp (by omega))

/-- A file has the parent that it has under any other extension. -/
theorem parent?_withExtension (p : Path) {extension : String} (hne : extension.toList ≠ [])
    (hslash : '/' ∉ extension.toList) : (p.withExtension extension).parent? = p.parent? := by
  unfold withExtension
  dsimp only
  split
  · rfl
  · next name hname =>
    obtain ⟨firsts, step, hpieces, hsafe, hname⟩ := exists_firsts_of_fileName? hname
    rw [parent?_of_trimPieces hpieces (fun h => nomatch h), hpieces, List.dropLast_concat,
      map_text_openPieces]
    -- What is written in place of the name has no slash, and it is a name or two dots.
    split
    · exact parent?_ofList hsafe (by decide) (by decide)
    · refine parent?_ofList hsafe ?_ (innerStep?_extended_isSome _ hne)
      intro hmem
      rcases List.mem_append.mp hmem with hmem | hmem
      · exact hname (splitName_fst_subset name hmem)
      · rcases List.mem_cons.mp hmem with hdot | hmem
        · exact absurd hdot (by decide)
        · exact hslash hmem

/-- **The paths around a file do not depend on its extension.** -/
theorem isAncestor_withExtension {p q : Path} {extension : String} (hne : extension.toList ≠ [])
    (hslash : '/' ∉ extension.toList) :
    q.IsAncestor (p.withExtension extension) ↔ q.IsAncestor p :=
  isAncestor_congr (parent?_withExtension p hne hslash)

/-! ### The length of paths -/

/-- Some of the texts, with slashes between them, are part of all of them with slashes. -/
theorem intercalate_sublist {texts texts' : List (List Char)} (h : texts.Sublist texts') :
    (List.intercalate ['/'] texts).Sublist (List.intercalate ['/'] texts') := by
  induction h with
  | slnil => exact List.Sublist.refl _
  | @cons texts texts' first h ih =>
    cases texts' with
    | nil =>
      rw [List.sublist_nil.mp h]
      exact List.nil_sublist _
    | cons second rest =>
      -- A text that is left out takes its slash with it.
      rw [List.intercalate_cons_cons]
      exact ih.trans (List.sublist_append_right _ _)
  | @cons_cons texts texts' first h ih =>
    cases texts with
    | nil =>
      cases texts' with
      | nil => exact List.Sublist.refl _
      | cons second rest =>
        rw [List.intercalate_singleton, List.intercalate_cons_cons, List.append_assoc]
        exact List.sublist_append_left _ _
    | cons second rest =>
      cases texts' with
      | nil => exact absurd (List.sublist_nil.mp h) (List.cons_ne_nil _ _)
      | cons second' rest' =>
        rw [List.intercalate_cons_cons, List.intercalate_cons_cons]
        exact (List.Sublist.refl _).append ih

/-- **A path is longer than one that has only some of its pieces.** -/
theorem size_le_size_ofPieces {p : Path} {firsts : List (List Char)}
    (h : (p.pieces.map Piece.text).Sublist firsts) :
    p.text.utf8ByteSize ≤ (ofPieces (openPieces firsts)).text.utf8ByteSize := by
  have htext : p.text.toList.Sublist (ofPieces (openPieces firsts)).text.toList := by
    rw [toList_text_eq]
    refine (intercalate_sublist h).trans ?_
    unfold ofPieces
    split
    · -- The root is written with a piece more, and the shorter path is then empty.
      next hroot =>
      rw [eq_of_map_step_eq_root hroot]
      exact List.nil_sublist _
    · rw [map_text_openPieces, String.toList_ofList]
  rw [← String.utf8Len_toList, ← String.utf8Len_toList]
  exact String.utf8Len_le_of_sublist htext

/-- Only the first piece can stand for the root. -/
theorem root_notMem_inner (texts : List (List Char)) :
    .root ∉ (texts.map inner).filterMap Piece.step := by
  intro hmem
  obtain ⟨piece, hpiece, hstep⟩ := List.mem_filterMap.mp hmem
  obtain ⟨text, -, rfl⟩ := List.mem_map.mp hpiece
  exact innerStep?_ne_root text hstep

/-- The name that a step goes down to. -/
def Step.name? : Step → Option String
  | .down name => some name
  | _ => none

theorem Step.name?_eq_some_iff {step : Step} {name : String} :
    step.name? = some name ↔ step = .down name := by
  cases step with
  | down other => exact ⟨fun h => congrArg _ (Option.some.inj h), fun h => by cases h; rfl⟩
  | root => exact ⟨fun h => (nomatch h), fun h => (nomatch h)⟩
  | here => exact ⟨fun h => (nomatch h), fun h => (nomatch h)⟩
  | up => exact ⟨fun h => (nomatch h), fun h => (nomatch h)⟩

/-- The names on the way are pieces as they are written. -/
theorem map_toList_names_sublist (texts : List (List Char)) :
    ((((texts.map inner).filterMap Piece.step).filterMap Step.name?).map String.toList).Sublist
      texts := by
  induction texts with
  | nil => exact List.Sublist.refl _
  | cons text texts ih =>
    rw [List.map_cons]
    cases hstep : (inner text).step with
    | none =>
      rw [List.filterMap_cons_none hstep]
      exact ih.cons text
    | some step =>
      rw [List.filterMap_cons_some hstep]
      cases step with
      | down name =>
        -- A step down has the text of its piece as its name, and no other step has a name.
        rw [(innerStep?_eq_down_iff.mp hstep).1]
        exact ih.cons_cons _
      | root => exact absurd hstep (innerStep?_ne_root text)
      | here => exact ih.cons text
      | up => exact ih.cons text

end Path

namespace FileTree

/-- Where a way leads does not depend on the tree. -/
theorem follow_unique {t t' : FileTree} {place destination destination' : List String}
    {steps : List Path.Step} (h : t.follow place steps = .ok destination)
    (h' : t'.follow place steps = .ok destination') : destination = destination' := by
  induction steps generalizing place with
  | nil =>
    cases h
    cases h'
    rfl
  | cons step steps ih =>
    cases step with
    | root => exact ih h h'
    | here => exact ih h h'
    | up =>
      obtain ⟨⟨⟩, -, h⟩ := bind_eq_ok_iff.mp h
      obtain ⟨⟨⟩, -, h'⟩ := bind_eq_ok_iff.mp h'
      exact ih h h'
    | down name =>
      obtain ⟨_, henter, h⟩ := bind_eq_ok_iff.mp h
      obtain ⟨_, henter', h'⟩ := bind_eq_ok_iff.mp h'
      -- The trees only decide whether a directory can be entered, not where it is.
      obtain ⟨-, -, -, rfl⟩ := enter_eq_ok_iff.mp henter
      obtain ⟨-, -, -, rfl⟩ := enter_eq_ok_iff.mp henter'
      exact ih h h'

/-- A path leads to one place, whatever tree it is followed in. -/
theorem locate_unique {t t' : FileTree} (hhere : t'.here = t.here) {p : Path}
    {place place' : List String} (h : t.locate p = .ok place) (h' : t'.locate p = .ok place') :
    place = place' := by
  obtain ⟨⟨⟩, -, h⟩ := bind_eq_ok_iff.mp h
  obtain ⟨⟨⟩, -, h'⟩ := bind_eq_ok_iff.mp h'
  obtain ⟨hfollow, -⟩ := destination_eq_ok_iff.mp h
  obtain ⟨hfollow', -⟩ := destination_eq_ok_iff.mp h'
  rw [hhere] at hfollow'
  exact follow_unique hfollow hfollow'

/-- A way leaves some of the directories where it starts and goes down through some of its names. -/
theorem exists_of_follow {t : FileTree} {place destination : List String} {steps : List Path.Step}
    (hroot : .root ∉ steps) (h : t.follow place steps = .ok destination) :
    ∃ kept added, kept <+: place ∧ added.Sublist (steps.filterMap Path.Step.name?) ∧
      destination = kept ++ added := by
  induction steps generalizing place with
  | nil =>
    cases h
    exact ⟨destination, [], List.prefix_rfl, List.Sublist.refl _, (List.append_nil _).symm⟩
  | cons step steps ih =>
    have hrest : .root ∉ steps := fun hmem => hroot (List.mem_cons_of_mem _ hmem)
    cases step with
    | root => exact absurd List.mem_cons_self hroot
    | here => exact ih hrest h
    | up =>
      obtain ⟨⟨⟩, -, h⟩ := bind_eq_ok_iff.mp h
      -- Going up leaves one directory more.
      obtain ⟨kept, added, hkept, hadded, rfl⟩ := ih hrest h
      exact ⟨kept, added, hkept.trans (List.dropLast_prefix place), hadded, rfl⟩
    | down name =>
      obtain ⟨_, henter, h⟩ := bind_eq_ok_iff.mp h
      obtain ⟨-, -, -, rfl⟩ := enter_eq_ok_iff.mp henter
      obtain ⟨kept, added, hkept, hadded, rfl⟩ := ih hrest h
      -- The name is kept, or it is left again further on.
      rcases List.prefix_concat_iff.mp hkept with rfl | hkept
      · exact ⟨place, name :: added, List.prefix_rfl, hadded.cons_cons name, by simp⟩
      · exact ⟨kept, added, hkept, hadded.cons name, rfl⟩

/-- A way that ends below its start goes down through all the names that are added. -/
theorem sublist_of_follow {t : FileTree} {place names : List String} {steps : List Path.Step}
    (hroot : .root ∉ steps) (h : t.follow place steps = .ok (place ++ names)) :
    names.Sublist (steps.filterMap Path.Step.name?) := by
  obtain ⟨kept, added, ⟨left, rfl⟩, hadded, heq⟩ := exists_of_follow hroot h
  rw [List.append_assoc, List.append_cancel_left_eq] at heq
  -- What was left of the start comes back as names that were added.
  rw [← heq] at hadded
  exact (List.sublist_append_right _ _).trans hadded

/-- What a way comes through is a directory, if it goes on from there. -/
theorem entryAt_of_follow_append {t : FileTree} {place middle destination : List String}
    {front back : List Path.Step} (hroot : .root ∉ back)
    (hfront : t.follow place front = .ok middle)
    (h : t.follow place (front ++ back) = .ok destination)
    (hdestination : (t.entryAt destination).isSome = true) :
    t.entryAt middle = some .directory ∨ middle = destination := by
  rw [follow_append, hfront] at h
  exact (Keeps.follow ⟨rfl, fun _ h => h⟩ hroot h hdestination).2

/-- What is on the way of a path is a directory, by whatever tree one comes to it. -/
theorem entryAt_on_way {t t' : FileTree} {p q : Path} {place middle destination : List String}
    (hq : q.text ≠ "") (hfront : q.steps <+: p.steps)
    (h : t.follow place p.steps = .ok destination)
    (hdestination : (t.entryAt destination).isSome = true)
    (hmiddle : t'.follow place q.steps = .ok middle) :
    t.entryAt middle = some .directory ∨ middle = destination := by
  obtain ⟨more, hmore⟩ := hfront
  -- A path starts at the root in its first step only, and this is a step of the shorter path.
  have hroot : .root ∉ more := by
    intro hmem
    apply p.root_notMem_tail
    obtain ⟨step, rest, hcons⟩ := List.exists_cons_of_ne_nil (Path.steps_ne_nil hq)
    rw [← hmore, hcons]
    exact List.mem_append_right rest hmem
  rw [← hmore] at h
  obtain ⟨middle', hmiddle', -⟩ := bind_eq_ok_iff.mp (follow_append .. ▸ h)
  obtain rfl := follow_unique hmiddle' hmiddle
  exact entryAt_of_follow_append hroot hmiddle' h hdestination

/-- **A directory around a file below the root**, by the path of a walk from the root: it was there
before, or the path is not longer than the one by which it was made. -/
theorem size_below_le {t t' : FileTree} (hhere : t'.here = t.here) {root output q : Path}
    {top names : List String} (houtput : output.isAbsolute = false)
    (hq : q.IsAncestor (root.join output)) (htop : t.locate root = .ok top)
    (hsome : (t.entryAt top).isSome = true) (hplace : t'.locate q = .ok (top ++ names))
    (hne : names ≠ []) (hnew : t.entryAt (top ++ names) ≠ some .directory) :
    (root.below names).text.utf8ByteSize ≤ q.text.utf8ByteSize := by
  obtain ⟨base, hbase, hjoin, hbelow⟩ := Path.exists_pieces_below (text_ne_of_locate htop)
  obtain ⟨⟨⟩, -, hdestination⟩ := bind_eq_ok_iff.mp htop
  obtain ⟨hfollow, -⟩ := destination_eq_ok_iff.mp hdestination
  obtain ⟨⟨⟩, -, hdestination'⟩ := bind_eq_ok_iff.mp hplace
  obtain ⟨hfollow', -⟩ := destination_eq_ok_iff.mp hdestination'
  obtain ⟨firsts, hfirsts, htrim, rfl⟩ := hq.exists_front
  have hsteps := Path.steps_ofPieces hfirsts htrim
  rw [hhere] at hfollow'
  rw [hjoin output houtput] at hfirsts
  rcases List.prefix_or_prefix_of_prefix hfirsts (List.prefix_append base _) with hshort | hlong
  · -- The path ends on the way to the root, and that way was there before.
    have hfront : (Path.ofPieces (Path.openPieces firsts)).steps <+: root.steps := by
      rw [hsteps, ← hbase]
      exact hshort.filterMap _
    rcases entryAt_on_way (text_ne_of_locate hplace) hfront hfollow hsome hfollow' with
      hdirectory | heq
    · exact absurd hdirectory hnew
    · exact absurd (List.append_right_eq_self.mp heq) hne
  · -- The path goes on behind the root, through all the names that the place has.
    obtain ⟨rest, hrest⟩ := hlong
    rw [← hrest, List.prefix_append_right_inj, List.prefix_iff_eq_take, ← List.map_take] at hfirsts
    generalize (Path.cutSlashes output.text.toList).take rest.length = texts at hfirsts
    subst hfirsts
    rw [hsteps, ← hrest, List.filterMap_append, hbase] at hfollow'
    obtain ⟨top', htop', hnames⟩ := bind_eq_ok_iff.mp (follow_append .. ▸ hfollow')
    obtain rfl := follow_unique htop' hfollow
    have hsublist := sublist_of_follow (Path.root_notMem_inner texts) hnames
    have hfile : ∀ name ∈ names, Path.IsFileName name := by
      intro name hname
      obtain ⟨step, hstep, hdown⟩ := List.mem_filterMap.mp (hsublist.subset hname)
      rw [Path.Step.name?_eq_some_iff] at hdown
      subst hdown
      apply Path.isFileName_of_mem_steps
      rw [hsteps, ← hrest, List.filterMap_append]
      exact List.mem_append_right _ hstep
    -- What is left is a comparison of pieces: the names are some of the texts behind the root.
    have htexts : firsts = base.map Path.Piece.text ++ texts := by
      rw [← Path.map_text_openPieces firsts, ← hrest, List.map_append, List.map_map]
      exact congrArg _ (List.map_id texts)
    apply Path.size_le_size_ofPieces
    rw [hbelow names hne hfile, List.map_append, List.map_map, htexts]
    exact (List.Sublist.refl _).append
      ((hsublist.map _).trans (Path.map_toList_names_sublist texts))

/-- **The root is a directory**, if a file can be below it. -/
theorem entryAt_root_of_names {t : FileTree} {root output : Path} {directory : List String}
    {name : String} (hroot : root.text ≠ "") (houtput : output.isAbsolute = false)
    (h : t.Names (root.join output) directory name) :
    ∃ top, t.follow t.here root.steps = .ok top ∧ t.entryAt top = some .directory := by
  obtain ⟨-, -, -, hfollow, hdirectory, hslash⟩ := target_eq_member_iff.mp h.target
  obtain ⟨base, hbase, hjoin⟩ := Path.exists_pieces_join hroot
  obtain ⟨front, last, hcut⟩ :=
    (List.eq_nil_or_concat' _).resolve_left (Path.cutSlashes_ne_nil output.text.toList)
  -- The last piece stands for a step, so all steps of the root are followed before the last one.
  have hpieces : (root.join output).pieces = base ++ front.map Path.inner ++ [Path.inner last] := by
    rw [hjoin output houtput, hcut, List.map_append, List.append_assoc]
    rfl
  obtain ⟨step, hstep⟩ : ∃ step, (Path.inner last).step = some step := by
    rw [leadsToDirectory, hpieces, List.getLast?_concat] at hslash
    exact Option.ne_none_iff_exists'.mp fun hnone => by simp [hnone] at hslash
  have hsteps : (root.join output).steps.dropLast
      = root.steps ++ (front.map Path.inner).filterMap Path.Piece.step := by
    rw [Path.steps, hpieces, List.filterMap_append, List.filterMap_cons_some hstep,
      List.filterMap_nil, List.dropLast_concat, List.filterMap_append, hbase]
  rw [hsteps] at hfollow
  obtain ⟨top, htop, -⟩ := bind_eq_ok_iff.mp (follow_append .. ▸ hfollow)
  refine ⟨top, htop, ?_⟩
  rcases entryAt_of_follow_append (Path.root_notMem_inner front) htop hfollow
    (by rw [hdirectory]; rfl) with htop | rfl
  · exact htop
  · exact hdirectory

end FileTree

end UtilityCss
