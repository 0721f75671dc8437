import UtilityCss.Proofs.Mentions

/-!
# What is left of references

A calculation replaces a mention `#id:` if a letter stands right behind its colon, provided that no
hyphen stands behind a colon anywhere. That is `references_eq` read for ids alone. It is less clear
what the mentions of the rendered text are, since replacing puts new letters behind old colons: in
`#a:#b:width` the first mention has no property, and after the second one is replaced the `v` of
`var(--b-width)` looks like one. The argument goes through the text between the two steps:

* replacing leaves a mention with a letter behind its colon just where a reference was read right
  behind that colon (`Reference.Rewrites.elementsWhere_eq`, by induction on `Rewrites`);
* after spacing a reference is read right behind a colon just where another mention stood with a
  letter behind its own (`elements_respaceFrom`, by induction on the glyphs).
-/

namespace UtilityCss

open UtilityCss.Text

namespace Mention

/-- Whether another mention stands right behind the colon, with a letter behind its own. -/
def isChained (m : Mention) : Bool :=
  match m.behind with
  | [] => false
  | c :: run => (ofRun? c run).any isNamed

/-- Whether a reference can be read right behind the colon. -/
def isFollowed (m : Mention) : Bool := (Reference.read m.behind).isSome

/-- A mention without a hyphen behind its colon names a property just if it has a letter there. -/
theorem property_eq_nil_iff {m : Mention} (h : m.behind.head? ≠ some '-') (inCall : Bool) :
    m.property inCall = [] ↔ m.isNamed = false := by
  unfold property isNamed
  cases hbehind : m.behind with
  | nil => cases inCall <;> simp [hyphenated]
  | cons c rest =>
    rw [hbehind] at h
    have hhyphen : c ≠ '-' := fun hc => h (by rw [hc]; rfl)
    -- But for the hyphen, what a property can start with is a letter.
    have hsame : isPropertyChar c = isLetter c := by simp [isPropertyChar, isLetter, hhyphen]
    have hcolon : isLetter ':' = false := by decide
    cases hletter : isLetter c <;> cases inCall <;>
      simp [hyphenated, hsame, hletter, hcolon]

/-- Without a hyphen behind its colon, a mention makes a reference just if it has a letter there. -/
theorem reference?_eq {m : Mention} (h : m.behind.head? ≠ some '-') (inCall : Bool) :
    m.reference? inCall = if m.isNamed
      then some ⟨String.ofList m.element, String.ofList (m.property inCall)⟩ else none := by
  rw [reference?]
  cases hnamed : m.isNamed with
  | false => rw [if_pos ((property_eq_nil_iff h inCall).mpr hnamed)]; rfl
  | true =>
    refine if_neg fun hnil => ?_
    rw [(property_eq_nil_iff h inCall).mp hnil] at hnamed
    exact Bool.noConfusion hnamed

end Mention

/-- The ids of the mentions that pass a test. -/
def elementsWhere (test : Mention → Bool) (text : List Char) : List (List Char) :=
  ((mentions text).filter test).map Mention.element

/-- The ids of mentions, place by place. -/
theorem elementsWhere_cons (test : Mention → Bool) (c : Char) (rest : List Char) :
    elementsWhere test (c :: rest)
      = (((Mention.ofRun? c (rest.takeWhile isSolid)).filter test).map Mention.element).toList
        ++ elementsWhere test rest := by
  unfold elementsWhere
  rw [mentions, List.filter_append, List.map_append]
  congr 1
  cases Mention.ofRun? c (rest.takeWhile isSolid) with
  | none => rfl
  | some m => cases hm : test m <;> simp [Option.filter, hm]

/-- No mention starts where there is no hash. -/
theorem elementsWhere_append (test : Mention → Bool) {front : List Char} (h : '#' ∉ front)
    (rest : List Char) : elementsWhere test (front ++ rest) = elementsWhere test rest := by
  induction front with
  | nil => rfl
  | cons c front ih =>
    obtain ⟨hc, hfront⟩ := not_or.mp (List.mem_cons.not.mp h)
    rw [List.cons_append, elementsWhere_cons, Mention.ofRun?_of_ne (Ne.symm hc), ih hfront]
    rfl

namespace Reference

/-! ### Replacing references -/

/-- Characters in front of the first hash are kept. -/
theorem Rewrites.exists_of_append {front rest result : List Char} {references : List Reference}
    (h : Rewrites (front ++ rest) references result) (hfront : '#' ∉ front) :
    ∃ kept, result = front ++ kept ∧ Rewrites rest references kept := by
  induction front generalizing result with
  | nil => exact ⟨result, rfl, h⟩
  | cons c front ih =>
    obtain ⟨hc, hfront⟩ := not_or.mp (List.mem_cons.not.mp hfront)
    -- What is replaced starts with a hash, so this character was kept.
    generalize htext : c :: front ++ rest = text at h
    cases h with
    | nil => exact absurd htext (by simp)
    | keep _ hlater =>
      obtain ⟨rfl, rfl⟩ := List.cons.inj htext
      obtain ⟨kept, rfl, hkept⟩ := ih hlater hfront
      exact ⟨kept, rfl, hkept⟩
    | replace _ _ => exact absurd (List.cons.inj htext).1.symm hc

/-- The use of a reference starts like a function call. -/
theorem toList_use (r : Reference) :
    r.use.toList = 'v' :: 'a' :: 'r' :: '(' :: (r.variableName ++ ")").toList := by
  simp [use]

/-- The use of a reference has no hash. -/
theorem notMem_use {r : Reference} (h : r.Named) : '#' ∉ r.use.toList := by
  have hnames := notMem_of_named h
  simp only [List.mem_append, List.mem_cons, not_or] at hnames
  simp [use, variableName, hnames]

/-- Behind a hash that starts no id in the text, none starts in the result either. -/
theorem Rewrites.idLength_eq_zero {rest result : List Char} {references : List Reference}
    (h : Rewrites rest references result) (hzero : idLength rest = 0) (tail : List Char) :
    idLength (result ++ ')' :: tail) = 0 := by
  have hname : ∀ c ∈ rest.takeWhile isNameChar, isNameChar c = true :=
    List.all_eq_true.mp List.all_takeWhile
  have hsplit : rest.takeWhile isNameChar ++ rest.dropWhile isNameChar = rest :=
    List.takeWhile_append_dropWhile
  rw [← hsplit] at h
  obtain ⟨kept, rfl, hkept⟩ := h.exists_of_append
    fun hmem => ne_of_test (hname _ hmem) (x := '#') (by decide) rfl
  rw [idLength_eq] at hzero
  rw [idLength_eq, List.append_assoc, List.dropWhile_append_of_pos hname,
    List.takeWhile_append_of_pos hname]
  -- What comes behind the run of name characters decides.
  generalize hdrop : rest.dropWhile isNameChar = behind at hkept hzero
  cases hkept with
  | nil => rfl
  | @keep c text references result hread hlater =>
    have hc : isNameChar c = false := by
      have hnot := List.head?_dropWhile_not isNameChar rest
      rw [hdrop] at hnot
      simpa using hnot
    rw [List.cons_append, List.dropWhile_cons_of_neg (by simp [hc]),
      List.takeWhile_cons_of_neg (by simp [hc]), List.append_nil]
    exact hzero
  | replace _ _ =>
    -- The name `var` is followed by a parenthesis and not by a colon.
    refine if_neg ?_
    rw [List.append_assoc, toList_use, List.cons_append, List.cons_append, List.cons_append,
      List.cons_append, List.dropWhile_cons_of_pos (by decide),
      List.dropWhile_cons_of_pos (by decide), List.dropWhile_cons_of_pos (by decide),
      List.dropWhile_cons_of_neg (by decide)]
    simp

/-- Behind a colon at which no reference ends, the result goes on with a letter just if another
reference was replaced there. -/
theorem Rewrites.isNamed_eq {element behind result : List Char} {references : List Reference}
    (h : Rewrites behind references result) (hnone : behind.takeWhile isPropertyChar = [])
    (tail : List Char) :
    Mention.isNamed ⟨element, (result ++ ')' :: tail).takeWhile isSolid⟩
      = Mention.isFollowed ⟨element, behind.takeWhile isSolid⟩ := by
  have hsome : Mention.isFollowed ⟨element, behind.takeWhile isSolid⟩ = (read behind).isSome := by
    have := map_read_takeWhile behind
    rw [Mention.isFollowed, ← Option.isSome_map (f := Prod.fst), this, Option.isSome_map]
  rw [hsome]
  cases h with
  | nil => rfl
  | @keep c text references result hread hlater =>
    -- A letter would be a property by itself.
    have hletter : isLetter c = false := by
      by_contra hletter
      have halpha : c.isAlpha = true := Bool.not_eq_false _ ▸ hletter
      rw [List.takeWhile_cons_of_pos (by simp [isPropertyChar, halpha])] at hnone
      exact List.cons_ne_nil _ _ hnone
    rw [hread, Mention.isNamed, List.cons_append, List.takeWhile_cons]
    by_cases hsolid : isSolid c <;> simp [hsolid, hletter]
  | replace hread _ =>
    rw [hread, Mention.isNamed, List.append_assoc, toList_use, List.cons_append,
      List.takeWhile_cons_of_pos (by decide)]
    rfl

/-- The mentions at a hash that is kept, in the text and in the result. -/
theorem Rewrites.ofRun?_eq {rest result : List Char} {references : List Reference}
    (h : Rewrites rest references result) (hread : read ('#' :: rest) = none) (tail : List Char) :
    ((Mention.ofRun? '#' ((result ++ ')' :: tail).takeWhile isSolid)).filter Mention.isNamed).map
        Mention.element
      = ((Mention.ofRun? '#' (rest.takeWhile isSolid)).filter Mention.isFollowed).map
        Mention.element := by
  by_cases hzero : idLength rest = 0
  · rw [Mention.ofRun?_of_idLength_eq_zero
        (by rw [idLength_takeWhile_isSolid, h.idLength_eq_zero hzero]),
      Mention.ofRun?_of_idLength_eq_zero (by rw [idLength_takeWhile_isSolid, hzero])]
    rfl
  · obtain ⟨name, behind, rfl, -, hne, hname⟩ := exists_of_idLength_ne_zero hzero
    -- With a property behind its colon the reference would have been replaced.
    have hnone : behind.takeWhile isPropertyChar = [] := by
      have hid := read_id hne hname behind
      rw [hread] at hid
      by_contra hcons
      rw [if_neg hcons] at hid
      exact absurd hid (by simp)
    -- A reference starts with a hash, so the id and its colon are in the result as they were.
    have hhash : '#' ∉ name ++ [':'] := by
      intro hmem
      rcases List.mem_append.mp hmem with hmem | hmem
      · exact ne_of_test (hname _ hmem) (x := '#') (by decide) rfl
      · exact absurd hmem (by decide)
    rw [List.append_cons] at h
    obtain ⟨kept, rfl, hkept⟩ := h.exists_of_append hhash
    rw [List.append_assoc, List.append_assoc, List.singleton_append, takeWhile_isSolid_id hname,
      takeWhile_isSolid_id hname, Mention.ofRun?_id hne hname, Mention.ofRun?_id hne hname]
    simp only [Option.filter, hkept.isNamed_eq hnone]
    split <;> rfl

/-- A reference is not followed by another one right behind its colon. -/
theorem isFollowed_property {property : List Char} (hne : property ≠ [])
    (hchars : ∀ c ∈ property, isPropertyChar c = true) (element rest : List Char) :
    Mention.isFollowed ⟨element, (property ++ rest).takeWhile isSolid⟩ = false := by
  cases property with
  | nil => exact absurd rfl hne
  | cons c property =>
    have hc := hchars c List.mem_cons_self
    rw [Mention.isFollowed, List.cons_append,
      List.takeWhile_cons_of_pos (by simp [isSolid, isBlank_of_isPropertyChar hc]),
      read_of_ne (ne_of_test hc (by decide))]
    rfl

/-- **What is left of mentions** when references are replaced: those in front of a reference. -/
theorem Rewrites.elementsWhere_eq {text result : List Char} {references : List Reference}
    (h : Rewrites text references result) :
    elementsWhere Mention.isNamed (result ++ [')']) = elementsWhere Mention.isFollowed text := by
  induction h with
  | nil => rfl
  | @keep c text references result hread hlater ih =>
    rw [List.cons_append, elementsWhere_cons, elementsWhere_cons, ih]
    congr 1
    by_cases hc : c = '#'
    · subst hc
      rw [hlater.ofRun?_eq hread]
    · rw [Mention.ofRun?_of_ne hc, Mention.ofRun?_of_ne hc]
      rfl
  | @replace r text references result n hread hlater ih =>
    -- What takes its place has no hash, and right behind its own colon comes its property.
    obtain ⟨_, _, _, hnamed⟩ := eq_append_of_read hread
    have hsource : r.source ++ text
        = '#' :: ((r.element.toList ++ ':' :: r.property.toList) ++ text) := rfl
    have hrun : ((r.element.toList ++ ':' :: r.property.toList) ++ text).takeWhile isSolid
        = r.element.toList ++ ':' :: (r.property.toList ++ text).takeWhile isSolid := by
      rw [List.append_assoc, List.cons_append, takeWhile_isSolid_id hnamed.element_chars]
    have hfollowed := isFollowed_property (by simpa using hnamed.property_ne)
      hnamed.property_chars r.element.toList text
    rw [List.append_assoc, elementsWhere_append _ (notMem_use hnamed), ih, hsource,
      elementsWhere_cons, hrun,
      Mention.ofRun?_id (by simpa using hnamed.element_ne) hnamed.element_chars,
      elementsWhere_append _ (notMem_of_named hnamed)]
    simp [Option.filter, hfollowed]

end Reference

namespace Value

/-! ### Mentions and operators -/

/-- The mentions among glyphs, without their places. -/
def glyphMentions : List Glyph → List Mention
  | [] => []
  | g :: gs => (Mention.ofRun? g.char (joined gs)).toList ++ glyphMentions gs

/-- **The mentions of a text are those of its glyphs.** -/
theorem mentions_eq_glyphMentions (apart : Bool) (text : List Char) :
    mentions text = glyphMentions (glyphsFrom apart text) := by
  induction text generalizing apart with
  | nil => rfl
  | cons c rest ih =>
    cases hc : isBlank c with
    | true =>
      rw [glyphsFrom_cons_blank hc, mentions, Mention.ofRun?_of_ne (ne_of_test hc (by decide)),
        ← ih]
      rfl
    | false => rw [glyphsFrom_cons_solid hc, mentions, glyphMentions, joined_glyphsFrom, ← ih]

/-- A mention inside what is joined is one of the glyphs. -/
theorem mem_glyphMentions_of_joined {gs : List Glyph} (front : List Char) {run : List Char}
    {c : Char} (h : joined gs = front ++ c :: run) {m : Mention}
    (hm : Mention.ofRun? c run = some m) : m ∈ glyphMentions gs := by
  induction gs generalizing front with
  | nil => exact absurd h (by simp [joined])
  | cons g gs ih =>
    cases hg : g.apart with
    | true =>
      rw [joined_cons_apart hg] at h
      exact absurd h (by simp)
    | false =>
      rw [joined_cons_close hg] at h
      rw [glyphMentions, List.mem_append]
      -- The mention starts with the first glyph or with one that is joined to it.
      cases front with
      | nil =>
        obtain ⟨hc, hrun⟩ := List.cons.inj h
        left
        rw [hc, hrun, hm]
        exact List.mem_singleton_self m
      | cons d front => exact .inr (ih front (List.cons.inj h).2)

/-- Whether a reference is read right behind a colon, after one pass of spacing. -/
theorem isFollowed_kept {x : Context} (name behind : List Char)
    (hhyphen : ∀ c run m, behind = c :: run → Mention.ofRun? c run = some m →
      m.behind.head? ≠ some '-') :
    Mention.isFollowed ⟨name, kept x.behindColon behind⟩ = Mention.isChained ⟨name, behind⟩ := by
  cases behind with
  | nil => rfl
  | cons c run =>
    have hchained : Mention.isChained ⟨name, c :: run⟩
        = (Mention.ofRun? c run).any Mention.isNamed := rfl
    rw [Mention.isFollowed, hchained]
    by_cases hc : c = '#'
    · -- The hash is kept, and behind it is read what the mention there names.
      subst hc
      have hleft : (x.behindColon.next '#' run).idLeft = Reference.idLength run := by
        show x.behindColon.idLeftAfter '#' run = Reference.idLength run
        exact if_pos ⟨rfl, rfl⟩
      rw [kept_cons_of_not (.inr (by decide)), ← Option.isSome_map (f := Prod.fst),
        read_kept hleft]
      cases hm : Mention.ofRun? '#' run with
      | none => rfl
      | some m =>
        rw [Option.bind_some, Mention.reference?_eq (hhyphen _ _ m rfl hm)]
        cases hnamed : m.isNamed <;> simp [hnamed]
    · rw [Mention.ofRun?_of_ne hc, kept_cons]
      split
      · rfl
      · rw [Reference.read_of_ne hc]
        rfl

/-- **Spacing operators keeps the mentions**, and a reference can be read right behind one just if
another mention stands there. -/
theorem elements_respaceFrom {x : Context} {gs : List Glyph} (h : x.Fits (joined gs))
    (hhyphen : ∀ m ∈ glyphMentions gs, m.behind.head? ≠ some '-') (behind : Bool) :
    ((glyphMentions (respaceFrom x behind gs)).filter Mention.isFollowed).map Mention.element
      = ((glyphMentions gs).filter Mention.isChained).map Mention.element := by
  induction gs generalizing x behind with
  | nil => rfl
  | cons g gs ih =>
    have henter := h.enter
    have hlater : ∀ m ∈ glyphMentions gs, m.behind.head? ≠ some '-' :=
      fun m hm => hhyphen m (List.mem_append.mpr (.inr hm))
    rw [respaceFrom, glyphMentions, glyphMentions, List.filter_append, List.map_append,
      List.filter_append, List.map_append, ih (x := x.glyphNext g gs) henter.next hlater]
    congr 1
    by_cases hc : g.char = '#'
    · -- The hash gets no spaces and its id is kept, so it is a mention before and after the pass.
      have hleft : x.idLeft = 0 := henter.idLeft_eq_zero (by rw [hc]; decide)
      have hnext := Context.idLeft_glyphNext_hash hleft hc gs
      rw [x.operates_glyphSite_hash hc gs, joined_respaceFrom, hc]
      by_cases hzero : Reference.idLength (joined gs) = 0
      · rw [Mention.ofRun?_of_idLength_eq_zero (by rw [idLength_kept hnext, hzero]),
          Mention.ofRun?_of_idLength_eq_zero hzero]
        rfl
      · obtain ⟨name, tail, hjoined, hlength, hne, hname⟩ :=
          Reference.exists_of_idLength_ne_zero hzero
        have hchained : Mention.isFollowed ⟨name, kept (x.glyphNext g gs).behindColon tail⟩
            = Mention.isChained ⟨name, tail⟩ := by
          refine isFollowed_kept name tail fun c run m htail hm => hlater m ?_
          refine mem_glyphMentions_of_joined (name ++ [':']) ?_ hm
          rw [hjoined, htail, List.append_assoc]
          rfl
        rw [hjoined, kept_id hname (hnext.trans hlength.symm), Mention.ofRun?_id hne hname,
          Mention.ofRun?_id hne hname]
        cases hchain : Mention.isChained ⟨name, tail⟩ <;> simp [hchained, hchain]
    · rw [Mention.ofRun?_of_ne hc, Mention.ofRun?_of_ne hc]
      rfl

/-- The elements of the references that mentions make, if no hyphen stands behind a colon. -/
theorem map_element_filterMap {placed : List (Mention × Bool)}
    (h : ∀ p ∈ placed, p.1.behind.head? ≠ some '-') :
    (placed.filterMap fun p => p.1.reference? p.2).map Reference.element
      = (((placed.map Prod.fst).filter Mention.isNamed).map Mention.element).map String.ofList := by
  induction placed with
  | nil => rfl
  | cons p placed ih =>
    obtain ⟨hp, hlater⟩ := List.forall_mem_cons.mp h
    rw [List.filterMap_cons, Mention.reference?_eq hp, List.map_cons]
    cases hnamed : p.1.isNamed with
    | false => simpa [hnamed] using ih hlater
    | true => simpa [hnamed] using ih hlater

/-- **Which mentions a calculation replaces**: in order and with repetitions, those with a letter
right behind the colon. In the rendered text just those mentions have a letter there that stood
right in front of one that was replaced. -/
theorem elements_replaced_and_left {text : List Char}
    (h : ∀ m ∈ mentions text, m.behind.head? ≠ some '-') :
    (ofExpression text).references.map Reference.element
        = (elementsWhere Mention.isNamed (expression text)).map String.ofList ∧
      elementsWhere Mention.isNamed (ofExpression text).text.toList
        = elementsWhere Mention.isChained (expression text) := by
  -- The expression is a part of the text, so no hyphen stands behind a colon in it either.
  have hhyphen : ∀ m ∈ mentions (expression text), m.behind.head? ≠ some '-' := by
    intro m hm hhead
    obtain ⟨m', hm', -, hbehind⟩ := exists_mention_of_infix (infix_expression text) hm
    obtain ⟨run, hrun⟩ := List.head?_eq_some_iff.mp hhead
    obtain ⟨more, hmore⟩ := hbehind
    exact h m' hm' (by rw [← hmore, hrun]; rfl)
  constructor
  · have hplaced : ∀ p ∈ placedMentions (expression text), p.1.behind.head? ≠ some '-' := by
      intro p hp
      refine hhyphen p.1 ?_
      rw [← map_fst_placedFrom Context.start]
      exact List.mem_map_of_mem hp
    rw [references_eq, map_element_filterMap hplaced, placedMentions, map_fst_placedFrom]
    rfl
  · -- The text of a calculation is the spaced expression with its references replaced, in a call.
    have htext : (ofExpression text).text.toList = "calc(".toList
        ++ ((pieces Reference.read (spaceOperators (expression text))).flatMap
          (Piece.text fun r => r.use.toList) ++ [')']) := by
      simp [ofExpression, Value.text, expressionText]
    have hspaced : mentions (spaceOperators (expression text))
        = glyphMentions (respaceFrom Context.start false (glyphs (expression text))) := by
      rw [← glyphs_spaceOperators]
      exact mentions_eq_glyphMentions true _
    have hplain : mentions (expression text) = glyphMentions (glyphs (expression text)) :=
      mentions_eq_glyphMentions true _
    rw [htext, elementsWhere_append _ (by decide), (Reference.rewrites_pieces _).elementsWhere_eq,
      elementsWhere, elementsWhere, hspaced, hplain]
    rw [hplain] at hhyphen
    exact elements_respaceFrom (.inl rfl) hhyphen false

/-- Ids with hyphens and underscores, a reference behind a colon and a mention without a
property. -/
theorem elements_of_nested_references :
    (∀ m ∈ mentions "[#col-1:width-(#a:#b_2:min-height+2px)/#d:]".toList,
      m.behind.head? ≠ some '-') ∧
    (ofExpression "[#col-1:width-(#a:#b_2:min-height+2px)/#d:]".toList).references.map
      Reference.element = ["col-1", "b_2"] ∧
    elementsWhere Mention.isNamed
        (ofExpression "[#col-1:width-(#a:#b_2:min-height+2px)/#d:]".toList).text.toList
      = ["a".toList] := by
  have h : ∀ m ∈ mentions "[#col-1:width-(#a:#b_2:min-height+2px)/#d:]".toList,
      m.behind.head? ≠ some '-' := by decide +kernel
  obtain ⟨hreplaced, hleft⟩ := elements_replaced_and_left h
  exact ⟨h, hreplaced.trans (by decide +kernel), hleft.trans (by decide +kernel)⟩

/-- **A replaced reference can look like a property** of the id before it. -/
theorem mention_is_left_before_a_reference :
    (∀ m ∈ mentions "#a:#b:width + 1px".toList, m.behind.head? ≠ some '-') ∧
      (ofExpression "#a:#b:width + 1px".toList).text = "calc(#a:var(--b-width) + 1px)" ∧
      elementsWhere Mention.isNamed (ofExpression "#a:#b:width + 1px".toList).text.toList
        = ["a".toList] := by
  decide +kernel

end Value

end UtilityCss
