import Mathlib.Data.List.Forall2
import UtilityCss.Proofs.SecondPass

/-!
# Spacing operators twice

A pass changes nothing just if the operators stand free already (`spaceOperators_eq_self_iff`), and
after a pass they do unless one of them was overlooked (`overlooked_eq_nil_iff`). So one pass is
enough just if none was, and that only happens in expressions with a parenthesis right behind a
minus (`overlookedFrom_of_no_group`).

What calculates still does after a pass, since fewer parentheses open a call than before
(`callsBehind_le`, `any_calculates_respaceFrom`), and an expression without a calculation is only
collapsed.
-/

namespace UtilityCss.Value

open UtilityCss.Text

/-! ### Texts -/

/-- Blanks beside a character do not decide whether it stands free. -/
theorem standsFree_solid (s : Site) : s.solid.standsFree = s.standsFree := by
  -- A blank neighbour is as good as none.
  have hall : ∀ o : Option Char, (o.filter isSolid).all isBlank = o.all isBlank := by
    intro o
    cases o with
    | none => rfl
    | some c => cases hc : isBlank c <;> simp [Option.filter, isSolid, hc]
  rw [Site.standsFree, Site.standsFree, ← hall s.before, ← hall s.after]
  rfl

/-- Blanks beside characters do not decide what is overlooked. -/
theorem overlookedFrom_map_solid (behind : Bool) (calls : List Bool) (ss : List Site) :
    overlookedFrom behind calls (ss.map Site.solid)
      = (overlookedFrom behind calls ss).map Site.solid := by
  induction ss generalizing behind calls with
  | nil => rfl
  | cons s ss ih =>
    have hname := any_filter_isSolid (fun c => isBlank_of_isNameChar (c := c)) s.before
    -- A parenthesis opens a call behind a name character, and this is no blank.
    have hcalls : s.solid.callsBehind behind calls = s.callsBehind behind calls := by
      unfold Site.callsBehind
      show (if s.char = '(' then ((s.before.filter isSolid).any isNameChar && !behind) :: calls
        else _) = _
      rw [hname]
      rfl
    have hadds : s.solid.adds = s.adds := by
      rw [Site.adds, Site.adds, Site.isOperator_solid]
      rfl
    have hoverlooked : s.solid.isOverlooked (s.callsBehind behind calls)
        = s.isOverlooked (s.callsBehind behind calls) := by
      rw [Site.isOverlooked, Site.isOverlooked, standsFree_solid, hadds]
      rfl
    rw [List.map_cons, overlookedFrom, overlookedFrom, hcalls, hoverlooked, Site.operates_solid, ih]
    split <;> rfl

/-- **Nothing was overlooked** just if all operators stand free after a pass. -/
theorem overlooked_eq_nil_iff (expression : List Char) :
    overlooked expression = [] ↔
      OperatorsFree (glyphSitesFrom Context.start (glyphs (spaceOperators expression))) := by
  have hstart : Context.start.Behind false := fun h => absurd h Bool.false_ne_true
  rw [glyphs_spaceOperators, ← List.map_eq_nil_iff (f := Site.solid), overlooked,
    ← overlookedFrom_map_solid, solid_sites, overlookedFrom_eq_nil_iff hstart]
  rfl

theorem collapse_spaceOperators (expression : List Char) :
    collapse (spaceOperators expression) = spaceOperators expression := by
  rw [spaceOperators, collapse_collapse]

/-- A pass over a text sets no glyph apart just if the operators stand free already. -/
theorem respaceFrom_glyphs_eq_self_iff (text : List Char) :
    respaceFrom Context.start false (glyphs text) = glyphs text ↔
      OperatorsFree (glyphSitesFrom Context.start (glyphs text)) := by
  -- The first glyph stands apart, so it does not matter what is before the text.
  have hfirst : ∀ g ∈ (glyphs text).head?, g.apart = true := by
    intro g hg
    obtain ⟨gs, hgs⟩ := List.head?_eq_some_iff.mp hg
    exact apart_of_glyphs_eq_cons hgs
  have hchars : ∀ g ∈ glyphs text, isBlank g.char = false :=
    fun g hg => isBlank_of_mem_glyphsFrom hg
  rw [respaceFrom_eq_self_iff Context.start false hchars fun _ => hfirst]
  exact and_iff_right fun h => absurd h Bool.false_ne_true

/-- **What spacing leaves as it is**: a collapsed text in which the operators stand free. -/
theorem spaceOperators_eq_self_iff (text : List Char) :
    spaceOperators text = text ↔ collapse text = text ∧
      OperatorsFree (glyphSitesFrom Context.start (glyphs text)) := by
  rw [← respaceFrom_glyphs_eq_self_iff, ← glyphs_spaceOperators]
  constructor
  · intro h
    exact ⟨by rw [← h, collapse_spaceOperators], by rw [h]⟩
  · rintro ⟨hcollapse, hglyphs⟩
    rw [← collapse_spaceOperators, collapse_eq, hglyphs, ← collapse_eq, hcollapse]

/-- The neighbours of a character are characters of the text, and only the first one has none
before it. -/
theorem neighbours_of_mem_sitesFrom {x : Context} {text whole : List Char} {s : Site}
    (hbefore : ∀ c ∈ x.before, c ∈ whole) (hanchor : x.before = none → x.anchor = none)
    (htext : text ⊆ whole) (h : s ∈ sitesFrom x text) :
    (∀ c ∈ s.before, c ∈ whole) ∧ (∀ c ∈ s.after, c ∈ whole) ∧
      (s.before = none → s.anchor = none) := by
  induction text generalizing x with
  | nil => exact absurd h List.not_mem_nil
  | cons c rest ih =>
    obtain ⟨hc, hrest⟩ := List.cons_subset.mp htext
    rcases List.mem_cons.mp h with rfl | h
    · exact ⟨hbefore, fun d hd => hrest (List.mem_of_mem_head? hd), hanchor⟩
    · -- Behind a character there always is a neighbour, namely that one.
      refine ih (fun d hd => ?_) (fun hnone => absurd hnone (Option.some_ne_none c)) hrest h
      obtain rfl : c = d := Option.some.inj hd
      exact hc

/-- **Every operator has its spaces**: a plain space before each one, and a plain space or the end
of the text behind it. -/
def Spaced (text : List Char) : Prop :=
  ∀ s ∈ sites text, s.operates = true →
    s.before = some ' ' ∧ (s.after = some ' ' ∨ s.after = none)

/-- In a collapsed text the only blanks are spaces, so they are what an operator that stands free
has around it. -/
theorem spaces_of_standsFree {text : List Char} (htext : collapse text = text) {s : Site}
    (hs : s ∈ sites text) (hadds : s.adds = true) (hfree : s.standsFree = true) :
    s.before = some ' ' ∧ (s.after = some ' ' ∨ s.after = none) := by
  have hblank : ∀ c ∈ text, isBlank c = true → c = ' ' := fun c hc =>
    eq_space_of_mem_collapse (by rwa [htext])
  obtain ⟨hbefore, hafter, hanchor⟩ := neighbours_of_mem_sitesFrom (x := Context.start)
    (fun c hc => absurd hc (Option.not_mem_none c)) (fun _ => rfl) (List.Subset.refl text) hs
  rw [Site.standsFree, Bool.and_eq_true] at hfree
  constructor
  · -- An operator has something before it, or it would be a sign.
    cases hb : s.before with
    | none =>
      have hsign := Site.isSign_of_adds hadds
      rw [Site.isSign, hanchor hb] at hsign
      exact absurd hsign (by simp)
    | some b =>
      rw [hb] at hfree
      rw [hblank b (hbefore b hb) hfree.1]
  · cases ha : s.after with
    | none => exact .inr rfl
    | some a =>
      rw [ha] at hfree
      exact .inl (by rw [hblank a (hafter a ha) hfree.2])

/-- In a collapsed text an operator stands free if it has its spaces. -/
theorem spaced_iff {text : List Char} (htext : collapse text = text) :
    Spaced text ↔ OperatorsFree (glyphSitesFrom Context.start (glyphs text)) := by
  rw [← solid_sites]
  constructor
  · intro h t ht hoperates
    obtain ⟨s, hs, rfl⟩ := List.mem_map.mp ht
    rw [Site.operates_solid] at hoperates
    obtain ⟨hbefore, hafter⟩ := h s (List.mem_of_mem_filter hs) hoperates
    have hspace : isBlank ' ' = true := by decide
    rw [standsFree_solid, Site.standsFree, hbefore]
    rcases hafter with hafter | hafter <;> simp [hafter, hspace]
  · intro h s hs hoperates
    have hadds := Site.adds_of_operates hoperates
    -- An operator is not blank, so it has a glyph.
    have hsolid : isSolid s.char = true := by
      rcases Site.char_of_adds hadds with hc | hc <;> rw [hc] <;> decide
    have hfree : s.standsFree = true := by
      rw [← standsFree_solid]
      refine h s.solid (List.mem_map_of_mem (List.mem_filter.mpr ⟨hs, hsolid⟩)) ?_
      rwa [Site.operates_solid]
    exact spaces_of_standsFree htext hs hadds hfree

/-- Unless a parenthesis stands behind an operator, it opens a call in both passes or in none. -/
theorem callsBehind_site {x : Context} {behind : Bool} {c : Char}
    (hx : behind = true → x.before.any isNameChar = true → c ≠ '(') (rest : List Char) :
    (x.site c rest).callsBehind behind x.calls = (x.next c rest).calls := by
  have hchar : (x.site c rest).char = c := rfl
  show _ = x.callsAfter c
  rw [Site.callsBehind, Context.callsAfter, hchar]
  split
  · next hopen =>
    -- The two passes differ only if an operator that is a name character stands right before.
    have hboth : (x.before.any isNameChar && !behind) = x.before.any isNameChar := by
      cases hb : behind with
      | false => simp
      | true =>
        cases hname : x.before.any isNameChar with
        | false => rfl
        | true => exact absurd hopen (hx hb hname)
    exact congrArg (· :: x.calls) hboth
  · rfl

/-- A minus that gets its spaces and has a parenthesis right behind it is all that can go wrong. -/
theorem overlookedFrom_of_no_group {x : Context} {behind : Bool} {text : List Char}
    (hx : behind = true → x.before.any isNameChar = true → text.head? ≠ some '(')
    (h : ∀ s ∈ sitesFrom x text, s.char = '-' → s.operates = true → s.after ≠ some '(') :
    overlookedFrom behind x.calls ((sitesFrom x text).filter fun s => isSolid s.char) = [] := by
  induction text generalizing x behind with
  | nil => rfl
  | cons c rest ih =>
    rw [sitesFrom] at h ⊢
    obtain ⟨hfirst, hlater⟩ := List.forall_mem_cons.mp h
    have hchar : (x.site c rest).char = c := rfl
    cases hc : isBlank c with
    | true =>
      have hcalls : x.calls = (x.next c rest).calls :=
        (x.callsAfter_of_ne (ne_of_test hc (by decide)) (ne_of_test hc (by decide))).symm
      rw [List.filter_cons_of_neg (by simp [hchar, isSolid, hc]), hcalls]
      refine ih (fun _ hname => ?_) hlater
      have hname : isNameChar c = true := hname
      rw [isBlank_of_isNameChar hname] at hc
      exact Bool.noConfusion hc
    | false =>
      -- So the second pass sees the same calls as the first one, and overlooks nothing.
      have hcalls : (x.site c rest).callsBehind behind x.calls = (x.next c rest).calls :=
        callsBehind_site (fun hb hname hopen => hx hb hname (congrArg some hopen)) rest
      have hnot : (x.site c rest).isOverlooked (x.next c rest).calls = false := by
        have hcall : (x.site c rest).inCall = (x.next c rest).calls.any id := rfl
        rw [Site.isOverlooked, hcall]
        cases (x.next c rest).calls.any id <;> simp
      rw [List.filter_cons_of_pos (by simp [hchar, isSolid, hc]), overlookedFrom, hcalls, hnot]
      refine ih (fun hoperates hname => ?_) hlater
      refine hfirst ?_ hoperates
      -- A plus is no name character.
      have hname : isNameChar c = true := hname
      rcases Site.char_of_adds (Site.adds_of_operates hoperates) with hplus | hminus
      · rw [show c = '+' from hplus] at hname
        exact absurd hname (by decide)
      · exact hminus

/-- **When one pass of spacing is enough.** A second pass changes nothing just if every operator got
its spaces in the first one, and that is so just if none was overlooked. Only a minus with a
parenthesis right behind it can lead to that. A calculation is rendered word by word, so in it too
an operator has spaces around it if it got them. -/
theorem spaceOperators_again_iff (e : List Char) :
    (spaceOperators (spaceOperators e) = spaceOperators e ↔ overlooked e = []) ∧
      (Spaced (spaceOperators e) ↔ overlooked e = []) ∧
      ((∀ s ∈ sites e, s.char = '-' → s.operates = true → s.after ≠ some '(') →
        overlooked e = []) ∧
      ∀ text, expression text = e → (ofExpression text).text = "calc(" ++ " ".intercalate
        ((words (spaceOperators e)).map fun word => expressionText (pieces Reference.read word))
          ++ ")" := by
  have hcollapse := collapse_spaceOperators e
  refine ⟨?_, ?_, ?_, ?_⟩
  · rw [spaceOperators_eq_self_iff, overlooked_eq_nil_iff]
    exact and_iff_right hcollapse
  · rw [spaced_iff hcollapse, overlooked_eq_nil_iff]
  · exact overlookedFrom_of_no_group fun h => absurd h Bool.false_ne_true
  · -- No reference reaches over a blank, so the spaces are there when references are replaced.
    rintro text rfl
    rw [← expressionText_collapse, hcollapse]
    rfl

/-- **An operator behind a minus and a parenthesis is overlooked**: the minus is a name character,
so the parenthesis is taken to open a call. -/
theorem group_behind_minus_is_overlooked :
    spaceOperators "10px-(5px-3px)".toList = "10px - (5px-3px)".toList ∧
      spaceOperators "10px - (5px-3px)".toList = "10px - (5px - 3px)".toList ∧
      (ofExpression "10px-(5px-3px)".toList).text = "calc(10px - (5px-3px))" := by
  decide +kernel

/-! ### Calculations -/

/-- **Calculations are found among glyphs.** -/
theorem hasCalculation_eq_any (text : List Char) :
    hasCalculation text = (glyphSitesFrom Context.start (glyphs text)).any Site.calculates := by
  -- A blank does not calculate, and other characters do not see blanks.
  have hsolid : ∀ s : Site, s.calculates = (isSolid s.char && s.solid.calculates) := by
    intro s
    rw [Site.calculates_solid]
    cases hc : isBlank s.char with
    | false => simp [isSolid, hc]
    | true =>
      have hne : ∀ d, isBlank d = false → s.char ≠ d := fun d hd => ne_of_test hc hd
      simp [Site.calculates, Site.isOperator, hne '*' (by decide), hne '/' (by decide),
        hne '+' (by decide), hne '-' (by decide)]
  rw [← solid_sites, List.any_map, List.any_filter, hasCalculation]
  exact List.any_congr rfl hsolid

/-- In the second pass fewer parentheses open a call. -/
theorem callsBehind_le {x : Context} {calls : List Bool} (h : List.Forall₂ (· ≤ ·) calls x.calls)
    (behind : Bool) (g : Glyph) (gs : List Glyph) :
    List.Forall₂ (· ≤ ·) ((x.glyphSite g gs).callsBehind behind calls)
      (x.glyphNext g gs).calls := by
  show List.Forall₂ (· ≤ ·) _ ((x.enter g).callsAfter g.char)
  have hchar : (x.glyphSite g gs).char = g.char := rfl
  have hbefore : (x.glyphSite g gs).before = (x.enter g).before := rfl
  rw [Site.callsBehind, Context.callsAfter, hchar, hbefore]
  split
  · -- An opening one can only lose the name before it.
    refine .cons ?_ h
    cases (x.enter g).before.any isNameChar <;> cases behind <;> decide
  · split
    · -- A closing parenthesis closes the same one in both passes.
      rw [← List.drop_one, ← List.drop_one]
      exact List.forall₂_drop 1 h
    · exact h

/-- If one of the smaller answers is yes, so is one of the larger ones. -/
theorem any_of_forall₂_le {l l' : List Bool} (h : List.Forall₂ (· ≤ ·) l l')
    (hl : l.any id = true) : l'.any id = true := by
  induction h with
  | nil => exact hl
  | @cons a b l l' hab _ ih =>
    rw [List.any_cons, Bool.or_eq_true] at hl ⊢
    rcases hl with ha | hl
    · exact .inl (hab ha)
    · exact .inr (ih hl)

/-- What calculates still does after one pass. -/
theorem any_calculates_respaceFrom {x : Context} {behind : Bool} (h : x.Behind behind)
    {calls : List Bool} (hcalls : List.Forall₂ (· ≤ ·) calls x.calls) {gs : List Glyph}
    (hany : (glyphSitesFrom x gs).any Site.calculates = true) :
    (glyphSitesFrom (x.withCalls calls) (respaceFrom x behind gs)).any Site.calculates = true := by
  induction gs generalizing x behind calls with
  | nil => exact hany
  | cons g gs ih =>
    have hstep := reread h calls g gs
    have hle := callsBehind_le hcalls behind g gs
    rw [glyphSitesFrom_respaceFrom_cons, List.any_cons, Bool.or_eq_true]
    rw [glyphSitesFrom, List.any_cons, Bool.or_eq_true] at hany
    rcases hany with hfirst | hlater
    · left
      -- What calculates is in no call, so it is in none for the second pass either.
      have hcall : ((x.glyphSite g gs).callsBehind behind calls).any id = false := by
        by_contra hne
        rw [Bool.not_eq_false] at hne
        have hin : (x.glyphSite g gs).inCall = true := any_of_forall₂_le hle hne
        simp [Site.calculates, hin] at hfirst
      rw [Site.calculates, hstep.isOperator, hstep.covered, hstep.inCall, hcall]
      simp only [Site.calculates, Bool.and_eq_true] at hfirst ⊢
      exact ⟨hfirst.1, rfl⟩
    · exact .inr (ih (behind_glyphNext x g gs) hle hlater)

/-- A text without a calculation has no operators to space out. -/
theorem respaceFrom_of_not_hasCalculation {text : List Char} (h : hasCalculation text = false) :
    respaceFrom Context.start false (glyphs text) = glyphs text := by
  rw [hasCalculation_eq_any, List.any_eq_false] at h
  refine (respaceFrom_glyphs_eq_self_iff text).mpr fun s hs hoperates => ?_
  rw [Site.operates, Bool.and_eq_true] at hoperates
  exact absurd hoperates.2 (h s hs)

/-- Setting glyphs apart keeps their characters. -/
theorem map_char_respaceFrom (x : Context) (behind : Bool) (gs : List Glyph) :
    (respaceFrom x behind gs).map Glyph.char = gs.map Glyph.char := by
  induction gs generalizing x behind with
  | nil => rfl
  | cons g gs ih => rw [respaceFrom, List.map_cons, List.map_cons, ih]

/-- Spacing keeps the characters that are not blank. -/
theorem filter_isSolid_spaceOperators (e : List Char) :
    (spaceOperators e).filter isSolid = e.filter isSolid :=
  calc (spaceOperators e).filter isSolid
      = (glyphs (spaceOperators e)).map Glyph.char := (map_char_glyphsFrom true _).symm
    _ = (glyphs e).map Glyph.char := by rw [glyphs_spaceOperators, map_char_respaceFrom]
    _ = e.filter isSolid := map_char_glyphsFrom true e

/-- **Spacing agrees with the detection of calculations.** It keeps every character that is not
blank, it turns nothing into a calculation and keeps each one, and a text without a calculation is
only trimmed and gets one space for every run of blanks. -/
theorem spaceOperators_keeps_calculations (e : List Char) :
    (spaceOperators e).filter isSolid = e.filter isSolid ∧
      hasCalculation (spaceOperators e) = hasCalculation e ∧
      (hasCalculation e = false → spaceOperators e = squeeze (trim e)) := by
  have hglyphs := glyphs_spaceOperators e
  refine ⟨?_, ?_, fun h => ?_⟩
  · exact filter_isSolid_spaceOperators e
  · cases h : hasCalculation e with
    | true =>
      rw [hasCalculation_eq_any] at h ⊢
      rw [hglyphs]
      exact any_calculates_respaceFrom (fun h => absurd h Bool.false_ne_true) .nil h
    | false => rw [hasCalculation_eq_any, hglyphs, respaceFrom_of_not_hasCalculation h,
        ← hasCalculation_eq_any, h]
  · rw [spaceOperators_eq, respaceFrom_of_not_hasCalculation h, ← collapse_eq,
      collapse_eq_squeeze_trim]

end UtilityCss.Value
