import UtilityCss.Proofs.Readings

/-!
# What a second pass sees

A pass over an expression puts a space on either side of every plus and minus that calculates. What
a character is taken for depends on its neighbours and on the open parentheses, and the new spaces
change both, so it is not clear that a second pass finds the operators of the first one and no
others.

`Reread` says what the second pass sees of a character, and `reread` that it does so in every step.
A sign, an id or a hyphen between letters is seen as before. A parenthesis may not be: a minus is a
name character, so in `a-(b-c)` the parenthesis looks like one that opens a call, and once the minus
has its spaces it no longer does. From the step follows, by induction over the glyphs, that the
second pass finds an operator without spaces just if the first one overlooked it
(`overlookedFrom_eq_nil_iff`).
-/

namespace UtilityCss.Value

open UtilityCss.Text

namespace Site

/-- A plus or minus that is an operator by its neighbours and belongs to no id, in a call or not. -/
def adds (s : Site) : Bool := (s.char == '+' || s.char == '-') && s.isOperator && !s.covered

/-- A plus or minus operates if it is an operator that is in no call. -/
theorem operates_eq (s : Site) : s.operates = (s.adds && !s.inCall) := by
  rw [operates, adds, calculates, Bool.and_assoc, Bool.and_assoc, Bool.and_assoc]

/-- Only a plus or a minus adds. -/
theorem char_of_adds {s : Site} (h : s.adds = true) : s.char = '+' ∨ s.char = '-' := by
  simp only [adds, Bool.and_eq_true, Bool.or_eq_true, beq_iff_eq] at h
  exact h.1.1

theorem adds_of_operates {s : Site} (h : s.operates = true) : s.adds = true := by
  rw [operates_eq, Bool.and_eq_true] at h
  exact h.1

/-- What adds is no sign. -/
theorem isSign_of_adds {s : Site} (h : s.adds = true) : s.isSign = false := by
  have hchar := char_of_adds h
  simp only [adds, Bool.and_eq_true] at h
  have hoperator := h.1.2
  unfold isOperator at hoperator
  -- A minus has one more condition than a plus.
  rcases hchar with hplus | hminus
  · simpa [hplus] using hoperator
  · have hboth : s.isSign = false ∧ s.joinsLetters = false := by simpa [hminus] using hoperator
    exact hboth.1

/-- The open parentheses behind a character, the innermost first, and whether each of them opened a
call. A parenthesis right behind an operator that got its spaces opens none. -/
def callsBehind (s : Site) (behind : Bool) (calls : List Bool) : List Bool :=
  if s.char = '(' then (s.before.any isNameChar && !behind) :: calls
  else if s.char = ')' then calls.tail
  else calls

/-- Whether a character stands between blanks, or an end of the text. -/
def standsFree (s : Site) : Bool := s.before.all isBlank && s.after.all isBlank

/-- Whether an operator is overlooked: it is taken to be in a call and is in none, and it does not
stand free anyway. -/
def isOverlooked (s : Site) (calls : List Bool) : Bool :=
  s.adds && s.inCall && !calls.any id && !s.standsFree

end Site

/-- The operators among sites that one pass of spacing overlooks; `behind` says whether the last
operator stands right before, and `calls` which of the open parentheses opened a call. -/
def overlookedFrom : (behind : Bool) → (calls : List Bool) → List Site → List Site
  | _, _, [] => []
  | behind, calls, s :: rest =>
    let now := s.callsBehind behind calls
    if s.isOverlooked now then s :: overlookedFrom s.operates now rest
    else overlookedFrom s.operates now rest

/-- **The operators that one pass of spacing overlooks**: those in parentheses that only look like
the parentheses of a call, since a minus that gets its own spaces stands right before them. -/
def overlooked (expression : List Char) : List Site :=
  overlookedFrom false [] ((sites expression).filter fun s => isSolid s.char)

/-- The operators among sites stand free. -/
def OperatorsFree (ss : List Site) : Prop := ∀ s ∈ ss, s.operates = true → s.standsFree = true

theorem operatorsFree_cons {s : Site} {ss : List Site} :
    OperatorsFree (s :: ss) ↔ (s.operates = true → s.standsFree = true) ∧ OperatorsFree ss :=
  List.forall_mem_cons

/-! ### The second pass -/

/-- The same context with other open parentheses. -/
def Context.withCalls (x : Context) (calls : List Bool) : Context := { x with calls := calls }

/-- A context that is right behind an operator, if `behind` says so. -/
def Context.Behind (x : Context) (behind : Bool) : Prop :=
  behind = true → ∃ c, (c = '+' ∨ c = '-') ∧ x.before = some c ∧ x.anchor = some c

/-- **How a second pass sees a character**, with the parentheses that opened a call: it takes it for
an operator if the first pass did. Next to an operator that got its spaces it sees nothing, and next
to any other one what the first pass saw there. -/
structure Reread (s s' : Site) (calls : List Bool) : Prop where
  char : s'.char = s.char
  isOperator : s'.isOperator = s.isOperator
  covered : s'.covered = s.covered
  inCall : s'.inCall = calls.any id
  apart : s.operates = true → s'.before = none ∧ s'.after = none
  neighbours : s.adds = true → s.operates = false → s'.before = s.before ∧ s'.after = s.after

namespace Context

/-- A glyph after one pass, in the context that the pass has there. -/
def spacedGlyph (x : Context) (behind : Bool) (g : Glyph) (gs : List Glyph) : Glyph :=
  ⟨g.char, g.apart || behind || (x.glyphSite g gs).operates⟩

/-- The glyphs behind a glyph after one pass. -/
def spacedLater (x : Context) (g : Glyph) (gs : List Glyph) : List Glyph :=
  respaceFrom (x.glyphNext g gs) (x.glyphSite g gs).operates gs

/-- What the second pass sees of a glyph, with the parentheses that are open there. -/
def respacedSite (x : Context) (behind : Bool) (calls : List Bool) (g : Glyph)
    (gs : List Glyph) : Site :=
  (x.withCalls calls).glyphSite (x.spacedGlyph behind g gs) (x.spacedLater g gs)

end Context

section Step

variable {x : Context} {behind : Bool} {calls : List Bool} {g : Glyph} {gs : List Glyph}

/-- Right behind an operator that got its spaces nothing is joined. -/
theorem joined_respaceFrom_behind (x : Context) (gs : List Glyph) :
    joined (respaceFrom x true gs) = [] := by
  cases gs with
  | nil => rfl
  | cons g gs => exact joined_cons_apart (by simp) _

theorem joined_spacedLater_of_operates (h : (x.glyphSite g gs).operates = true) :
    joined (x.spacedLater g gs) = [] := by
  rw [Context.spacedLater, h, joined_respaceFrom_behind]

/-- Behind any other glyph what is joined goes up to the next operator. -/
theorem joined_spacedLater (h : (x.glyphSite g gs).operates = false) :
    joined (x.spacedLater g gs) = kept (x.glyphNext g gs) (joined gs) := by
  rw [Context.spacedLater, h, joined_respaceFrom]

/-- Behind a hash the second pass finds the same id as the first one. -/
theorem idLength_spacedLater (hchar : g.char = '#') (hleft : x.idLeft = 0) :
    Reference.idLength (joined (x.spacedLater g gs)) = Reference.idLength (joined gs) := by
  rw [joined_spacedLater (x.operates_glyphSite_hash hchar gs),
    idLength_kept (Context.idLeft_glyphNext_hash hleft hchar gs)]

/-- The letters behind a character stay there. -/
theorem any_head?_kept (x : Context) (text : List Char) :
    (kept x text).head?.any isLetter = text.head?.any isLetter := by
  cases text with
  | nil => rfl
  | cons c rest =>
    rw [kept_cons]
    split
    · next hoperates =>
      have hc : c = '+' ∨ c = '-' := Site.char_of_adds (Site.adds_of_operates hoperates)
      -- What is cut off starts with an operator, and this is no letter.
      have hnot : isLetter c = false := by rcases hc with rfl | rfl <;> decide
      exact hnot.symm
    · rfl

/-- Behind a plus or minus there is no operator. -/
theorem head?_kept_of_anchor {x : Context} (h : x.anchor = some '+' ∨ x.anchor = some '-')
    (text : List Char) : (kept x text).head? = text.head? := by
  cases text with
  | nil => rfl
  | cons c rest =>
    -- Behind a plus or minus another one is a sign.
    have hsign : (x.site c rest).isSign = true := by
      rcases h with h | h <;> simp [Site.isSign, Context.site, h]
    rw [kept_cons]
    split
    · next hoperates =>
      rw [Site.isSign_of_adds (Site.adds_of_operates hoperates)] at hsign
      exact Bool.noConfusion hsign
    · rfl

/-- The open parentheses behind a glyph in the second pass. -/
theorem callsAfter_spacedGlyph :
    ((x.withCalls calls).enter (x.spacedGlyph behind g gs)).callsAfter g.char
      = (x.glyphSite g gs).callsBehind behind calls := by
  have hchar : (x.glyphSite g gs).char = g.char := rfl
  have hbefore : (x.glyphSite g gs).before = if g.apart then none else x.before := rfl
  -- Only a parenthesis looks at its neighbour.
  rw [Context.callsAfter, Site.callsBehind, hchar, hbefore]
  split
  · next hopen =>
    -- A parenthesis gets no spaces itself, so only the glyph before it can have moved it.
    have hnot : (x.glyphSite g gs).operates = false := by simp [Site.operates, hchar, hopen]
    cases hg : g.apart <;> cases behind <;>
      simp [Context.enter, Context.spacedGlyph, Context.withCalls, hnot, hg]
  · rfl

/-- Right behind an operator every character is taken for a sign. -/
theorem Context.Behind.isSign (h : x.Behind true) : (x.glyphSite g gs).isSign = true := by
  obtain ⟨c, hc, -, hanchor⟩ := h rfl
  have hsite : (x.glyphSite g gs).anchor = some c := hanchor
  rcases hc with rfl | rfl <;> simp [Site.isSign, hsite]

theorem before_respacedSite :
    (x.respacedSite behind calls g gs).before
      = if g.apart || behind || (x.glyphSite g gs).operates then none else x.before := rfl

theorem after_respacedSite :
    (x.respacedSite behind calls g gs).after = (joined (x.spacedLater g gs)).head? := rfl

theorem isSign_respacedSite :
    (x.respacedSite behind calls g gs).isSign = (x.glyphSite g gs).isSign := rfl

/-- An operator that got its spaces has nothing next to it. -/
theorem respacedSite_of_operates (h : (x.glyphSite g gs).operates = true) :
    (x.respacedSite behind calls g gs).before = none ∧
      (x.respacedSite behind calls g gs).after = none := by
  rw [before_respacedSite, after_respacedSite, h, joined_spacedLater_of_operates h, Bool.or_true]
  exact ⟨rfl, rfl⟩

/-- Spaces are only put next to operators, so the letters around any other character stay. -/
theorem joinsLetters_respacedSite (h : x.Behind behind)
    (hnot : (x.glyphSite g gs).operates = false) :
    (x.respacedSite behind calls g gs).joinsLetters = (x.glyphSite g gs).joinsLetters := by
  -- On the left a neighbour can be lost, but only an operator, which is no letter.
  have hleft : (x.respacedSite behind calls g gs).before.any isLetter
      = (x.glyphSite g gs).before.any isLetter := by
    show _ = (if g.apart then none else x.before).any isLetter
    rw [before_respacedSite, hnot, Bool.or_false]
    cases behind with
    | false => rw [Bool.or_false]
    | true =>
      obtain ⟨c, hc, hx, -⟩ := h rfl
      rcases hc with rfl | rfl <;> cases g.apart <;> simp [hx] <;> decide
  -- On the right too, since what is cut off there starts with an operator.
  have hright : (x.respacedSite behind calls g gs).after.any isLetter
      = (x.glyphSite g gs).after.any isLetter := by
    show _ = (joined gs).head?.any isLetter
    rw [after_respacedSite, joined_spacedLater hnot, any_head?_kept]
  rw [Site.joinsLetters, Site.joinsLetters, hleft, hright]

/-- **An operator is taken for one again**, and nothing else is. -/
theorem isOperator_respacedSite (h : x.Behind behind) :
    (x.respacedSite behind calls g gs).isOperator = (x.glyphSite g gs).isOperator := by
  have hchar : (x.respacedSite behind calls g gs).char = (x.glyphSite g gs).char := rfl
  cases hoperates : (x.glyphSite g gs).operates with
  | false =>
    rw [Site.isOperator, Site.isOperator, joinsLetters_respacedSite h hoperates,
      isSign_respacedSite, hchar]
  | true =>
    -- Alone between spaces it joins no letters any more.
    have hadds := Site.adds_of_operates hoperates
    have hnone : (x.respacedSite behind calls g gs).joinsLetters = false := by
      rw [Site.joinsLetters, (respacedSite_of_operates hoperates).1]
      rfl
    have hoperator : (x.glyphSite g gs).isOperator = true := by
      simp only [Site.adds, Bool.and_eq_true] at hadds
      exact hadds.1.2
    rw [hoperator, Site.isOperator, hchar, hnone, isSign_respacedSite, Site.isSign_of_adds hadds]
    rcases Site.char_of_adds hadds with hc | hc <;> simp [hc]

/-- A character that belongs to an id does so in the second pass. -/
theorem covered_respacedSite :
    (x.respacedSite behind calls g gs).covered = (x.glyphSite g gs).covered := by
  show (x.idLeft != 0 || (g.char == '#' && Reference.idLength (joined (x.spacedLater g gs)) != 0))
    = (x.idLeft != 0 || (g.char == '#' && Reference.idLength (joined gs) != 0))
  -- Within an id nothing is read ahead; at a hash the same id follows.
  by_cases hleft : x.idLeft = 0
  · by_cases hchar : g.char = '#'
    · rw [idLength_spacedLater hchar hleft]
    · rw [beq_false_of_ne hchar, Bool.false_and, Bool.false_and]
  · rw [bne_iff_ne.mpr hleft, Bool.true_or, Bool.true_or]

/-- A plus or minus that stays where it was keeps its neighbours: an operator does not follow one
that got its spaces, nor is it followed by one. -/
theorem neighbours_respacedSite (h : x.Behind behind) (hadds : (x.glyphSite g gs).adds = true)
    (hnot : (x.glyphSite g gs).operates = false) :
    (x.respacedSite behind calls g gs).before = (x.glyphSite g gs).before ∧
      (x.respacedSite behind calls g gs).after = (x.glyphSite g gs).after := by
  -- Right behind an operator with spaces it would be a sign.
  have hfront : behind = false := by
    by_contra hbehind
    rw [Bool.not_eq_false] at hbehind
    rw [hbehind] at h
    have hsigned : (x.glyphSite g gs).isSign = true := h.isSign
    rw [Site.isSign_of_adds hadds] at hsigned
    exact Bool.noConfusion hsigned
  -- And what follows it would be a sign, so it has no spaces either.
  have hanchor : (x.glyphNext g gs).anchor = some '+' ∨ (x.glyphNext g gs).anchor = some '-' := by
    have hnext : (x.glyphNext g gs).anchor
        = if isBlank g.char then x.anchor else some g.char := rfl
    rw [hnext]
    rcases Site.char_of_adds hadds with hc | hc
    · exact .inl (by rw [show g.char = '+' from hc]; rfl)
    · exact .inr (by rw [show g.char = '-' from hc]; rfl)
  rw [before_respacedSite, after_respacedSite, joined_spacedLater hnot, hnot, hfront,
    head?_kept_of_anchor hanchor, Bool.or_false, Bool.or_false]
  exact ⟨rfl, rfl⟩

/-- **What a second pass sees in one step.** -/
theorem reread (h : x.Behind behind) (calls : List Bool) (g : Glyph) (gs : List Glyph) :
    Reread (x.glyphSite g gs) (x.respacedSite behind calls g gs)
      ((x.glyphSite g gs).callsBehind behind calls) where
  char := rfl
  isOperator := isOperator_respacedSite h
  covered := covered_respacedSite
  inCall := by
    rw [← callsAfter_spacedGlyph]
    rfl
  apart := respacedSite_of_operates
  neighbours := neighbours_respacedSite h

/-- The context behind a glyph in the second pass. -/
theorem glyphNext_spacedGlyph :
    (x.withCalls calls).glyphNext (x.spacedGlyph behind g gs) (x.spacedLater g gs)
      = (x.glyphNext g gs).withCalls ((x.glyphSite g gs).callsBehind behind calls) := by
  -- The id that is left is counted from the same text behind a hash.
  have hleft : ((x.withCalls calls).enter (x.spacedGlyph behind g gs)).idLeftAfter g.char
      (joined (x.spacedLater g gs)) = (x.enter g).idLeftAfter g.char (joined gs) := by
    unfold Context.idLeftAfter
    show (if x.idLeft = 0 ∧ g.char = '#' then _ else x.idLeft - 1)
      = if x.idLeft = 0 ∧ g.char = '#' then _ else x.idLeft - 1
    by_cases h : x.idLeft = 0 ∧ g.char = '#'
    · rw [if_pos h, if_pos h, idLength_spacedLater h.2 h.1]
    · rw [if_neg h, if_neg h]
  show Context.next _ g.char _ = _
  unfold Context.next
  rw [callsAfter_spacedGlyph, hleft]
  rfl

/-- **One step of the second pass**: it runs in the contexts of the first one, but for the
parentheses. -/
theorem glyphSitesFrom_respaceFrom_cons :
    glyphSitesFrom (x.withCalls calls) (respaceFrom x behind (g :: gs))
      = x.respacedSite behind calls g gs ::
        glyphSitesFrom
          ((x.glyphNext g gs).withCalls ((x.glyphSite g gs).callsBehind behind calls))
          (respaceFrom (x.glyphNext g gs) (x.glyphSite g gs).operates gs) := by
  rw [← glyphNext_spacedGlyph]
  rfl

/-- Behind a glyph that got its spaces a context is behind an operator. -/
theorem behind_glyphNext (x : Context) (g : Glyph) (gs : List Glyph) :
    (x.glyphNext g gs).Behind (x.glyphSite g gs).operates := by
  intro hoperates
  have hchar : g.char = '+' ∨ g.char = '-' := Site.char_of_adds (Site.adds_of_operates hoperates)
  refine ⟨g.char, hchar, rfl, ?_⟩
  show (if isBlank g.char then _ else some g.char) = _
  rcases hchar with hc | hc <;> rw [hc] <;> rfl

end Step

/-! ### Whole passes -/

/-- The neighbours of a glyph are not blank, so it stands free if it stands apart and so does the
next one. -/
theorem standsFree_glyphSite_iff {x : Context} {g : Glyph} {gs : List Glyph}
    (hx : x.before.all isBlank = true → g.apart = true)
    (hgs : ∀ h ∈ gs, isBlank h.char = false) :
    (x.glyphSite g gs).standsFree = true ↔
      g.apart = true ∧ ∀ h ∈ gs.head?, h.apart = true := by
  -- A neighbour that is blank does not occur: the glyph would stand apart.
  have hbefore : (x.glyphSite g gs).before.all isBlank = g.apart := by
    show (if g.apart then none else x.before).all isBlank = _
    cases hapart : g.apart with
    | true => rfl
    | false =>
      by_contra hne
      rw [Bool.not_eq_false] at hne
      rw [hx hne] at hapart
      exact Bool.noConfusion hapart
  have hafter : (x.glyphSite g gs).after.all isBlank = true ↔ ∀ h ∈ gs.head?, h.apart = true := by
    show (joined gs).head?.all isBlank = true ↔ _
    cases gs with
    | nil => simp [joined]
    | cons h gs =>
      cases hapart : h.apart with
      | true => simp [joined_cons_apart hapart, hapart]
      | false =>
        rw [joined_cons_close hapart]
        simp [hapart, (List.forall_mem_cons.mp hgs).1]
  rw [Site.standsFree, Bool.and_eq_true, hbefore, hafter]

/-- A pass changes nothing just if the operators stand free already. -/
theorem respaceFrom_eq_self_iff (x : Context) (behind : Bool) {gs : List Glyph}
    (hchars : ∀ g ∈ gs, isBlank g.char = false)
    (hx : x.before.all isBlank = true → ∀ g ∈ gs.head?, g.apart = true) :
    respaceFrom x behind gs = gs ↔
      (behind = true → ∀ g ∈ gs.head?, g.apart = true) ∧
        OperatorsFree (glyphSitesFrom x gs) := by
  induction gs generalizing x behind with
  | nil => simp [respaceFrom, glyphSitesFrom, OperatorsFree]
  | cons g gs ih =>
    obtain ⟨hg, hgs⟩ := List.forall_mem_cons.mp hchars
    -- A glyph is not blank, so the next one stands apart just if it says so.
    have hlater := ih (x.glyphNext g gs) (x.glyphSite g gs).operates hgs
      fun hblank => absurd (hg.symm.trans hblank) Bool.false_ne_true
    have hfree := standsFree_glyphSite_iff (fun hblank => hx hblank g rfl) hgs
    -- The glyph stays just if it stood apart before, wherever it has to now.
    have hhead : (⟨g.char, g.apart || behind || (x.glyphSite g gs).operates⟩ : Glyph) = g ↔
        (behind = true → g.apart = true) ∧
          ((x.glyphSite g gs).operates = true → g.apart = true) := by
      obtain ⟨c, apart⟩ := g
      cases apart <;> cases behind <;> simp
    rw [respaceFrom, List.cons_eq_cons, hhead, hlater, glyphSitesFrom, operatorsFree_cons,
      hfree]
    simp only [List.head?_cons, Option.mem_some_iff, forall_eq']
    constructor
    · rintro ⟨⟨hbehind, hself⟩, hnext, hrest⟩
      exact ⟨hbehind, fun hop => ⟨hself hop, hnext hop⟩, hrest⟩
    · rintro ⟨hbehind, hop, hrest⟩
      exact ⟨⟨hbehind, fun h => (hop h).1⟩, fun h => (hop h).2, hrest⟩

/-- A second pass finds an operator that does not stand free just where the first one overlooked
it. -/
theorem Reread.standsFree_iff {s s' : Site} {calls : List Bool} (h : Reread s s' calls) :
    (s'.operates = true → s'.standsFree = true) ↔ s.isOverlooked calls = false := by
  have hadds : s'.adds = s.adds := by rw [Site.adds, Site.adds, h.char, h.isOperator, h.covered]
  have hoperates' : s'.operates = (s.adds && !calls.any id) := by
    rw [Site.operates_eq, hadds, h.inCall]
  rw [hoperates', Site.isOverlooked]
  cases hoperates : s.operates with
  | true =>
    -- It got its spaces.
    have hfree : s'.standsFree = true := by
      rw [Site.standsFree, (h.apart hoperates).1, (h.apart hoperates).2]
      rfl
    have hcall : s.inCall = false := by
      rw [Site.operates_eq, Bool.and_eq_true] at hoperates
      simpa using hoperates.2
    simp [hfree, hcall]
  | false =>
    cases hs : s.adds with
    | false => simp
    | true =>
      have hcall : s.inCall = true := by
        rw [Site.operates_eq, hs] at hoperates
        simpa using hoperates
      -- It was taken to be in a call and stayed where it was.
      have hfree : s'.standsFree = s.standsFree := by
        rw [Site.standsFree, Site.standsFree, (h.neighbours hs hoperates).1,
          (h.neighbours hs hoperates).2]
      rw [hfree, hcall]
      cases calls.any id <;> simp

/-- **A second pass has nothing left to do** just if the first one overlooked nothing. -/
theorem overlookedFrom_eq_nil_iff {x : Context} {behind : Bool} (h : x.Behind behind)
    (calls : List Bool) (gs : List Glyph) :
    overlookedFrom behind calls (glyphSitesFrom x gs) = [] ↔
      OperatorsFree (glyphSitesFrom (x.withCalls calls) (respaceFrom x behind gs)) := by
  -- The induction goes through both passes at once; `reread` is the step.
  induction gs generalizing x behind calls with
  | nil => simp [overlookedFrom, glyphSitesFrom, respaceFrom, OperatorsFree]
  | cons g gs ih =>
    have hstep := (reread h calls g gs).standsFree_iff
    have hlater := ih (behind_glyphNext x g gs) ((x.glyphSite g gs).callsBehind behind calls)
    rw [glyphSitesFrom_respaceFrom_cons, operatorsFree_cons, hstep, ← hlater, glyphSitesFrom,
      overlookedFrom]
    cases (x.glyphSite g gs).isOverlooked ((x.glyphSite g gs).callsBehind behind calls) <;> simp

end UtilityCss.Value
