import UtilityCss.Proofs.Glyphs
import UtilityCss.Proofs.References
import UtilityCss.Proofs.ScriptLines

/-!
# Operators among glyphs

Whether a character of a value calculates depends on its neighbours, on the last character that is
not blank and on the open parentheses, but not on which blanks there are. So it is settled by the
glyphs of the value, and spacing the operators out sets glyphs apart: each operator, and what comes
right behind one.

* `glyphSitesFrom` reads the sites off the glyphs: a context enters a glyph without its neighbour if
  the glyph stands apart, and looks ahead over the glyphs that are `joined` to it. `solid_sites`
  says that these are the sites of the text;
* `respaceFrom` sets glyphs apart, and `glyphs_spaceOperators` says that this is what spacing does;
* `joined_respaceFrom` — what is still joined behind a glyph is `kept`, the text up to the next
  operator. The id of a reference is kept whole (`idLength_kept`).
-/

namespace UtilityCss

open UtilityCss.Text

/-! ### The length of an id -/

namespace Reference

/-- An id counts if a colon follows it. -/
theorem idLength_eq (text : List Char) :
    idLength text = if (text.dropWhile isNameChar).head? = some ':'
      then (text.takeWhile isNameChar).length else 0 := by
  rw [idLength, drop_length_takeWhile]

/-- No id starts with a character that is not of a name. -/
theorem idLength_cons_of_not {c : Char} (hc : isNameChar c = false) (rest : List Char) :
    idLength (c :: rest) = 0 := by
  rw [idLength_eq, List.takeWhile_cons_of_neg (Bool.eq_false_iff.mp hc)]
  exact ite_self 0

/-- An id loses one character at a time. -/
theorem idLength_of_cons_eq_succ {c : Char} {rest : List Char} {n : Nat}
    (h : idLength (c :: rest) = n + 1) : isNameChar c = true ∧ idLength rest = n := by
  cases hc : isNameChar c with
  | false => exact absurd (h.symm.trans (idLength_cons_of_not hc rest)) (Nat.succ_ne_zero n)
  | true =>
    rw [idLength_eq, List.dropWhile_cons_of_pos hc, List.takeWhile_cons_of_pos hc] at h
    refine ⟨rfl, ?_⟩
    rw [idLength_eq]
    split at h
    · next hcolon =>
      rw [if_pos hcolon]
      exact Nat.succ.inj h
    · exact absurd h.symm (Nat.succ_ne_zero n)

/-- The length of an id that is there. -/
theorem idLength_append_colon {id : List Char} (hid : ∀ c ∈ id, isNameChar c = true)
    (rest : List Char) : idLength (id ++ ':' :: rest) = id.length := by
  rw [idLength_eq, dropWhile_append_cons hid (by decide), takeWhile_append_cons hid (by decide)]
  rfl

/-- **A text that starts with an id** and a colon. -/
theorem exists_of_idLength_ne_zero {text : List Char} (h : idLength text ≠ 0) :
    ∃ id rest, text = id ++ ':' :: rest ∧ id.length = idLength text ∧ id ≠ [] ∧
      ∀ c ∈ id, isNameChar c = true := by
  rw [idLength_eq] at h ⊢
  split at h
  · next hcolon =>
    -- The id is the run of name characters, and what is left starts with the colon.
    obtain ⟨rest, hrest⟩ := List.head?_eq_some_iff.mp hcolon
    refine ⟨text.takeWhile isNameChar, rest, ?_, (if_pos hcolon).symm, ?_, ?_⟩
    · rw [← hrest, List.takeWhile_append_dropWhile]
    · exact fun hnil => h (by rw [hnil]; rfl)
    · exact List.all_eq_true.mp List.all_takeWhile
  · exact absurd rfl h

/-- An id and its colon stand before the next blank. -/
theorem idLength_takeWhile_isSolid (text : List Char) :
    idLength (text.takeWhile isSolid) = idLength text := by
  have hname : ∀ c, isNameChar c = true → isSolid c = true :=
    fun c hc => by simp [isSolid, isBlank_of_isNameChar hc]
  have htake := takeWhile_takeWhile_isSolid (fun c => isBlank_of_isNameChar (c := c)) text
  have hhead : ((text.takeWhile isSolid).dropWhile isNameChar).head? = some ':' ↔
      (text.dropWhile isNameChar).head? = some ':' := by
    clear htake
    -- The texts are the same up to the first blank, and a blank ends an id without a colon.
    induction text with
    | nil => rfl
    | cons c rest ih =>
      by_cases hc : isNameChar c
      · rw [List.takeWhile_cons_of_pos (hname c hc), List.dropWhile_cons_of_pos hc,
          List.dropWhile_cons_of_pos hc, ih]
      · by_cases hs : isSolid c
        · rw [List.takeWhile_cons_of_pos hs, List.dropWhile_cons_of_neg hc,
            List.dropWhile_cons_of_neg hc]
          rfl
        · have hcolon : c ≠ ':' := by
            rintro rfl
            exact hs (by decide)
          rw [List.takeWhile_cons_of_neg hs, List.dropWhile_cons_of_neg hc]
          simp [hcolon]
  rw [idLength_eq, idLength_eq, htake]
  exact if_congr hhead rfl rfl

end Reference

namespace Value

/-! ### Sites and blanks -/

/-- A test that no blank passes does not see blanks. -/
theorem any_filter_isSolid {test : Char → Bool} (h : ∀ c, test c = true → isBlank c = false)
    (o : Option Char) : (o.filter isSolid).any test = o.any test := by
  cases o with
  | none => rfl
  | some c =>
    cases hc : isBlank c with
    | false => simp [isSolid, hc]
    | true =>
      -- A blank does not pass the test, whether it is seen or not.
      have hnot : test c = false := by
        by_contra htest
        rw [h c (Bool.not_eq_false _ ▸ htest)] at hc
        exact Bool.noConfusion hc
      simp [isSolid, hc, hnot]

theorem isBlank_of_isLetter {c : Char} (h : isLetter c = true) : isBlank c = false :=
  isBlank_of_isNameChar (Script.isNameChar_of_isAlpha h)

namespace Site

/-- **A character that gets its spaces**: a plus or minus that calculates. -/
def operates (s : Site) : Bool := (s.char == '+' || s.char == '-') && s.calculates

/-- An operator gets its spaces, and any other character is written alone. -/
theorem spaced_eq (s : Site) : s.spaced = if s.operates then [' ', s.char, ' '] else [s.char] := by
  simp [spaced, operates]

/-- A site that does not see the blanks beside it. -/
def solid (s : Site) : Site :=
  { s with before := s.before.filter isSolid, after := s.after.filter isSolid }

/-- Blanks beside a character do not decide whether it is an operator. -/
theorem isOperator_solid (s : Site) : s.solid.isOperator = s.isOperator := by
  have hletter := any_filter_isSolid (fun c => isBlank_of_isLetter (c := c))
  -- Neighbours are only asked whether they are letters.
  unfold isOperator isSign joinsLetters
  simp [solid, hletter]

theorem calculates_solid (s : Site) : s.solid.calculates = s.calculates := by
  rw [calculates, calculates, isOperator_solid]
  rfl

/-- Blanks beside a character do not decide whether it gets its spaces. -/
theorem operates_solid (s : Site) : s.solid.operates = s.operates := by
  rw [operates, operates, calculates_solid]
  rfl

end Site

namespace Context

/-- The id that a context is in, if it is in one, goes on to its colon. -/
def Fits (x : Context) (text : List Char) : Prop :=
  x.idLeft = 0 ∨ x.idLeft = Reference.idLength text

/-- The id that is left fits the text that is left. -/
theorem Fits.next {x : Context} {c : Char} {rest : List Char} (h : x.Fits (c :: rest)) :
    (x.next c rest).Fits rest := by
  show x.idLeftAfter c rest = 0 ∨ x.idLeftAfter c rest = Reference.idLength rest
  unfold idLeftAfter
  split
  · -- A hash starts a new id.
    exact .inr rfl
  · -- Any other character takes one off the id that is left.
    cases hleft : x.idLeft with
    | zero => exact .inl rfl
    | succ n =>
      have hlength : x.idLeft = Reference.idLength (c :: rest) :=
        h.resolve_left (by rw [hleft]; exact Nat.succ_ne_zero n)
      rw [hleft] at hlength
      exact .inr (Reference.idLength_of_cons_eq_succ hlength.symm).2.symm

/-- No id goes on at a character that is not of a name. -/
theorem Fits.idLeft_eq_zero {x : Context} {c : Char} {rest : List Char} (h : x.Fits (c :: rest))
    (hc : isNameChar c = false) : x.idLeft = 0 :=
  h.elim id fun hlength => hlength.trans (Reference.idLength_cons_of_not hc rest)

/-- A character that is no parenthesis opens and closes nothing. -/
theorem callsAfter_of_ne (x : Context) {c : Char} (hopen : c ≠ '(') (hclose : c ≠ ')') :
    x.callsAfter c = x.calls := by
  rw [callsAfter, if_neg hopen, if_neg hclose]

/-- A blank changes nothing but the neighbour. -/
theorem next_of_isBlank {x : Context} {c : Char} {rest : List Char} (hc : isBlank c = true)
    (h : x.Fits (c :: rest)) : x.next c rest = { x with before := some c } := by
  have hne : ∀ d, isBlank d = false → c ≠ d := fun d hd => ne_of_test hc hd
  -- Within an id there is no blank, so the context is in none.
  have hname : isNameChar c = false := by
    by_contra hname
    rw [isBlank_of_isNameChar (Bool.not_eq_false _ ▸ hname)] at hc
    exact Bool.noConfusion hc
  have hcalls : x.callsAfter c = x.calls :=
    x.callsAfter_of_ne (hne '(' (by decide)) (hne ')' (by decide))
  have hleft : x.idLeftAfter c rest = x.idLeft := by
    rw [idLeftAfter, if_neg fun hhash => hne '#' (by decide) hhash.2, h.idLeft_eq_zero hname]
  rw [next, if_pos hc, hcalls, hleft]

/-- The context in front of a glyph: a glyph that stands apart has no neighbour. -/
def enter (x : Context) (g : Glyph) : Context :=
  { x with before := if g.apart then none else x.before }

/-- A glyph in its context, with the glyphs behind it. -/
def glyphSite (x : Context) (g : Glyph) (later : List Glyph) : Site :=
  (x.enter g).site g.char (joined later)

/-- The context behind a glyph. -/
def glyphNext (x : Context) (g : Glyph) (later : List Glyph) : Context :=
  (x.enter g).next g.char (joined later)

/-- The neighbour of a context does not matter to the first glyph of a text. -/
theorem enter_of_glyphs {text : List Char} {g : Glyph} {gs : List Glyph}
    (h : glyphs text = g :: gs) (x : Context) (before : Option Char) :
    enter { x with before := before } g = x.enter g := by
  simp [enter, apart_of_glyphs_eq_cons h]

/-- Before the glyph of a character a context sees the neighbour that is not blank. -/
theorem before_enter (x : Context) (c : Char) :
    (x.enter ⟨c, x.before.all isBlank⟩).before = x.before.filter isSolid := by
  cases hbefore : x.before with
  | none => simp [enter]
  | some b => cases hb : isBlank b <;> simp [enter, hbefore, Option.filter, isSolid, hb]

/-- Parentheses are opened and closed at a glyph as at its character. -/
theorem callsAfter_enter (x : Context) (c d : Char) :
    (x.enter ⟨c, x.before.all isBlank⟩).callsAfter d = x.callsAfter d := by
  unfold callsAfter
  -- The neighbour is only asked whether it is a name character.
  rw [before_enter, any_filter_isSolid fun c => isBlank_of_isNameChar (c := c)]
  rfl

/-- The site of a character and that of its glyph. -/
theorem solid_site (x : Context) (c : Char) (rest : List Char) :
    (x.site c rest).solid = x.glyphSite ⟨c, x.before.all isBlank⟩ (glyphsFrom false rest) := by
  -- The next character counts if it is not blank, and then it is joined.
  have hafter : rest.head?.filter isSolid = (rest.takeWhile isSolid).head? := by
    cases rest with
    | nil => rfl
    | cons d rest => by_cases hd : isSolid d <;> simp [hd]
  rw [glyphSite, joined_glyphsFrom]
  unfold site Site.solid
  rw [before_enter, callsAfter_enter, Reference.idLength_takeWhile_isSolid, hafter]
  rfl

/-- The context behind a character and that behind its glyph. -/
theorem glyphNext_eq_next (x : Context) (c : Char) (rest : List Char) :
    x.glyphNext ⟨c, x.before.all isBlank⟩ (glyphsFrom false rest) = x.next c rest := by
  rw [glyphNext, joined_glyphsFrom]
  unfold next idLeftAfter
  rw [callsAfter_enter, Reference.idLength_takeWhile_isSolid]
  rfl

/-- A hash is no operator. -/
theorem operates_glyphSite_hash (x : Context) {g : Glyph} (hg : g.char = '#') (gs : List Glyph) :
    (x.glyphSite g gs).operates = false := by
  simp [Site.operates, glyphSite, site, hg]

/-- Behind a hash a context is in the id that starts there. -/
theorem idLeft_glyphNext_hash {x : Context} (hleft : x.idLeft = 0) {g : Glyph}
    (hg : g.char = '#') (gs : List Glyph) :
    (x.glyphNext g gs).idLeft = Reference.idLength (joined gs) :=
  if_pos ⟨hleft, hg⟩

end Context

/-! ### The sites of glyphs -/

/-- The sites of glyphs from a context on. -/
def glyphSitesFrom : Context → List Glyph → List Site
  | _, [] => []
  | x, g :: gs => x.glyphSite g gs :: glyphSitesFrom (x.glyphNext g gs) gs

/-- The sites of the glyphs of a text do not depend on what stands before the text. -/
theorem glyphSitesFrom_glyphs (x : Context) (before : Option Char) (text : List Char) :
    glyphSitesFrom { x with before := before } (glyphs text) = glyphSitesFrom x (glyphs text) := by
  cases h : glyphs text with
  | nil => rfl
  | cons g gs =>
    rw [glyphSitesFrom, glyphSitesFrom, Context.glyphSite, Context.glyphNext,
      Context.enter_of_glyphs h]
    rfl

/-- **The sites of a text from a context on**, without blanks, are those of its glyphs. -/
theorem solid_sitesFrom {x : Context} {text : List Char} (h : x.Fits text) :
    ((sitesFrom x text).filter fun s => isSolid s.char).map Site.solid
      = glyphSitesFrom x (glyphsFrom (x.before.all isBlank) text) := by
  induction text generalizing x with
  | nil => rfl
  | cons c rest ih =>
    have hchar : (x.site c rest).char = c := rfl
    cases hc : isBlank c with
    | true =>
      -- A blank has no glyph, and behind it the next glyph stands apart in any case.
      have hnext := Context.next_of_isBlank hc h
      rw [sitesFrom, List.filter_cons_of_neg (by simp [hchar, isSolid, hc]), ih h.next, hnext,
        glyphsFrom_cons_blank hc]
      simp only [Option.all_some, hc]
      exact glyphSitesFrom_glyphs x (some c) rest
    | false =>
      have hapart : (x.next c rest).before.all isBlank = false := hc
      rw [sitesFrom, List.filter_cons_of_pos (by simp [hchar, isSolid, hc]), List.map_cons,
        ih h.next, hapart, glyphsFrom_cons_solid hc, glyphSitesFrom, Context.solid_site,
        Context.glyphNext_eq_next]

/-- **The sites of a text are those of its glyphs.** -/
theorem solid_sites (text : List Char) :
    ((sites text).filter fun s => isSolid s.char).map Site.solid
      = glyphSitesFrom Context.start (glyphs text) :=
  solid_sitesFrom (.inl rfl)

/-! ### Spacing glyphs -/

/-- Set the operators among glyphs apart, and what stands right behind one; `behind` says whether
the first glyph does. -/
def respaceFrom : Context → (behind : Bool) → List Glyph → List Glyph
  | _, _, [] => []
  | x, behind, g :: gs =>
    ⟨g.char, g.apart || behind || (x.glyphSite g gs).operates⟩
      :: respaceFrom (x.glyphNext g gs) (x.glyphSite g gs).operates gs

/-- Setting the glyphs of a text apart does not depend on what stands before the text. -/
theorem respaceFrom_glyphs (x : Context) (before : Option Char) (behind : Bool)
    (text : List Char) :
    respaceFrom { x with before := before } behind (glyphs text)
      = respaceFrom x behind (glyphs text) := by
  cases h : glyphs text with
  | nil => rfl
  | cons g gs =>
    rw [respaceFrom, respaceFrom, Context.glyphSite, Context.glyphNext,
      Context.enter_of_glyphs h]
    rfl

/-- The glyphs of a text with spaces around its operators. -/
theorem glyphsFrom_spaced {x : Context} {text : List Char} (h : x.Fits text) (behind : Bool) :
    glyphsFrom (x.before.all isBlank || behind) ((sitesFrom x text).flatMap Site.spaced)
      = respaceFrom x behind (glyphsFrom (x.before.all isBlank) text) := by
  induction text generalizing x behind with
  | nil => rfl
  | cons c rest ih =>
    have hspaced := (x.site c rest).spaced_eq
    have hchar : (x.site c rest).char = c := rfl
    rw [sitesFrom, List.flatMap_cons, hspaced, hchar]
    cases hc : isBlank c with
    | true =>
      -- A blank is no operator, so it is written alone and has no glyph.
      have hnot : (x.site c rest).operates = false := by
        have hplus := ne_of_test hc (x := '+') (by decide)
        have hminus := ne_of_test hc (x := '-') (by decide)
        simp [Site.operates, hchar, hplus, hminus]
      have hnext := Context.next_of_isBlank hc h
      have hlater := ih h.next behind
      rw [hnext] at hlater ⊢
      simp only [Option.all_some, hc, Bool.true_or] at hlater
      rw [hnot, if_neg Bool.false_ne_true, List.singleton_append, glyphsFrom_cons_blank hc,
        glyphsFrom_cons_blank hc, hlater]
      exact respaceFrom_glyphs x (some c) behind rest
    | false =>
      -- Whether the character operates can be told from its glyph.
      have hoperates : (x.site c rest).operates
          = (x.glyphSite ⟨c, x.before.all isBlank⟩ (glyphsFrom false rest)).operates := by
        rw [← Context.solid_site, Site.operates_solid]
      have hlater := ih h.next (x.site c rest).operates
      have hapart : (x.next c rest).before.all isBlank = false := hc
      rw [hapart, Bool.false_or] at hlater
      rw [glyphsFrom_cons_solid hc, respaceFrom, Context.glyphNext_eq_next, ← hoperates, ← hlater]
      -- The spaces around an operator have no glyphs; they set it and the next glyph apart.
      cases (x.site c rest).operates with
      | true =>
        show glyphsFrom _ (' ' :: c :: ' ' :: _) = _
        rw [glyphsFrom_cons_blank (by decide), glyphsFrom_cons_solid hc,
          glyphsFrom_cons_blank (by decide), Bool.or_true]
        rfl
      | false =>
        show glyphsFrom _ (c :: _) = _
        rw [glyphsFrom_cons_solid hc, Bool.or_false]
        rfl

/-- **Spacing operators sets glyphs apart.** -/
theorem glyphs_spaceOperators (expression : List Char) :
    glyphs (spaceOperators expression) = respaceFrom Context.start false (glyphs expression) := by
  rw [spaceOperators, glyphs_collapse]
  exact glyphsFrom_spaced (x := Context.start) (.inl rfl) false

/-- **A spaced expression is written from glyphs**: those of the expression, with operators set
apart. -/
theorem spaceOperators_eq (expression : List Char) :
    spaceOperators expression
      = (spread (respaceFrom Context.start false (glyphs expression))).drop 1 := by
  rw [← glyphs_spaceOperators, ← collapse_eq, spaceOperators, collapse_collapse]

/-! ### What stays joined -/

/-- The start of a text up to its first operator. -/
def kept (x : Context) (text : List Char) : List Char :=
  ((sitesFrom x text).takeWhile fun s => !s.operates).map Site.char

/-- An operator ends what is kept. -/
theorem kept_cons (x : Context) (c : Char) (rest : List Char) :
    kept x (c :: rest)
      = if (x.site c rest).operates then [] else c :: kept (x.next c rest) rest := by
  rw [kept, sitesFrom, List.takeWhile_cons]
  cases (x.site c rest).operates <;> rfl

/-- What is kept is the start of the text. -/
theorem isPrefix_kept (x : Context) (text : List Char) : kept x text <+: text := by
  induction text generalizing x with
  | nil => exact List.nil_prefix
  | cons c rest ih =>
    rw [kept_cons]
    split
    · exact List.nil_prefix
    · exact List.cons_prefix_cons.mpr ⟨rfl, ih _⟩

/-- **What stays joined** behind a glyph: the text up to the next operator. -/
theorem joined_respaceFrom (x : Context) (gs : List Glyph) :
    joined (respaceFrom x false gs) = kept x (joined gs) := by
  induction gs generalizing x with
  | nil => rfl
  | cons g gs ih =>
    cases hg : g.apart with
    | true =>
      rw [joined_cons_apart hg, respaceFrom, joined_cons_apart (by simp [hg])]
      rfl
    | false =>
      have henter : x.enter g = x := by simp [Context.enter, hg]
      have hsite : x.glyphSite g gs = x.site g.char (joined gs) := by
        rw [Context.glyphSite, henter]
      -- A glyph is cut off here if it operates, and it was not cut off before.
      rw [joined_cons_close hg, kept_cons, respaceFrom, hsite]
      cases hoperates : (x.site g.char (joined gs)).operates with
      | true => rw [joined_cons_apart (by simp)]; rfl
      | false =>
        rw [joined_cons_close (by simp [hg]), ih, Context.glyphNext, henter]
        rfl

/-- A character that is covered or no plus or minus is kept. -/
theorem kept_cons_of_not {x : Context} {c : Char} {rest : List Char}
    (h : x.idLeft ≠ 0 ∨ c ≠ '+' ∧ c ≠ '-') :
    kept x (c :: rest) = c :: kept (x.next c rest) rest := by
  have hnot : (x.site c rest).operates = false := by
    rcases h with hleft | ⟨hplus, hminus⟩
    · simp [Site.operates, Site.calculates, Context.site, hleft]
    · simp [Site.operates, Context.site, hplus, hminus]
  rw [kept_cons, hnot]
  rfl

/-- The context behind the colon of a reference. -/
def Context.behindColon (x : Context) : Context := ⟨some ':', some ':', x.calls, 0⟩

/-- **The id of a reference is kept** with its colon. -/
theorem kept_id {x : Context} {id : List Char} (hid : ∀ c ∈ id, isNameChar c = true)
    (hleft : x.idLeft = id.length) (rest : List Char) :
    kept x (id ++ ':' :: rest) = id ++ ':' :: kept x.behindColon rest := by
  induction id generalizing x with
  | nil =>
    -- At the colon the id is over, and the colon is what stands before the rest.
    have hsolid : isBlank ':' = false := by decide
    have hnext : x.next ':' rest = x.behindColon := by
      simp [Context.next, Context.behindColon, Context.callsAfter, Context.idLeftAfter, hleft,
        hsolid]
    rw [List.nil_append, kept_cons_of_not (.inr (by decide)), hnext]
    rfl
  | cons c id ih =>
    obtain ⟨hc, hid⟩ := List.forall_mem_cons.mp hid
    have hne : ∀ d, isNameChar d = false → c ≠ d := fun d hd => ne_of_test hc hd
    -- It takes one off the id that is left, and opens and closes nothing.
    have hstep : (x.next c (id ++ ':' :: rest)).idLeft = id.length := by
      show x.idLeftAfter c _ = _
      rw [Context.idLeftAfter, if_neg fun h => hne '#' (by decide) h.2, hleft]
      rfl
    have hcalls : (x.next c (id ++ ':' :: rest)).behindColon = x.behindColon := by
      unfold Context.behindColon Context.next
      rw [x.callsAfter_of_ne (hne '(' (by decide)) (hne ')' (by decide))]
    rw [List.cons_append, kept_cons_of_not (.inl (by rw [hleft]; simp)), ih hid hstep, hcalls]
    rfl

/-- Right behind a hash, the text that is kept starts with the same id. -/
theorem idLength_kept {x : Context} {text : List Char}
    (hleft : x.idLeft = Reference.idLength text) :
    Reference.idLength (kept x text) = Reference.idLength text := by
  by_cases hzero : Reference.idLength text = 0
  · rw [hzero]
    by_contra hne
    -- An id in what is kept would be one in the text.
    obtain ⟨id, rest, hkept, -, hid_ne, hid⟩ := Reference.exists_of_idLength_ne_zero hne
    obtain ⟨behind, hbehind⟩ := isPrefix_kept x text
    rw [hkept, List.append_assoc, List.cons_append] at hbehind
    rw [← hbehind, Reference.idLength_append_colon hid] at hzero
    exact hid_ne (List.length_eq_zero_iff.mp hzero)
  · obtain ⟨id, rest, rfl, hlength, -, hid⟩ := Reference.exists_of_idLength_ne_zero hzero
    rw [kept_id hid (hleft.trans hlength.symm), Reference.idLength_append_colon hid, hlength]

end Value

end UtilityCss
