import UtilityCss.Proofs.Readings

/-!
# The references of an expression

The references of a calculation are read after its operators got their spaces. A maintainer would
rather know them from the expression itself. A `Mention` is a hash with an id and a colon right
behind it; ids are never touched by spacing, so the mentions of the expression are those of the
spaced text, and only the property behind the colon may be cut short. Where it is cut depends on
whether the mention stands in a call:

* in a call nothing is spaced, and the property is all letters and hyphens behind the colon
  (`takeWhile_kept_of_inCall`);
* elsewhere the first hyphen that does not stand between two letters is a minus, and the property
  ends in front of it (`takeWhile_kept`).

`read_kept` puts the two together at one hash and `references_eq` at all of them. A property outside
calls therefore starts and ends with a letter. In a call it may end with the minus that was meant to
subtract something from it.
-/

namespace UtilityCss

open UtilityCss.Text
open UtilityCss.Script (isLetter_of_mem_camelFrom)

/-! ### Mentions -/

/-- A hash with an id and a colon right behind it: the id, and what stands right behind the colon,
up to the next blank. -/
structure Mention where
  element : List Char
  behind : List Char
deriving DecidableEq, Repr

namespace Mention

/-- The mention that starts with a character, if one does; `run` is what stands right behind it. -/
def ofRun? (c : Char) (run : List Char) : Option Mention :=
  if c = '#' ∧ Reference.idLength run ≠ 0 then
    some ⟨run.take (Reference.idLength run), run.drop (Reference.idLength run + 1)⟩
  else none

/-- Whether a letter stands behind the colon. -/
def isNamed (m : Mention) : Bool := m.behind.head?.any isLetter

theorem ofRun?_of_ne {c : Char} (hc : c ≠ '#') (run : List Char) : ofRun? c run = none :=
  if_neg fun h => hc h.1

theorem ofRun?_of_idLength_eq_zero {run : List Char} (h : Reference.idLength run = 0) (c : Char) :
    ofRun? c run = none := if_neg fun hne => hne.2 h

/-- **A hash, an id and a colon** make a mention. -/
theorem ofRun?_id {id : List Char} (hne : id ≠ []) (hid : ∀ c ∈ id, isNameChar c = true)
    (tail : List Char) : ofRun? '#' (id ++ ':' :: tail) = some ⟨id, tail⟩ := by
  have hlength := Reference.idLength_append_colon hid tail
  -- The colon comes right behind the id, so one character more is dropped.
  have hpos : id.length ≠ 0 := fun h => hne (List.length_eq_zero_iff.mp h)
  rw [ofRun?, if_pos ⟨rfl, by rw [hlength]; exact hpos⟩, hlength, List.take_left,
    ← List.drop_drop, List.drop_left]
  rfl

end Mention

/-- **The mentions of a text**, place by place. -/
def mentions : List Char → List Mention
  | [] => []
  | c :: rest => (Mention.ofRun? c (rest.takeWhile isSolid)).toList ++ mentions rest

/-- A mention is an occurrence of a hash, a run of name characters that is not empty and a colon. -/
theorem mem_mentions_iff {text : List Char} {m : Mention} :
    m ∈ mentions text ↔ m.element ≠ [] ∧ (∀ c ∈ m.element, isNameChar c = true) ∧
      ∃ front rest, text = front ++ '#' :: (m.element ++ ':' :: rest) ∧
        m.behind = rest.takeWhile isSolid := by
  induction text with
  | nil => simp [mentions]
  | cons c rest ih =>
    rw [mentions, List.mem_append, Option.mem_toList, ih]
    constructor
    · rintro (hfirst | ⟨hne, hid, front, behind, hrest, hbehind⟩)
      · -- It starts here.
        by_cases hc : c = '#'
        · subst hc
          by_cases hzero : Reference.idLength rest = 0
          · rw [← Reference.idLength_takeWhile_isSolid] at hzero
            rw [Mention.ofRun?_of_idLength_eq_zero hzero] at hfirst
            exact absurd hfirst (Option.not_mem_none m)
          · obtain ⟨id, tail, rfl, -, hne, hid⟩ := Reference.exists_of_idLength_ne_zero hzero
            rw [Reference.takeWhile_isSolid_id hid, Mention.ofRun?_id hne hid] at hfirst
            obtain rfl := Option.some.inj hfirst
            exact ⟨hne, hid, [], tail, rfl, rfl⟩
        · rw [Mention.ofRun?_of_ne hc] at hfirst
          exact absurd hfirst (Option.not_mem_none m)
      · exact ⟨hne, hid, c :: front, behind, by rw [hrest]; rfl, hbehind⟩
    · rintro ⟨hne, hid, front, behind, htext, hbehind⟩
      -- It is the first character that the mention starts with, or the mention is one of the rest.
      cases front with
      | nil =>
        obtain ⟨rfl, rfl⟩ := List.cons.inj htext
        left
        rw [Reference.takeWhile_isSolid_id hid, Mention.ofRun?_id hne hid, ← hbehind]
      | cons d front =>
        obtain ⟨rfl, hrest⟩ := List.cons.inj htext
        exact .inr ⟨hne, hid, front, behind, hrest, hbehind⟩

/-- A mention of a part of a text is one of the text, where more may stand behind it. -/
theorem exists_mention_of_infix {part text : List Char} (h : part <:+: text) {m : Mention}
    (hm : m ∈ mentions part) :
    ∃ m' ∈ mentions text, m'.element = m.element ∧ m.behind <+: m'.behind := by
  obtain ⟨hne, hid, front, rest, hpart, hbehind⟩ := mem_mentions_iff.mp hm
  obtain ⟨left, right, htext⟩ := h
  refine ⟨⟨m.element, (rest ++ right).takeWhile isSolid⟩,
    mem_mentions_iff.mpr ⟨hne, hid, left ++ front, rest ++ right, ?_, rfl⟩, rfl, ?_⟩
  · rw [← htext, hpart]
    simp
  · -- More stands behind it if its run goes on to the end of the part.
    rw [hbehind, List.takeWhile_append]
    split
    · exact (List.takeWhile_prefix _).trans (List.prefix_append _ _)
    · exact List.prefix_refl _

/-! ### The property of a mention -/

/-- Letters, and hyphens between two letters, as far as they go; `before` is the character right
before. -/
def hyphenated : (before : Option Char) → List Char → List Char
  | _, [] => []
  | before, c :: rest =>
    if isLetter c ∨ (c = '-' ∧ before.any isLetter ∧ rest.head?.any isLetter) then
      c :: hyphenated (some c) rest
    else []

namespace Mention

/-- **The property that a mention names**: in a call all letters and hyphens behind the colon, and
elsewhere the hyphens between two letters only. -/
def property (m : Mention) (inCall : Bool) : List Char :=
  if inCall then m.behind.takeWhile isPropertyChar else hyphenated (some ':') m.behind

/-- The reference that a mention makes, if it names a property. -/
def reference? (m : Mention) (inCall : Bool) : Option Reference :=
  if m.property inCall = [] then none
  else some ⟨String.ofList m.element, String.ofList (m.property inCall)⟩

end Mention

namespace Value

/-- The mentions of a text from a context on, each with whether it stands in a call. -/
def placedFrom : Context → List Char → List (Mention × Bool)
  | _, [] => []
  | x, c :: rest =>
    ((Mention.ofRun? c (rest.takeWhile isSolid)).map (·, x.calls.any id)).toList
      ++ placedFrom (x.next c rest) rest

/-- **The mentions of an expression**, each with whether it stands in a call. -/
def placedMentions (expression : List Char) : List (Mention × Bool) :=
  placedFrom Context.start expression

/-- Without their places, these are the mentions of the text. -/
theorem map_fst_placedFrom (x : Context) (text : List Char) :
    (placedFrom x text).map Prod.fst = mentions text := by
  induction text generalizing x with
  | nil => rfl
  | cons c rest ih =>
    rw [placedFrom, List.map_append, ih, mentions]
    cases Mention.ofRun? c (rest.takeWhile isSolid) <;> rfl

/-- The mentions among glyphs. -/
def glyphPlacedFrom : Context → List Glyph → List (Mention × Bool)
  | _, [] => []
  | x, g :: gs =>
    ((Mention.ofRun? g.char (joined gs)).map (·, x.calls.any id)).toList
      ++ glyphPlacedFrom (x.glyphNext g gs) gs

/-- The mentions among the glyphs of a text do not depend on what stands before the text. -/
theorem glyphPlacedFrom_glyphs (x : Context) (before : Option Char) (text : List Char) :
    glyphPlacedFrom { x with before := before } (glyphs text)
      = glyphPlacedFrom x (glyphs text) := by
  cases h : glyphs text with
  | nil => rfl
  | cons g gs =>
    rw [glyphPlacedFrom, glyphPlacedFrom, Context.glyphNext, Context.enter_of_glyphs h]
    rfl

/-- **The mentions of a text are those of its glyphs**, in the same places. -/
theorem placedFrom_eq_glyphPlacedFrom {x : Context} {text : List Char} (h : x.Fits text) :
    placedFrom x text = glyphPlacedFrom x (glyphsFrom (x.before.all isBlank) text) := by
  induction text generalizing x with
  | nil => rfl
  | cons c rest ih =>
    have hlater := ih h.next
    -- No mention starts at a blank, which changes nothing but the neighbour.
    cases hc : isBlank c with
    | true =>
      rw [placedFrom, Mention.ofRun?_of_ne (ne_of_test hc (by decide)), hlater,
        Context.next_of_isBlank hc h, glyphsFrom_cons_blank hc]
      simp only [Option.all_some, hc]
      exact glyphPlacedFrom_glyphs x (some c) rest
    | false =>
      have hapart : (x.next c rest).before.all isBlank = false := hc
      rw [placedFrom, hlater, hapart, glyphsFrom_cons_solid hc, glyphPlacedFrom,
        joined_glyphsFrom, Context.glyphNext_eq_next]

/-! ### Properties and operators -/

/-- A property ends at any other character, kept or not. -/
theorem takeWhile_kept_of_not {c : Char} (hc : isPropertyChar c = false) (x : Context)
    (rest : List Char) : (kept x (c :: rest)).takeWhile isPropertyChar = [] := by
  rw [kept_cons]
  split
  · rfl
  · exact List.takeWhile_cons_of_neg (Bool.eq_false_iff.mp hc)

/-- A letter or hyphen opens and closes no parentheses. -/
theorem callsAfter_of_isPropertyChar (x : Context) {c : Char} (hc : isPropertyChar c = true) :
    x.callsAfter c = x.calls :=
  x.callsAfter_of_ne (ne_of_test hc (by decide)) (ne_of_test hc (by decide))

/-- **In a call a property is kept whole**, since nothing is spaced there. -/
theorem takeWhile_kept_of_inCall {x : Context} (h : x.calls.any id = true) (text : List Char) :
    (kept x text).takeWhile isPropertyChar = text.takeWhile isPropertyChar := by
  induction text generalizing x with
  | nil => rfl
  | cons c rest ih =>
    cases hc : isPropertyChar c with
    | false =>
      rw [takeWhile_kept_of_not hc, List.takeWhile_cons_of_neg (Bool.eq_false_iff.mp hc)]
    | true =>
      -- It is still in the call, so it is no operator.
      have hcall : (x.site c rest).inCall = true := by
        show (x.callsAfter c).any id = true
        rw [callsAfter_of_isPropertyChar x hc, h]
      have hnot : (x.site c rest).operates = false := by
        simp [Site.operates, Site.calculates, hcall]
      have hnext : (x.next c rest).calls.any id = true := hcall
      rw [kept_cons, hnot, if_neg Bool.false_ne_true, List.takeWhile_cons_of_pos hc,
        List.takeWhile_cons_of_pos hc, ih hnext]

/-- A context in the middle of a word, in no call and in no id. -/
structure Context.InWord (x : Context) : Prop where
  calls : x.calls.any id = false
  idLeft : x.idLeft = 0
  anchor : x.anchor = x.before

namespace Context.InWord

variable {x : Context}

/-- Behind a letter or hyphen the word goes on. -/
theorem next (h : x.InWord) {c : Char} (hc : isPropertyChar c = true) (rest : List Char) :
    (x.next c rest).InWord where
  calls := by
    show (x.callsAfter c).any id = false
    rw [callsAfter_of_isPropertyChar x hc, h.calls]
  idLeft := by
    have hhash : c ≠ '#' := ne_of_test hc (by decide)
    show x.idLeftAfter c rest = 0
    rw [Context.idLeftAfter, if_neg fun hboth => hhash hboth.2, h.idLeft]
  anchor := by
    show (if isBlank c then x.anchor else some c) = some c
    rw [Reference.isBlank_of_isPropertyChar hc]
    rfl

/-- A minus behind a letter is no sign. -/
theorem isSign_of_letter (h : x.InWord) {c : Char} (hx : x.before = some c)
    (hc : isLetter c = true) (rest : List Char) : (x.site '-' rest).isSign = false := by
  -- The last character that is not blank is the letter right before.
  have hanchor : (x.site '-' rest).anchor = some c := h.anchor.trans hx
  have hne : ∀ d, isLetter d = false → c ≠ d := fun d hd => ne_of_test hc hd
  simp [Site.isSign, hanchor, hne '+' (by decide), hne '-' (by decide), hne '*' (by decide),
    hne '/' (by decide), hne '(' (by decide), hne ',' (by decide), hne '#' (by decide)]

/-- In a word a hyphen that is no sign is an operator unless it joins two letters. -/
theorem operates_hyphen (h : x.InWord) {rest : List Char}
    (hsign : (x.site '-' rest).isSign = false) :
    (x.site '-' rest).operates = !(x.before.any isLetter && rest.head?.any isLetter) := by
  have hchar : (x.site '-' rest).char = '-' := rfl
  -- Neither an id nor a call is in the way, so only the neighbours decide.
  have hcovered : (x.site '-' rest).covered = false := by simp [Context.site, h.idLeft]
  have hcall : (x.site '-' rest).inCall = false := h.calls
  have hjoins : (x.site '-' rest).joinsLetters
      = (x.before.any isLetter && rest.head?.any isLetter) := rfl
  simp [Site.operates, Site.calculates, Site.isOperator, hsign, hcovered, hcall, hchar, hjoins]

end Context.InWord

/-- Outside calls a run of letters and hyphens ends at the first hyphen that is an operator: the
first one that does not stand between two letters. -/
theorem takeWhile_kept {x : Context} {text : List Char} (hx : x.InWord)
    (hsign : (x.site '-' []).isSign = true → text.head?.any isLetter = true) :
    (kept x text).takeWhile isPropertyChar = hyphenated x.before text := by
  induction text generalizing x with
  | nil => rfl
  | cons c rest ih =>
    rw [hyphenated]
    by_cases hletter : isLetter c = true
    · -- A letter is kept, and a hyphen behind it is no sign.
      have hc : isPropertyChar c = true := by
        have halpha : c.isAlpha = true := hletter
        simp [isPropertyChar, halpha]
      have hnext := hx.next hc rest
      have hunsigned : ((x.next c rest).site '-' []).isSign = false :=
        hnext.isSign_of_letter rfl hletter []
      have hkept : c ≠ '+' ∧ c ≠ '-' :=
        ⟨ne_of_test hletter (by decide), ne_of_test hletter (by decide)⟩
      rw [if_pos (.inl hletter), kept_cons_of_not (.inr hkept), List.takeWhile_cons_of_pos hc,
        ih hnext fun h => absurd (hunsigned.symm.trans h) Bool.false_ne_true]
      rfl
    · by_cases hhyphen : c = '-'
      · -- A hyphen is kept just if it joins two letters.
        subst hhyphen
        have hunsigned : (x.site '-' rest).isSign = false := by
          by_contra h
          exact absurd (hsign (Bool.not_eq_false _ ▸ h)) hletter
        have hoperates := hx.operates_hyphen hunsigned
        by_cases hboth : x.before.any isLetter = true ∧ rest.head?.any isLetter = true
        · rw [if_pos (.inr ⟨rfl, hboth⟩), kept_cons, hoperates, hboth.1, hboth.2,
            if_neg (by simp), List.takeWhile_cons_of_pos (by decide),
            ih (hx.next (by decide) rest) fun _ => hboth.2]
          rfl
        · have hnot : (x.before.any isLetter && rest.head?.any isLetter) = false := by
            rw [← Bool.not_eq_true, Bool.and_eq_true]
            exact hboth
          rw [if_neg (by simpa [hletter] using hboth), kept_cons, hoperates, hnot]
          rfl
      · have hc : isPropertyChar c = false := by
          have halpha : ¬ c.isAlpha = true := hletter
          simp [isPropertyChar, halpha, hhyphen]
        rw [if_neg (by simp [hletter, hhyphen]), takeWhile_kept_of_not hc]

/-- **What is read behind a hash** after one pass of spacing is what the mention there names. -/
theorem read_kept {x : Context} {run : List Char} (h : x.idLeft = Reference.idLength run) :
    (Reference.read ('#' :: kept x run)).map Prod.fst
      = (Mention.ofRun? '#' run).bind (·.reference? (x.calls.any id)) := by
  by_cases hzero : Reference.idLength run = 0
  · rw [Reference.read_of_idLength_eq_zero (by rw [idLength_kept h, hzero]),
      Mention.ofRun?_of_idLength_eq_zero hzero]
    rfl
  · obtain ⟨name, tail, rfl, hlength, hne, hname⟩ := Reference.exists_of_idLength_ne_zero hzero
    have hproperty : (kept x.behindColon tail).takeWhile isPropertyChar
        = Mention.property ⟨name, tail⟩ (x.calls.any id) := by
      cases hcalls : x.calls.any id with
      | true => exact takeWhile_kept_of_inCall (x := x.behindColon) hcalls tail
      | false =>
        -- Right behind a colon a minus is no sign, so it ends the property there.
        have hunsigned : (x.behindColon.site '-' []).isSign = false := by
          simp [Site.isSign, Context.site, Context.behindColon]
        exact takeWhile_kept (x := x.behindColon) ⟨hcalls, rfl, rfl⟩
          fun h => absurd (hunsigned.symm.trans h) Bool.false_ne_true
    rw [kept_id hname (h.trans hlength.symm), Reference.read_id hne hname, hproperty,
      Mention.ofRun?_id hne hname]
    rfl

/-- The id that a context is in does not go on behind a glyph that stands apart. -/
theorem Context.Fits.enter {x : Context} {g : Glyph} {gs : List Glyph}
    (h : x.Fits (joined (g :: gs))) : (x.enter g).Fits (g.char :: joined gs) := by
  cases hg : g.apart with
  | true =>
    rw [joined_cons_apart hg] at h
    exact .inl (h.elim id fun hlength => hlength)
  | false =>
    rw [joined_cons_close hg] at h
    exact h

/-- **The references that are left to read** after one pass are those of the mentions. -/
theorem glyphReadings_respaceFrom {x : Context} {gs : List Glyph} (h : x.Fits (joined gs))
    (behind : Bool) :
    Reference.glyphReadings (respaceFrom x behind gs)
      = (glyphPlacedFrom x gs).filterMap fun p => p.1.reference? p.2 := by
  induction gs generalizing x behind with
  | nil => rfl
  | cons g gs ih =>
    have henter := h.enter
    rw [respaceFrom, Reference.glyphReadings, glyphPlacedFrom, List.filterMap_append,
      ih (x := x.glyphNext g gs) henter.next]
    -- Only a hash can start a mention or a reference; the rest is the induction hypothesis.
    congr 1
    by_cases hc : g.char = '#'
    · have hleft : x.idLeft = 0 := henter.idLeft_eq_zero (by rw [hc]; decide)
      have hnext := Context.idLeft_glyphNext_hash hleft hc gs
      have hcalls : (x.glyphNext g gs).calls = x.calls := by
        show (x.enter g).callsAfter g.char = x.calls
        rw [hc]
        rfl
      -- A hash gets no spaces, so what is read behind it is what is kept.
      rw [x.operates_glyphSite_hash hc gs, joined_respaceFrom, hc, read_kept hnext, hcalls]
      cases Mention.ofRun? '#' (joined gs) with
      | none => rfl
      | some m => cases m.reference? (x.calls.any id) <;> rfl
    · rw [Reference.read_of_ne hc, Mention.ofRun?_of_ne hc]
      rfl

/-- **The references of a calculation**, read off its expression before it is spaced. -/
theorem references_eq (text : List Char) :
    (ofExpression text).references
      = (placedMentions (expression text)).filterMap fun p => p.1.reference? p.2 := by
  have hglyphs : placedMentions (expression text)
      = glyphPlacedFrom Context.start (glyphs (expression text)) :=
    placedFrom_eq_glyphPlacedFrom (x := Context.start) (.inl rfl)
  rw [hglyphs, references_eq_glyphReadings]
  exact glyphReadings_respaceFrom (.inl rfl) false

/-! ### Names that start and end with a letter -/

end Value

end UtilityCss
