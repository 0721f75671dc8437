import UtilityCss.Proofs.Scanning

/-!
# A text up to its blanks

Which blanks a text holds, and how many of them in a row, is lost when it is collapsed. What is left
is a list of *glyphs*: the characters that are not blank, each with whether it stands `apart` from
the one before it. A question about a text that only looks at neighbours can be asked of its glyphs,
and spacing a text out means to set some glyphs apart, which changes no position.

* `glyphs_collapse` — collapsing keeps the glyphs, and `collapse_eq` — it keeps nothing else;
* `joined_glyphsFrom` — what a reader sees up to the next blank;
* `collapse_eq_squeeze_trim` — collapsing is trimming and one space for every run of blanks.
-/

namespace UtilityCss.Text

/-- Whether a character is not blank. -/
def isSolid (c : Char) : Bool := !isBlank c

/-- A character that is not blank. It stands `apart` if there is a blank right before it, or
nothing at all. -/
structure Glyph where
  char : Char
  apart : Bool
deriving DecidableEq, Repr

/-- The glyphs of a text; `apart` says whether a first character that is not blank stands apart. -/
def glyphsFrom (apart : Bool) : List Char → List Glyph
  | [] => []
  | c :: rest =>
    if isBlank c then glyphsFrom true rest else ⟨c, apart⟩ :: glyphsFrom false rest

/-- **The glyphs of a text.** -/
def glyphs (text : List Char) : List Glyph := glyphsFrom true text

/-- A blank has no glyph, and it sets the next one apart. -/
theorem glyphsFrom_cons_blank {c : Char} (hc : isBlank c = true) (apart : Bool)
    (rest : List Char) : glyphsFrom apart (c :: rest) = glyphsFrom true rest := by
  rw [glyphsFrom, if_pos hc]

/-- A character that is not blank is a glyph. -/
theorem glyphsFrom_cons_solid {c : Char} (hc : isBlank c = false) (apart : Bool)
    (rest : List Char) : glyphsFrom apart (c :: rest) = ⟨c, apart⟩ :: glyphsFrom false rest := by
  rw [glyphsFrom, if_neg (Bool.eq_false_iff.mp hc)]

/-- The characters of the glyphs are those of the text that are not blank. -/
theorem map_char_glyphsFrom (apart : Bool) (text : List Char) :
    (glyphsFrom apart text).map Glyph.char = text.filter isSolid := by
  induction text generalizing apart with
  | nil => rfl
  | cons c rest ih =>
    cases hc : isBlank c with
    | true =>
      rw [glyphsFrom_cons_blank hc, List.filter_cons_of_neg (by simp [isSolid, hc]), ih]
    | false =>
      rw [glyphsFrom_cons_solid hc, List.filter_cons_of_pos (by simp [isSolid, hc]),
        List.map_cons, ih]

/-- No glyph is blank. -/
theorem isBlank_of_mem_glyphsFrom {apart : Bool} {text : List Char} {g : Glyph}
    (h : g ∈ glyphsFrom apart text) : isBlank g.char = false := by
  -- The character of a glyph is one of those that are not blank.
  have hmem : g.char ∈ text.filter isSolid := by
    rw [← map_char_glyphsFrom apart]
    exact List.mem_map_of_mem h
  simpa [isSolid] using (List.mem_filter.mp hmem).2

/-- The first glyph of a text stands apart. -/
theorem apart_of_glyphs_eq_cons {text : List Char} {g : Glyph} {gs : List Glyph}
    (h : glyphs text = g :: gs) : g.apart = true := by
  induction text with
  | nil => exact absurd h (by simp [glyphs, glyphsFrom])
  | cons c rest ih =>
    cases hc : isBlank c with
    -- Blanks in front are passed over, and the text behind them starts apart as well.
    | true => exact ih (by rwa [glyphs, glyphsFrom_cons_blank hc] at h)
    | false =>
      rw [glyphs, glyphsFrom_cons_solid hc] at h
      rw [← (List.cons.inj h).1]

/-- Blanks in front of a text have no glyphs. -/
theorem glyphs_trimStart (text : List Char) : glyphs (trimStart text) = glyphs text := by
  induction text with
  | nil => rfl
  | cons c rest ih =>
    cases hc : isBlank c with
    | true =>
      rw [trimStart, List.dropWhile_cons_of_pos hc, glyphs, glyphs, glyphsFrom_cons_blank hc]
      exact ih
    | false => rw [trimStart, List.dropWhile_cons_of_neg (Bool.eq_false_iff.mp hc)]

/-- Blanks behind a text have no glyphs. -/
theorem glyphsFrom_append_blanks {blanks : List Char} (h : ∀ c ∈ blanks, isBlank c = true)
    (apart : Bool) (text : List Char) :
    glyphsFrom apart (text ++ blanks) = glyphsFrom apart text := by
  induction text generalizing apart with
  | nil =>
    induction blanks generalizing apart with
    | nil => rfl
    | cons b blanks ih =>
      obtain ⟨hb, hblanks⟩ := List.forall_mem_cons.mp h
      rw [List.nil_append, glyphsFrom_cons_blank hb]
      exact ih hblanks true
  | cons c rest ih =>
    cases hc : isBlank c with
    | true => rw [List.cons_append, glyphsFrom_cons_blank hc, glyphsFrom_cons_blank hc, ih]
    | false => rw [List.cons_append, glyphsFrom_cons_solid hc, glyphsFrom_cons_solid hc, ih]

/-- Trimming keeps the glyphs. -/
theorem glyphs_trim (text : List Char) : glyphs (trim text) = glyphs text := by
  have hend : ∀ s : List Char, glyphs (trimEnd s) = glyphs s := by
    intro s
    -- What is trimmed off the end are blanks.
    have hsplit : trimEnd s ++ s.rtakeWhile isBlank = s := List.rdropWhile_append_rtakeWhile ..
    conv_rhs => rw [← hsplit]
    exact (glyphsFrom_append_blanks (fun c hc => List.mem_rtakeWhile_imp hc) _ _).symm
  rw [trim, hend, glyphs_trimStart]

/-! ### Writing glyphs -/

/-- A glyph with a space before it if it stands apart. -/
def Glyph.text (g : Glyph) : List Char := if g.apart then [' ', g.char] else [g.char]

/-- The text of glyphs, with a space before each one that stands apart. -/
def spread (gs : List Glyph) : List Char := gs.flatMap Glyph.text

theorem spread_cons (g : Glyph) (gs : List Glyph) : spread (g :: gs) = g.text ++ spread gs :=
  List.flatMap_cons

/-- Glyphs are read back from what they are written as. -/
theorem glyphsFrom_spread {gs : List Glyph} (h : ∀ g ∈ gs, isBlank g.char = false) :
    glyphsFrom false (spread gs) = gs := by
  induction gs with
  | nil => rfl
  | cons g gs ih =>
    obtain ⟨hg, hgs⟩ := List.forall_mem_cons.mp h
    obtain ⟨c, apart⟩ := g
    -- The space that is written before a glyph is what sets it apart when it is read.
    cases apart with
    | true =>
      show glyphsFrom false (' ' :: c :: spread gs) = _
      rw [glyphsFrom_cons_blank (by decide), glyphsFrom_cons_solid hg, ih hgs]
    | false =>
      show glyphsFrom false (c :: spread gs) = _
      rw [glyphsFrom_cons_solid hg, ih hgs]

/-- A space before every word. -/
theorem spread_glyphsFrom (text : List Char) :
    spread (glyphsFrom true text) = (words text).flatMap (' ' :: ·) ∧
      ∃ first others, cutAt isBlank text = first :: others ∧
        spread (glyphsFrom false text)
          = first ++ (others.filter fun word => !word.isEmpty).flatMap (' ' :: ·) := by
  -- The second part carries the induction: behind a character the first word is still open.
  induction text with
  | nil => exact ⟨rfl, [], [], rfl, rfl⟩
  | cons c rest ih =>
    obtain ⟨hwords, first, others, hcut, hspread⟩ := ih
    cases hc : isBlank c with
    | true =>
      have hcons : cutAt isBlank (c :: rest) = [] :: cutAt isBlank rest := by
        rw [cutAt_cons, if_pos hc]
      rw [glyphsFrom_cons_blank hc, glyphsFrom_cons_blank hc]
      refine ⟨?_, [], _, hcons, hwords⟩
      rw [hwords, words, words, hcons, List.filter_cons_of_neg (by simp)]
    | false =>
      -- The character goes on with the first word of the rest, if that starts right behind it.
      have hcons : cutAt isBlank (c :: rest) = (c :: first) :: others := by
        rw [cutAt_cons, if_neg (Bool.eq_false_iff.mp hc), hcut]
        rfl
      rw [glyphsFrom_cons_solid hc, glyphsFrom_cons_solid hc, spread_cons, spread_cons, hspread]
      refine ⟨?_, c :: first, others, hcons, rfl⟩
      rw [words, hcons, List.filter_cons_of_pos (by simp), List.flatMap_cons]
      rfl

/-- A space between texts is one before each of them but the first. -/
theorem intercalate_eq_drop (texts : List (List Char)) :
    [' '].intercalate texts = (texts.flatMap (' ' :: ·)).drop 1 := by
  induction texts with
  | nil => rfl
  | cons t texts ih =>
    cases texts with
    | nil => simp
    | cons u texts =>
      rw [List.intercalate_cons_cons, ih]
      simp

/-- **A collapsed text is its glyphs**, with one space before each one that stands apart but the
first. -/
theorem collapse_eq (text : List Char) : collapse text = (spread (glyphs text)).drop 1 := by
  rw [collapse, intercalate_eq_drop, glyphs, (spread_glyphsFrom text).1]

/-- Only the space before the first glyph is dropped. -/
theorem glyphs_drop_spread {gs : List Glyph} (hchars : ∀ g ∈ gs, isBlank g.char = false)
    (hfirst : ∀ g ∈ gs.head?, g.apart = true) : glyphs ((spread gs).drop 1) = gs := by
  cases gs with
  | nil => rfl
  | cons g gs =>
    obtain ⟨hg, hgs⟩ := List.forall_mem_cons.mp hchars
    obtain ⟨c, apart⟩ := g
    -- The first glyph is read apart without its space, since nothing comes before it.
    obtain rfl : apart = true := hfirst _ rfl
    show glyphsFrom true (c :: spread gs) = _
    rw [glyphsFrom_cons_solid hg, glyphsFrom_spread hgs]

/-- **Collapsing keeps the glyphs.** -/
theorem glyphs_collapse (text : List Char) : glyphs (collapse text) = glyphs text := by
  rw [collapse_eq]
  refine glyphs_drop_spread (fun g hg => isBlank_of_mem_glyphsFrom hg) fun g hg => ?_
  obtain ⟨gs, hgs⟩ := List.head?_eq_some_iff.mp hg
  exact apart_of_glyphs_eq_cons hgs

/-- The only blank of a collapsed text is the plain space. -/
theorem eq_space_of_mem_collapse {text : List Char} {c : Char} (h : c ∈ collapse text)
    (hc : isBlank c = true) : c = ' ' := by
  rw [collapse_eq] at h
  obtain ⟨g, hg, hmem⟩ := List.mem_flatMap.mp (List.mem_of_mem_drop h)
  have hne : c ≠ g.char := ne_of_test hc (isBlank_of_mem_glyphsFrom hg)
  -- A character of a collapsed text is a glyph or the space before one.
  unfold Glyph.text at hmem
  split at hmem
  · simpa [hne] using hmem
  · exact absurd (List.mem_singleton.mp hmem) hne

/-- **Collapsing twice is collapsing once.** -/
theorem collapse_collapse (text : List Char) : collapse (collapse text) = collapse text := by
  rw [collapse_eq, glyphs_collapse, ← collapse_eq]

/-! ### What is joined -/

/-- The characters of glyphs up to the first one that stands apart. -/
def joined (gs : List Glyph) : List Char := (gs.takeWhile fun g => !g.apart).map Glyph.char

/-- Nothing is joined to a glyph that stands apart. -/
theorem joined_cons_apart {g : Glyph} (h : g.apart = true) (gs : List Glyph) :
    joined (g :: gs) = [] := by
  rw [joined, List.takeWhile_cons_of_neg (by simp [h])]
  rfl

/-- What is joined starts with the first glyph, if it is joined itself. -/
theorem joined_cons_close {g : Glyph} (h : g.apart = false) (gs : List Glyph) :
    joined (g :: gs) = g.char :: joined gs := by
  rw [joined, List.takeWhile_cons_of_pos (by simp [h])]
  rfl

/-- The first glyph of a text stands apart. -/
theorem joined_glyphs (text : List Char) : joined (glyphs text) = [] := by
  cases h : glyphs text with
  | nil => rfl
  | cons g gs => exact joined_cons_apart (apart_of_glyphs_eq_cons h) gs

/-- Behind a character, what is joined is what stands before the next blank. -/
theorem joined_glyphsFrom (text : List Char) :
    joined (glyphsFrom false text) = text.takeWhile isSolid := by
  induction text with
  | nil => rfl
  | cons c rest ih =>
    cases hc : isBlank c with
    -- Behind the blank the next glyph stands apart.
    | true =>
      rw [glyphsFrom_cons_blank hc, List.takeWhile_cons_of_neg (by simp [isSolid, hc])]
      exact joined_glyphs rest
    | false =>
      rw [glyphsFrom_cons_solid hc, joined_cons_close rfl, ih,
        List.takeWhile_cons_of_pos (by simp [isSolid, hc])]

/-- A run of characters that are not blank ends before the next blank. -/
theorem takeWhile_takeWhile_isSolid {test : Char → Bool}
    (h : ∀ c, test c = true → isBlank c = false) (text : List Char) :
    (text.takeWhile isSolid).takeWhile test = text.takeWhile test := by
  rw [List.takeWhile_takeWhile]
  congr 1
  funext c
  cases hc : test c with
  | false => simp
  | true => simp [isSolid, h c hc]

/-! ### Runs of blanks -/

/-- A text with one plain space for every run of blanks. -/
def squeeze : List Char → List Char
  | [] => []
  | c :: rest =>
    if isBlank c then
      if rest.head?.any isBlank then squeeze rest else ' ' :: squeeze rest
    else c :: squeeze rest

/-- Squeezing writes the glyphs, if the text does not end in a blank. -/
theorem squeeze_eq_spread {text : List Char} (h : ∀ c ∈ text.getLast?, isBlank c = false) :
    squeeze text = spread (glyphsFrom false text) := by
  induction text with
  | nil => rfl
  | cons c rest ih =>
    cases hrest : rest with
    | nil =>
      -- The last character is not blank, so no blank is dropped here.
      have hc : isBlank c = false := h c (by simp [hrest])
      simp [squeeze, hc, glyphsFrom, spread, Glyph.text]
    | cons d rest' =>
      rw [hrest] at h ih
      have hlater := ih (by simpa using h)
      cases hc : isBlank c with
      | false =>
        rw [squeeze, if_neg (by simp [hc]), glyphsFrom_cons_solid hc, spread_cons, hlater]
        rfl
      | true =>
        -- A blank counts if the next character is none, which it then sets apart.
        rw [squeeze, if_pos hc, glyphsFrom_cons_blank hc, hlater]
        cases hd : isBlank d with
        | true =>
          -- Another blank follows, so this one is not written.
          rw [if_pos (by simpa using hd), glyphsFrom_cons_blank hd, glyphsFrom_cons_blank hd]
        | false =>
          rw [if_neg (by simp [hd]), glyphsFrom_cons_solid hd, glyphsFrom_cons_solid hd,
            spread_cons, spread_cons]
          rfl

/-- **Collapsing is squeezing** a text that is trimmed. -/
theorem collapse_eq_squeeze_trim (text : List Char) : collapse text = squeeze (trim text) := by
  rw [squeeze_eq_spread (not_isBlank_getLast_trim text), collapse_eq, ← glyphs_trim]
  -- A trimmed text starts with its first glyph, so the two only differ in the space before it.
  cases htrim : trim text with
  | nil => rfl
  | cons c rest =>
    have hc : isBlank c = false := not_isBlank_head_trim text c (by rw [htrim]; rfl)
    rw [glyphs, glyphsFrom_cons_solid hc, glyphsFrom_cons_solid hc, spread_cons, spread_cons]
    rfl

end UtilityCss.Text
