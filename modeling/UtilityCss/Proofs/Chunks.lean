import UtilityCss.Markup.Chunk
import UtilityCss.Proofs.Scanning

/-!
# Splitting undoes writing

A class attribute is a list of items: utility tokens, whose value stands in brackets or between
pipes and may hold blanks, and plain class names. This file shows that an attribute which was
written item by item is split into the same items again.

The splitter keeps a bracket depth and a count of pipes, and it cuts at a blank only if nothing is
open. `Text.Uncut` says of a text that it is read from one state to another without a cut, for any
splitter that is an instance of `Text.cut`; it is put together from shorter texts (`Uncut.append`),
and it is what a piece of a cut text is (`Uncut.cut_append_cons`). So the argument is about states:

* `Nesting.reads_of_balanced` — a text with balanced brackets is read from a state back to the same
  state, if something is open around it. Inside brackets this holds of any such text. Between pipes
  it holds of texts without a pipe;
* `WrittenToken.isChunk`, `PlainName.isChunk` — an item is read from the start of a chunk to a state
  in which nothing is open, so the next blank ends it;
* `tokens_write` — therefore the tokens of a written attribute are those that were written.
-/

namespace UtilityCss

open UtilityCss.Text

namespace Text

/-! ### Texts that are not cut -/

section Uncut

variable {σ : Type} (separates : σ → Char → Bool) (next : σ → Char → σ)

/-- **A text that is not cut** when it is read from one state to another. -/
inductive Uncut : σ → List Char → σ → Prop
  /-- There is nothing to read. -/
  | nil {s : σ} : Uncut s [] s
  /-- The first character does not separate. -/
  | cons {s t : σ} {c : Char} {text : List Char} :
      separates s c = false → Uncut (next s c) text t → Uncut s (c :: text) t

variable {separates next} {s t u : σ} {text text' : List Char}

/-- Texts that are not cut, one after the other. -/
theorem Uncut.append (h : Uncut separates next s text t) (h' : Uncut separates next t text' u) :
    Uncut separates next s (text ++ text') u := by
  induction h with
  | nil => exact h'
  | cons hc _ ih => exact .cons hc (ih h')

/-- A text that is not cut is one piece. -/
theorem Uncut.cut_eq (h : Uncut separates next s text t) : cut separates next s text = [text] := by
  induction h with
  | nil => rfl
  | cons hc _ ih =>
    rw [cut, if_neg (Bool.eq_false_iff.mp hc), ih]
    rfl

/-- A text that is not cut is the first piece if a separator follows. -/
theorem Uncut.cut_append_cons (h : Uncut separates next s text t) {c : Char}
    (hc : separates t c = true) (rest : List Char) :
    cut separates next s (text ++ c :: rest) = text :: cut separates next (next t c) rest := by
  induction h with
  | nil => rw [List.nil_append, cut, if_pos hc]
  | cons hd _ ih =>
    rw [List.cons_append, cut, if_neg (Bool.eq_false_iff.mp hd), ih hc]
    rfl

end Uncut

/-! ### Balanced brackets -/

/-- **A text in which brackets are balanced**, for brackets of the given kinds. -/
inductive Balanced (pairs : List (Char × Char)) : List Char → Prop
  /-- An empty text. -/
  | nil : Balanced pairs []
  /-- A character that is no bracket. -/
  | plain {c : Char} {rest : List Char} :
      (∀ pair ∈ pairs, c ≠ pair.1 ∧ c ≠ pair.2) → Balanced pairs rest → Balanced pairs (c :: rest)
  /-- A text in a pair of brackets. -/
  | nested {opening closing : Char} {inner rest : List Char} :
      (opening, closing) ∈ pairs → Balanced pairs inner → Balanced pairs rest →
        Balanced pairs (opening :: (inner ++ closing :: rest))

/-- A text without blanks at its ends is not trimmed. -/
theorem trim_of_ends {text : List Char} (hfirst : ∀ c ∈ text.head?, isBlank c = false)
    (hlast : ∀ c ∈ text.getLast?, isBlank c = false) : trim text = text := by
  have hdrop : ∀ chars : List Char, (∀ c ∈ chars.head?, isBlank c = false) →
      chars.dropWhile isBlank = chars := by
    intro chars hchars
    cases chars with
    | nil => rfl
    | cons c rest => exact List.dropWhile_cons_of_neg (Bool.eq_false_iff.mp (hchars c rfl))
  have hstart : trimStart text = text := hdrop text hfirst
  -- Trimming the end is trimming the start of the reversed text.
  have hend : text.reverse.dropWhile isBlank = text.reverse := by
    apply hdrop
    rwa [List.head?_reverse]
  rw [trim, hstart, trimEnd, hend, List.reverse_reverse]

end Text

namespace Markup

/-! ### Reading brackets and pipes -/

namespace Nesting

/-- Reading a text from one state to another without ending the chunk. -/
abbrev Reads (n : Nesting) (text : List Char) (m : Nesting) : Prop :=
  Uncut separates next n text m

theorem reads_singleton {n : Nesting} {c : Char} (hc : n.separates c = false) :
    n.Reads [c] (n.next c) :=
  .cons hc .nil

/-- Nothing separates where a bracket or a pipe is open. -/
theorem separates_of_open {n : Nesting} (hn : n.depth ≠ 0 ∨ n.pipes % 2 = 1) (c : Char) :
    n.separates c = false := by
  -- One open thing is enough, a bracket or a pipe.
  have hclosed : n.isClosed = false := by
    rcases hn with hdepth | hpipes
    · simp [isClosed, hdepth]
    · simp [isClosed, hpipes]
  rw [separates, hclosed, Bool.and_false]

theorem separates_of_not_isBlank {c : Char} (hc : isBlank c = false) (n : Nesting) :
    n.separates c = false := by
  rw [separates, hc, Bool.false_and]

/-- An opening bracket raises the depth, between pipes too. -/
theorem next_opening (n : Nesting) : n.next '[' = ⟨n.depth + 1, n.pipes⟩ := by
  rw [next, separates_of_not_isBlank (by decide)]
  rfl

/-- A closing bracket lowers the depth. -/
theorem next_closing (n : Nesting) : n.next ']' = ⟨n.depth - 1, n.pipes⟩ := by
  rw [next, separates_of_not_isBlank (by decide)]
  rfl

/-- A pipe outside of brackets is counted. -/
theorem next_pipe {n : Nesting} (hn : n.depth = 0) : n.next '|' = ⟨n.depth, n.pipes + 1⟩ := by
  rw [next, separates_of_not_isBlank (by decide)]
  simp [hn]

/-- Other characters do not change the state, and neither does a pipe in brackets. -/
theorem next_of_ne {n : Nesting} {c : Char} (hc : n.separates c = false) (hopen : c ≠ '[')
    (hclose : c ≠ ']') (hpipe : c = '|' → n.depth ≠ 0) : n.next c = n := by
  have hnot : ¬ (c = '|' ∧ n.depth = 0) := fun h => hpipe h.1 h.2
  rw [next, hc, if_neg Bool.false_ne_true, if_neg hopen, if_neg hclose, if_neg hnot]

/-- Reading an opening bracket. -/
theorem reads_opening (n : Nesting) : n.Reads ['['] ⟨n.depth + 1, n.pipes⟩ := by
  rw [← next_opening]
  exact reads_singleton (separates_of_not_isBlank (by decide) n)

/-- Reading a closing bracket. -/
theorem reads_closing (d p : Nat) : Reads ⟨d + 1, p⟩ [']'] ⟨d, p⟩ := by
  have hnext : next ⟨d + 1, p⟩ ']' = ⟨d, p⟩ := next_closing _
  rw [← hnext]
  exact reads_singleton (separates_of_not_isBlank (by decide) _)

/-- Reading a pipe. -/
theorem reads_pipe (p : Nat) : Reads ⟨0, p⟩ ['|'] ⟨0, p + 1⟩ := by
  have hnext : next ⟨0, p⟩ '|' = ⟨0, p + 1⟩ := next_pipe rfl
  rw [← hnext]
  exact reads_singleton (separates_of_not_isBlank (by decide) _)

/-- A blank where nothing is open ends the chunk, and the next one starts afresh. -/
theorem next_of_separates {n : Nesting} {c : Char} (hc : n.separates c = true) :
    n.next c = start := by
  rw [next, if_pos hc]

/-- A blank separates where nothing is open. -/
theorem separates_of_isClosed {n : Nesting} (hn : n.isClosed = true) {c : Char}
    (hc : isBlank c = true) : n.separates c = true := by
  rw [separates, hn, hc, Bool.and_self]

end Nesting

/-- Whether a character is neither a blank nor a bracket nor a pipe. -/
def isPlain (c : Char) : Bool := !isBlank c && c != '[' && c != ']' && c != '|'

/-- A plain character is no blank. -/
theorem isBlank_of_isPlain {c : Char} (h : isPlain c = true) : isBlank c = false := by
  simp only [isPlain, Bool.and_eq_true, Bool.not_eq_true'] at h
  exact h.1.1.1

/-- The brackets that a chunk keeps together. -/
def squareBrackets : List (Char × Char) := [('[', ']')]

namespace Nesting

/-- **Balanced brackets lead back to the state before them**, if something is open: a bracket, or a
pipe that the text does not close. -/
theorem reads_of_balanced {content : List Char} (h : Balanced squareBrackets content)
    {n : Nesting} (hn : n.depth ≠ 0 ∨ n.pipes % 2 = 1 ∧ '|' ∉ content) : n.Reads content n := by
  induction h generalizing n with
  | nil => exact .nil
  | @plain c rest hc _ ih =>
    obtain ⟨hopening, hclosing⟩ := hc ('[', ']') (List.mem_singleton.mpr rfl)
    have hsep : n.separates c = false := separates_of_open (hn.imp_right And.left) c
    -- A pipe outside brackets would close the pair that the content stands in.
    have hpipe : c = '|' → n.depth ≠ 0 := by
      rintro rfl
      exact hn.resolve_right fun h => h.2 List.mem_cons_self
    have hrest : n.depth ≠ 0 ∨ n.pipes % 2 = 1 ∧ '|' ∉ rest :=
      hn.imp_right fun h => ⟨h.1, fun hmem => h.2 (List.mem_cons_of_mem c hmem)⟩
    refine .cons hsep ?_
    rw [next_of_ne hsep hopening hclosing hpipe]
    exact ih hrest
  | @nested opening closing inner rest hpair _ _ ihInner ihRest =>
    obtain ⟨rfl, rfl⟩ := Prod.mk.inj (List.mem_singleton.mp hpair)
    have hrest : n.depth ≠ 0 ∨ n.pipes % 2 = 1 ∧ '|' ∉ rest :=
      hn.imp_right fun h => ⟨h.1, fun hmem => h.2 (by simp [hmem])⟩
    -- The inner text is read one level deeper, where its pipes do not count.
    have hinner : Reads ⟨n.depth + 1, n.pipes⟩ inner ⟨n.depth + 1, n.pipes⟩ :=
      ihInner (.inl (Nat.succ_ne_zero _))
    have hclosed : Reads ⟨n.depth + 1, n.pipes⟩ (inner ++ [']']) n :=
      hinner.append (reads_closing n.depth n.pipes)
    have hall : n.Reads ((['['] ++ (inner ++ [']'])) ++ rest) n :=
      ((reads_opening n).append hclosed).append (ihRest hrest)
    simpa using hall

/-- Characters that are neither blanks nor brackets nor pipes change nothing. -/
theorem reads_of_plain {text : List Char} (h : ∀ c ∈ text, isPlain c = true) (n : Nesting) :
    n.Reads text n := by
  induction text with
  | nil => exact .nil
  | cons c rest ih =>
    obtain ⟨hc, hrest⟩ := List.forall_mem_cons.mp h
    have hsep : n.separates c = false := separates_of_not_isBlank (isBlank_of_isPlain hc) n
    have hsame : n.next c = n :=
      next_of_ne hsep (ne_of_test hc (by decide)) (ne_of_test hc (by decide)) fun hpipe =>
        absurd hpipe (ne_of_test hc (by decide))
    refine .cons hsep ?_
    rw [hsame]
    exact ih hrest

end Nesting

/-! ### Chunks -/

/-- **A text that is a chunk on its own**: nothing is open at its end, and it is trimmed. -/
structure IsChunk (text : List Char) : Prop where
  ne_nil : text ≠ []
  trimmed : trim text = text
  closed : ∃ n : Nesting, Nesting.start.Reads text n ∧ n.isClosed = true

/-- A blank in front makes no chunk. -/
theorem chunks_cons_blank {c : Char} (hc : isBlank c = true) (rest : List Char) :
    chunks (c :: rest) = chunks rest := by
  have hsep : Nesting.start.separates c = true := Nesting.separates_of_isClosed rfl hc
  -- The blank cuts off an empty piece, and empty pieces are no chunks.
  have hraw : rawChunks (c :: rest) = [] :: rawChunks rest := by
    rw [rawChunks, cut, if_pos hsep, Nesting.next_of_separates hsep]
    rfl
  rw [chunks, hraw]
  rfl

/-- Blanks in front make no chunk. -/
theorem chunks_append_blank {gap : List Char} (hgap : ∀ c ∈ gap, isBlank c = true)
    (rest : List Char) : chunks (gap ++ rest) = chunks rest := by
  induction gap with
  | nil => rfl
  | cons c gap ih =>
    obtain ⟨hc, hgap⟩ := List.forall_mem_cons.mp hgap
    rw [List.cons_append, chunks_cons_blank hc, ih hgap]

/-- There is no chunk in blanks. -/
theorem chunks_of_blanks {blanks : List Char} (h : ∀ c ∈ blanks, isBlank c = true) :
    chunks blanks = [] := by
  have hall := chunks_append_blank h []
  rwa [List.append_nil] at hall

/-- **A chunk is split off** from what follows it, if that is nothing or starts with a blank. -/
theorem IsChunk.chunks_append {text rest : List Char} (h : IsChunk text)
    (hrest : ∀ c ∈ rest.head?, isBlank c = true) : chunks (text ++ rest) = text :: chunks rest := by
  obtain ⟨n, hreads, hclosed⟩ := h.closed
  -- The text is trimmed and not empty, so it is kept as it is.
  have hkeep : ∀ pieces : List (List Char),
      ((text :: pieces).map trim).filter (fun chunk => !chunk.isEmpty)
        = text :: (pieces.map trim).filter fun chunk => !chunk.isEmpty := by
    intro pieces
    rw [List.map_cons, h.trimmed, List.filter_cons_of_pos (by simpa using h.ne_nil)]
  cases rest with
  | nil =>
    have hraw : rawChunks text = [text] := hreads.cut_eq
    rw [List.append_nil, chunks, hraw, hkeep]
    rfl
  | cons c rest =>
    -- The blank behind it separates, since everything is closed by then.
    have hc : isBlank c = true := hrest c rfl
    have hsep : n.separates c = true := Nesting.separates_of_isClosed hclosed hc
    have hraw : rawChunks (text ++ c :: rest) = text :: rawChunks rest := by
      rw [rawChunks, hreads.cut_append_cons hsep, Nesting.next_of_separates hsep]
      rfl
    rw [chunks_cons_blank hc, chunks, hraw, hkeep]
    rfl

/-! ### Chunks one after another -/

/-- A chunk with the blanks in front of it. -/
structure Placed where
  gap : List Char
  chunk : List Char

/-- Blanks stand in front of each chunk, but perhaps not of the first one. -/
structure Spaced (places : List Placed) : Prop where
  blank : ∀ p ∈ places, isBlankText p.gap = true
  apart : ∀ p ∈ places.tail, p.gap ≠ []

theorem Spaced.tail {p : Placed} {places : List Placed} (h : Spaced (p :: places)) :
    Spaced places where
  blank := fun q hq => h.blank q (List.mem_cons_of_mem p hq)
  apart := fun q hq => h.apart q (List.mem_of_mem_tail hq)

/-- **Chunks one after another**, each behind its blanks. -/
def layOut (places : List Placed) : List Char := places.flatMap fun p => p.gap ++ p.chunk

theorem layOut_cons_append (p : Placed) (places : List Placed) (rest : List Char) :
    layOut (p :: places) ++ rest = p.gap ++ (p.chunk ++ (layOut places ++ rest)) := by
  simp [layOut]

/-- What is behind a chunk is the gap of the next one, or what is behind the last. -/
theorem Spaced.isBlank_of_head? {p : Placed} {places : List Placed} (h : Spaced (p :: places))
    {rest : List Char} (hrest : ∀ c ∈ rest.head?, isBlank c = true) :
    ∀ c ∈ (layOut places ++ rest).head?, isBlank c = true := by
  intro c hc
  cases places with
  | nil => exact hrest c hc
  | cons q places =>
    -- The next chunk has a gap, since it is not the first one.
    obtain ⟨d, gap, hgap⟩ := List.exists_cons_of_ne_nil (h.apart q List.mem_cons_self)
    rw [layOut_cons_append, hgap] at hc
    obtain rfl : d = c := Option.some.inj hc
    have hq : q ∈ p :: q :: places := List.mem_cons_of_mem p List.mem_cons_self
    exact List.all_eq_true.mp (h.blank q hq) d (hgap ▸ List.mem_cons_self)

/-- **Chunks that end are split off one by one**, whatever follows behind a blank. -/
theorem chunks_layOut_append {places : List Placed} (h : Spaced places)
    (hchunks : ∀ p ∈ places, IsChunk p.chunk) {rest : List Char}
    (hrest : places ≠ [] → ∀ c ∈ rest.head?, isBlank c = true) :
    chunks (layOut places ++ rest) = places.map Placed.chunk ++ chunks rest := by
  induction places with
  | nil => rfl
  | cons p places ih =>
    obtain ⟨hp, hplaces⟩ := List.forall_mem_cons.mp hchunks
    have hblank : ∀ c ∈ rest.head?, isBlank c = true := hrest (List.cons_ne_nil p places)
    have hgap : ∀ c ∈ p.gap, isBlank c = true :=
      List.all_eq_true.mp (h.blank p List.mem_cons_self)
    -- The blanks before the chunk go, the chunk is split off, and a blank comes next.
    rw [layOut_cons_append, chunks_append_blank hgap, hp.chunks_append (h.isBlank_of_head? hblank),
      ih h.tail hplaces fun _ => hblank]
    rfl

/-! ### Items -/

/-- **A utility token as it is written**: a name, and a value in brackets or between pipes. -/
inductive WrittenToken : List Char → Prop
  /-- A value in brackets. -/
  | bracketed {name content : List Char} : (∀ c ∈ name, isLetter c = true) →
      Balanced squareBrackets content → WrittenToken (name ++ '[' :: (content ++ [']']))
  /-- A value between pipes, which holds no pipe itself. -/
  | piped {name content : List Char} : (∀ c ∈ name, isLetter c = true) →
      Balanced squareBrackets content → '|' ∉ content →
        WrittenToken (name ++ '|' :: (content ++ ['|']))

/-- **A plain class name.** -/
structure PlainName (text : List Char) : Prop where
  ne_nil : text ≠ []
  chars : ∀ c ∈ text, isPlain c = true

/-- **An item of a class attribute.** -/
inductive Item where
  /-- A utility token that does not refer to the classes of another element. -/
  | token (text : List Char) (written : WrittenToken text)
      (noCopy : ¬ classCopySuffix <:+: text)
  /-- A plain class name. -/
  | plain (text : List Char) (name : PlainName text)

/-- What is written for an item. -/
def Item.text : Item → List Char
  | token text _ _ => text
  | plain text _ => text

/-- The token of an item; a plain name is none. -/
def Item.token? : Item → Option String
  | token text _ _ => some (String.ofList text)
  | plain _ _ => none

/-- Letters are plain. -/
theorem isPlain_of_isLetter {c : Char} (h : isLetter c = true) : isPlain c = true := by
  have hname : isNameChar c = true := by
    rw [isLetter] at h
    simp [isNameChar, Char.isAlphanum, h]
  have hblank : isBlank c = false := isBlank_of_isNameChar hname
  have hne : c ≠ '[' ∧ c ≠ ']' ∧ c ≠ '|' :=
    ⟨ne_of_test hname (by decide), ne_of_test hname (by decide), ne_of_test hname (by decide)⟩
  simp [isPlain, hblank, hne]

/-- A name in front of a delimiter, with a delimiter at the end, has no blanks at its ends. -/
theorem trim_delimited {name inner : List Char} {opening closing : Char}
    (hname : ∀ c ∈ name, isPlain c = true) (hopening : isBlank opening = false)
    (hclosing : isBlank closing = false) :
    trim (name ++ opening :: (inner ++ [closing])) = name ++ opening :: (inner ++ [closing]) := by
  apply trim_of_ends
  · -- The first character is that of the name or the delimiter, and neither is blank.
    cases name with
    | nil =>
      rintro c ⟨⟩
      exact hopening
    | cons d name =>
      rintro c ⟨⟩
      exact isBlank_of_isPlain (hname d List.mem_cons_self)
  · have hlast : (name ++ opening :: (inner ++ [closing])).getLast? = some closing := by
      rw [← List.cons_append, ← List.append_assoc, List.getLast?_concat]
    rw [hlast]
    rintro c ⟨⟩
    exact hclosing

/-- **A token as it is written is a chunk**, with blanks in it or not. -/
theorem WrittenToken.isChunk {text : List Char} (h : WrittenToken text) : IsChunk text := by
  cases h with
  | @bracketed name content hname hcontent =>
    have hplain : ∀ c ∈ name, isPlain c = true := fun c hc => isPlain_of_isLetter (hname c hc)
    refine ⟨by simp, trim_delimited hplain (by decide) (by decide), ⟨0, 0⟩, ?_, rfl⟩
    -- The brackets raise the depth to one and back to zero.
    have hinner : Nesting.Reads ⟨1, 0⟩ (content ++ [']']) ⟨0, 0⟩ :=
      (Nesting.reads_of_balanced hcontent (.inl Nat.one_ne_zero)).append (Nesting.reads_closing 0 0)
    exact (Nesting.reads_of_plain hplain ⟨0, 0⟩).append
      ((Nesting.reads_opening ⟨0, 0⟩).append hinner)
  | @piped name content hname hcontent hpipe =>
    have hplain : ∀ c ∈ name, isPlain c = true := fun c hc => isPlain_of_isLetter (hname c hc)
    refine ⟨by simp, trim_delimited hplain (by decide) (by decide), ⟨0, 2⟩, ?_, rfl⟩
    -- One pipe is open around the value, and with the second one their number is even again.
    have hinner : Nesting.Reads ⟨0, 1⟩ (content ++ ['|']) ⟨0, 2⟩ :=
      (Nesting.reads_of_balanced hcontent (.inr ⟨rfl, hpipe⟩)).append (Nesting.reads_pipe 1)
    exact (Nesting.reads_of_plain hplain ⟨0, 0⟩).append ((Nesting.reads_pipe 0).append hinner)

theorem PlainName.isChunk {text : List Char} (h : PlainName text) : IsChunk text where
  ne_nil := h.ne_nil
  trimmed := trim_of_forall_not fun c hc => isBlank_of_isPlain (h.chars c hc)
  closed := ⟨_, Nesting.reads_of_plain h.chars _, rfl⟩

/-- Every item is a chunk. -/
theorem Item.isChunk (item : Item) : IsChunk item.text := by
  cases item with
  | token text written noCopy => exact written.isChunk
  | plain text name => exact name.isChunk

/-! ### Which items are tokens -/

/-- A token as it is written is recognized as one, unless it refers to classes. -/
theorem WrittenToken.isUtility {text : List Char} (h : WrittenToken text)
    (hcopy : ¬ classCopySuffix <:+: text) : isUtility text = true := by
  have hcontains : contains classCopySuffix text = false := by
    rw [← contains_iff_infix, Bool.not_eq_true] at hcopy
    exact hcopy
  -- Brackets are found behind the name, and pipes are counted.
  have hdelimited : (hasBrackets text || hasPipes text) = true := by
    cases h with
    | @bracketed name content hname _ =>
      have hfront : ∀ c ∈ name, (c != '[') = true := fun c hc =>
        bne_iff_ne.mpr (ne_of_test (isPlain_of_isLetter (hname c hc)) (by decide))
      have hbrackets : hasBrackets (name ++ '[' :: (content ++ [']'])) = true := by
        rw [hasBrackets, dropWhile_append_cons hfront (by decide)]
        simp
      rw [hbrackets, Bool.true_or]
    | @piped name content _ _ _ =>
      have hpipes : hasPipes (name ++ '|' :: (content ++ ['|'])) = true := by
        rw [hasPipes, decide_eq_true_iff]
        simp only [List.count_append, List.count_cons_self, List.count_nil]
        omega
      rw [hpipes, Bool.or_true]
  rw [Markup.isUtility, hcontains, hdelimited]
  rfl

/-- A plain name is no token, since it has neither brackets nor pipes. -/
theorem PlainName.isUtility {text : List Char} (h : PlainName text) : isUtility text = false := by
  -- A bracket or pipe is not plain, so it is not in the name.
  have hnone : ∀ x : Char, isPlain x = false → x ∉ text :=
    fun x hx hmem => ne_of_test (h.chars x hmem) hx rfl
  have hbrackets : hasBrackets text = false := by
    have hdrop : text.dropWhile (· != '[') = [] := by
      rw [List.dropWhile_eq_nil_iff]
      exact fun c hc => bne_iff_ne.mpr (ne_of_test (h.chars c hc) (by decide))
    rw [hasBrackets, hdrop]
    rfl
  have hpipes : hasPipes text = false := by
    rw [hasPipes, List.count_eq_zero.mpr (hnone '|' (by decide))]
    rfl
  rw [Markup.isUtility, hbrackets, hpipes, Bool.or_self, Bool.and_false]

/-! ### Writing items -/

/-- An item with the blanks in front of it. -/
structure Entry where
  gap : List Char
  item : Item
  isBlankText_gap : isBlankText gap = true

/-- **Write items one after another**, with blanks behind the last one. -/
def write (entries : List Entry) (trail : List Char) : List Char :=
  entries.flatMap (fun e => e.gap ++ e.item.text) ++ trail

/-- The chunk of an item with the blanks in front of it. -/
def Entry.place (e : Entry) : Placed := ⟨e.gap, e.item.text⟩

/-- The chunks of what was written are the items. -/
theorem chunks_write {entries : List Entry} {trail : List Char}
    (hgaps : ∀ e ∈ entries.tail, e.gap ≠ []) (htrail : isBlankText trail = true) :
    chunks (write entries trail) = entries.map fun e => e.item.text := by
  -- Writing items is laying out their chunks.
  have hwrite : write entries trail = layOut (entries.map Entry.place) ++ trail := by
    rw [layOut, List.flatMap_map]
    rfl
  -- The gaps of the items are the gaps of their chunks.
  have hspaced : Spaced (entries.map Entry.place) := by
    refine ⟨List.forall_mem_map.mpr fun e _ => e.isBlankText_gap, ?_⟩
    rw [← List.map_tail]
    exact List.forall_mem_map.mpr hgaps
  have hitems : ∀ p ∈ entries.map Entry.place, IsChunk p.chunk :=
    List.forall_mem_map.mpr fun e _ => e.item.isChunk
  have hblank : ∀ c ∈ trail, isBlank c = true := List.all_eq_true.mp htrail
  rw [hwrite, chunks_layOut_append hspaced hitems fun _ c hc => hblank c (List.mem_of_head? hc),
    chunks_of_blanks hblank, List.append_nil, List.map_map]
  rfl

/-- **Splitting undoes writing.** Items are written one after another, with blanks in front of each
of them, which may be missing before the first, and blanks at the end. The tokens of the attribute
are those that were written, character for character and in order. -/
theorem tokens_write {entries : List Entry} {trail : List Char}
    (hgaps : ∀ e ∈ entries.tail, e.gap ≠ []) (htrail : isBlankText trail = true) :
    tokens (String.ofList (write entries trail)) = entries.filterMap fun e => e.item.token? := by
  -- Each item is judged alone: a token passes the test, and a plain name does not.
  have hitem : ∀ e : Entry,
      (Option.guard isUtility e.item.text).map String.ofList = e.item.token? := by
    intro e
    cases e.item with
    | token text written noCopy =>
      have hutility : isUtility text = true := written.isUtility noCopy
      simp [Item.text, Item.token?, hutility]
    | plain text name =>
      have hutility : isUtility text = false := name.isUtility
      simp [Item.text, Item.token?, hutility]
  -- The chunks are the items, and filtering them is filtering the items one by one.
  rw [tokens, String.toList_ofList, utilityChunks, chunks_write hgaps htrail,
    ← List.filterMap_eq_filter, List.filterMap_map, List.map_filterMap]
  exact List.filterMap_congr fun e _ => hitem e

/-- A pipe and a blank in nested brackets, a plain name, and brackets with a blank between pipes. -/
theorem tokens_write_mixed :
    tokens "m[a [|]]\u00a0flex\n\th|[ ]b| " = ["m[a [|]]", "h|[ ]b|"] := by
  have hletter : ∀ name ∈ ['m', 'h'], ∀ c ∈ [name], isLetter c = true := by simp [isLetter]
  have hcontent : Balanced squareBrackets ['a', ' ', '[', '|', ']'] :=
    .plain (by decide) (.plain (by decide)
      (.nested (List.mem_singleton.mpr rfl) (.plain (by decide) .nil) .nil))
  have hcontent' : Balanced squareBrackets ['[', ' ', ']', 'b'] :=
    .nested (List.mem_singleton.mpr rfl) (.plain (by decide) .nil) (.plain (by decide) .nil)
  have hbracketed : WrittenToken "m[a [|]]".toList := .bracketed (hletter 'm' (by simp)) hcontent
  have hpiped : WrittenToken "h|[ ]b|".toList :=
    .piped (hletter 'h' (by simp)) hcontent' (by decide)
  have hflex : PlainName "flex".toList := ⟨by decide, List.all_eq_true.mp (by decide)⟩
  have hnoCopy : ∀ text ∈ ["m[a [|]]".toList, "h|[ ]b|".toList], ¬ classCopySuffix <:+: text := by
    simp only [← contains_iff_infix]
    decide
  let entries : List Entry :=
    [⟨[], .token _ hbracketed (hnoCopy _ List.mem_cons_self), rfl⟩,
      ⟨['\u00a0'], .plain _ hflex, by decide⟩,
      ⟨['\n', '\t'], .token _ hpiped (hnoCopy _ (List.mem_cons_of_mem _ List.mem_cons_self)),
        by decide⟩]
  have hgaps : ∀ e ∈ entries.tail, e.gap ≠ [] := by simp [entries]
  exact @tokens_write entries [' '] hgaps (by decide)

end Markup

end UtilityCss
