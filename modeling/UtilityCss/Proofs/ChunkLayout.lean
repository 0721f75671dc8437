import UtilityCss.Proofs.Parts

/-!
# Splitting any text

`Markup.tokens_write` is about attributes that were written with care. This file is about any text,
with stray brackets, odd pipes and brackets that are never closed. The splitter is forgiving, and
what it forgives stays inside one chunk:

* `uncut_or_separated` — a text is read without a cut, or there is a first place where it is cut;
* `isChunk_of_separates` — what stands before that place is a chunk on its own, since a blank does
  not change the state. So each chunk is read from the start state, and all but the last one end
  where nothing is open;
* `exists_layout` — therefore a text is its chunks one after another, with blanks around them;
* `chunks_layOut` — and it does not matter which blanks these are. Only the last chunk can have
  something open at its end, and the blanks behind it are trimmed off again.

`Separable` is what the two directions share. It speaks of the chunks alone, so the chunks of one
text can be laid out in another way.
-/

namespace UtilityCss

open UtilityCss.Text

/-! ### The first cut -/

namespace Text

section FirstCut

variable {σ : Type} {separates : σ → Char → Bool} {next : σ → Char → σ} {s u : σ}

/-- A text that is read without a cut can be read in two parts. -/
theorem Uncut.of_append {front rest : List Char} (h : Uncut separates next s (front ++ rest) u) :
    ∃ t, Uncut separates next s front t ∧ Uncut separates next t rest u := by
  induction front generalizing s with
  | nil => exact ⟨s, .nil, h⟩
  | cons c front ih =>
    cases h with
    | cons hc hrest =>
      obtain ⟨t, hfront, hback⟩ := ih hrest
      exact ⟨t, .cons hc hfront, hback⟩

/-- **A text is not cut, or there is a first place where it is.** -/
theorem uncut_or_separated (separates : σ → Char → Bool) (next : σ → Char → σ) (s : σ)
    (text : List Char) :
    (∃ t, Uncut separates next s text t) ∨
      ∃ piece t c rest, text = piece ++ c :: rest ∧ Uncut separates next s piece t ∧
        separates t c = true := by
  induction text generalizing s with
  | nil => exact .inl ⟨s, .nil⟩
  | cons d text ih =>
    cases hd : separates s d with
    | true => exact .inr ⟨[], s, d, text, rfl, .nil, hd⟩
    | false =>
      -- The first character stays in the first piece, wherever that ends.
      obtain ⟨t, huncut⟩ | ⟨piece, t, c, rest, rfl, huncut, hc⟩ := ih (next s d)
      · exact .inl ⟨t, .cons hd huncut⟩
      · exact .inr ⟨d :: piece, t, c, rest, rfl, .cons hd huncut, hc⟩

end FirstCut

theorem not_isBlank_head_of_trim {text : List Char} (h : trim text = text) :
    ∀ c ∈ text.head?, isBlank c = false := by
  have hhead := not_isBlank_head_trim text
  rwa [h] at hhead

end Text

namespace Markup

/-! ### Blanks inside a chunk -/

namespace Nesting

/-- A blank that does not separate changes nothing. -/
theorem next_of_isBlank {n : Nesting} {c : Char} (hc : isBlank c = true)
    (hn : n.separates c = false) : n.next c = n :=
  next_of_ne hn (ne_of_test hc (by decide)) (ne_of_test hc (by decide)) fun hpipe =>
    absurd hpipe (ne_of_test hc (by decide))

theorem isClosed_of_separates {n : Nesting} {c : Char} (h : n.separates c = true) :
    n.isClosed = true :=
  (Bool.and_eq_true_iff.mp h).2

/-- Where something is open, blanks are read over. -/
theorem reads_blanks {n : Nesting} (hn : n.isClosed = false) {blanks : List Char}
    (hblanks : ∀ c ∈ blanks, isBlank c = true) : n.Reads blanks n := by
  induction blanks with
  | nil => exact .nil
  | cons c blanks ih =>
    obtain ⟨hc, hblanks⟩ := List.forall_mem_cons.mp hblanks
    have hsep : n.separates c = false := by rw [separates, hn, Bool.and_false]
    refine .cons hsep ?_
    rw [next_of_isBlank hc hsep]
    exact ih hblanks

end Nesting

/-! ### Texts that are not split -/

/-- **A text that is not split**: it is trimmed, and it is read without a cut. Something may be open
at its end. -/
structure Unsplit (text : List Char) : Prop where
  ne_nil : text ≠ []
  trimmed : trim text = text
  reads : ∃ n : Nesting, Nesting.start.Reads text n

/-- A chunk is not split. -/
theorem IsChunk.unsplit {text : List Char} (h : IsChunk text) : Unsplit text where
  ne_nil := h.ne_nil
  trimmed := h.trimmed
  -- That nothing is open at its end is forgotten.
  reads := h.closed.imp fun _ => And.left

/-- **A text that is not split is one chunk**, whatever blanks are behind it. -/
theorem Unsplit.chunks_append_blanks {text : List Char} (h : Unsplit text) {blanks : List Char}
    (hblanks : ∀ c ∈ blanks, isBlank c = true) : chunks (text ++ blanks) = [text] := by
  obtain ⟨n, hreads⟩ := h.reads
  cases hn : n.isClosed with
  | true =>
    -- Nothing is open, so the first blank ends the chunk.
    have hchunk : IsChunk text := ⟨h.ne_nil, h.trimmed, n, hreads, hn⟩
    rw [hchunk.chunks_append fun c hc => hblanks c (List.mem_of_head? hc),
      chunks_of_blanks hblanks]
  | false =>
    -- The blanks belong to the chunk, and trimming takes them away.
    have hraw : rawChunks (text ++ blanks) = [text ++ blanks] :=
      (hreads.append (Nesting.reads_blanks hn hblanks)).cut_eq
    rw [chunks, hraw, List.map_singleton, trim_append_blanks hblanks, h.trimmed,
      List.filter_cons_of_pos (by simpa using h.ne_nil)]
    rfl

/-- A text that is not split is its only chunk. -/
theorem Unsplit.chunks_eq {text : List Char} (h : Unsplit text) : chunks text = [text] := by
  have hnone : ∀ c ∈ ([] : List Char), isBlank c = true := fun c hc => absurd hc List.not_mem_nil
  have hchunks := h.chunks_append_blanks hnone
  rwa [List.append_nil] at hchunks

/-- **What stands before a cut is a chunk on its own.** -/
theorem isChunk_of_separates {piece : List Char} {n : Nesting} {c : Char} (hne : piece ≠ [])
    (hhead : ∀ d ∈ piece.head?, isBlank d = false) (hreads : Nesting.start.Reads piece n)
    (hc : n.separates c = true) : IsChunk piece := by
  have hclosed : n.isClosed = true := Nesting.isClosed_of_separates hc
  refine ⟨hne, trim_of_ends hhead ?_, n, hreads, hclosed⟩
  intro d hd
  obtain ⟨front, rfl⟩ := List.getLast?_eq_some_iff.mp hd
  obtain ⟨m, -, hlast⟩ := hreads.of_append
  cases hlast with
  | cons hsep hnil =>
    cases hnil
    by_contra hblank
    rw [Bool.not_eq_false] at hblank
    -- A blank changes nothing, so it would have ended the chunk just as the next one does.
    rw [Nesting.next_of_isBlank hblank hsep] at hclosed
    rw [Nesting.separates_of_isClosed hclosed hblank] at hsep
    exact Bool.noConfusion hsep

/-! ### The layout of a text -/

/-- **Chunks that can be told apart**: none of them is split, and all but the last one end. -/
structure Separable (cs : List (List Char)) : Prop where
  unsplit : ∀ c ∈ cs, Unsplit c
  ended : ∀ c ∈ cs.dropLast, IsChunk c

theorem Separable.nil : Separable [] where
  unsplit := fun _ hc => absurd hc List.not_mem_nil
  ended := fun _ hc => absurd hc List.not_mem_nil

theorem Separable.singleton {chunk : List Char} (h : Unsplit chunk) : Separable [chunk] where
  unsplit := List.forall_mem_singleton.mpr h
  ended := fun _ hc => absurd hc List.not_mem_nil

/-- A chunk in front of chunks that can be told apart. -/
theorem Separable.cons {chunk : List Char} {cs : List (List Char)} (hchunk : IsChunk chunk)
    (h : Separable cs) : Separable (chunk :: cs) where
  unsplit := List.forall_mem_cons.mpr ⟨hchunk.unsplit, h.unsplit⟩
  ended := by
    -- The chunk is not the last one if there are others behind it, so it has to end.
    cases cs with
    | nil => exact fun c hc => absurd hc List.not_mem_nil
    | cons d cs =>
      rw [List.dropLast_cons_cons]
      exact List.forall_mem_cons.mpr ⟨hchunk, h.ended⟩

/-- The first of some places are spaced as well. -/
theorem Spaced.of_append {front back : List Placed} (h : Spaced (front ++ back)) :
    Spaced front where
  blank := fun p hp => h.blank p (List.mem_append_left back hp)
  apart := by
    intro p hp
    cases front with
    | nil => exact absurd hp List.not_mem_nil
    | cons q front => exact h.apart p (List.mem_append_left back hp)

/-- **What is behind a gap does not change the chunks before it.** -/
theorem chunks_layOut_gap {front back : List Placed} {p : Placed}
    (h : Spaced (front ++ p :: back)) (hfront : ∀ q ∈ front, IsChunk q.chunk)
    (rest : List Char) :
    chunks (layOut front ++ (p.gap ++ rest)) = front.map Placed.chunk ++ chunks rest := by
  have hgap : ∀ c ∈ p.gap, isBlank c = true :=
    List.all_eq_true.mp (h.blank p (List.mem_append_right front List.mem_cons_self))
  -- Behind a chunk there is at least one blank.
  have hhead : front ≠ [] → ∀ c ∈ (p.gap ++ rest).head?, isBlank c = true := by
    intro hne c hc
    obtain ⟨q, front, rfl⟩ := List.exists_cons_of_ne_nil hne
    have hmem : p ∈ (q :: front ++ p :: back).tail :=
      List.mem_append_right front List.mem_cons_self
    rw [List.head?_append_of_ne_nil _ (h.apart p hmem)] at hc
    exact hgap c (List.mem_of_head? hc)
  rw [chunks_layOut_append h.of_append hfront hhead, chunks_append_blank hgap]

/-- **The blanks between chunks do not matter.** -/
theorem chunks_layOut {places : List Placed} (hspaced : Spaced places)
    (hchunks : Separable (places.map Placed.chunk)) {trail : List Char}
    (htrail : ∀ c ∈ trail, isBlank c = true) :
    chunks (layOut places ++ trail) = places.map Placed.chunk := by
  rcases List.eq_nil_or_concat' places with rfl | ⟨front, last, rfl⟩
  · exact chunks_of_blanks htrail
  · have hended : ∀ q ∈ front, IsChunk q.chunk := by
      intro q hq
      apply hchunks.ended
      rw [List.map_append, List.map_singleton, List.dropLast_concat]
      exact List.mem_map_of_mem hq
    have hlast : Unsplit last.chunk := hchunks.unsplit last.chunk (by simp)
    have htext : layOut (front ++ [last]) ++ trail
        = layOut front ++ (last.gap ++ (last.chunk ++ trail)) := by
      simp [layOut]
    rw [htext, chunks_layOut_gap hspaced hended, hlast.chunks_append_blanks htrail,
      List.map_append, List.map_singleton]

/-- A text that starts with a blank has blanks before its first chunk. -/
theorem gap_ne_nil {p : Placed} {places : List Placed} {c : Char} {rest trail : List Char}
    (hc : isBlank c = true) (hp : Unsplit p.chunk)
    (htext : c :: rest = layOut (p :: places) ++ trail) : p.gap ≠ [] := by
  intro hgap
  rw [layOut_cons_append, hgap, List.nil_append] at htext
  -- Then the blank would be the first character of the chunk.
  have hhead : p.chunk.head? = some c := by
    rw [← List.head?_append_of_ne_nil p.chunk hp.ne_nil, ← htext, List.head?_cons]
  rw [not_isBlank_head_of_trim hp.trimmed c hhead] at hc
  exact Bool.noConfusion hc

/-- One more chunk in front of a text that starts with a blank. -/
theorem Spaced.cons {p : Placed} {places : List Placed} (hp : isBlankText p.gap = true)
    (h : Spaced places) (hfirst : ∀ q ∈ places.head?, q.gap ≠ []) : Spaced (p :: places) where
  blank := List.forall_mem_cons.mpr ⟨hp, h.blank⟩
  apart := by
    intro q hq
    -- The second place now has one before it, so it needs a gap.
    cases places with
    | nil => exact absurd hq List.not_mem_nil
    | cons r places =>
      rcases List.mem_cons.mp hq with rfl | hq
      · exact hfirst q rfl
      · exact h.apart q hq

/-- A text that is read without a cut is one chunk and the blanks behind it. -/
theorem exists_unsplit {d : Char} {body : List Char} (hd : isBlank d = false) {n : Nesting}
    (hreads : Nesting.start.Reads (d :: body) n) :
    ∃ chunk trail, d :: body = chunk ++ trail ∧ (∀ c ∈ trail, isBlank c = true) ∧
      Unsplit chunk := by
  have hstart : trimStart (d :: body) = d :: body :=
    List.dropWhile_cons_of_neg (Bool.eq_false_iff.mp hd)
  have hsplit : trim (d :: body) ++ (d :: body).rtakeWhile isBlank = d :: body := by
    rw [trim, hstart]
    exact List.rdropWhile_append_rtakeWhile ..
  have hne : trim (d :: body) ≠ [] := by
    intro hnil
    -- Otherwise the text would be blank, but its first character is not.
    rw [hnil, List.nil_append] at hsplit
    have hmem : d ∈ (d :: body).rtakeWhile isBlank := by
      rw [hsplit]
      exact List.mem_cons_self
    rw [List.mem_rtakeWhile_imp hmem] at hd
    exact Bool.noConfusion hd
  refine ⟨_, _, hsplit.symm, fun c hc => List.mem_rtakeWhile_imp hc, hne, trim_trim _, ?_⟩
  rw [← hsplit] at hreads
  obtain ⟨m, hfront, -⟩ := hreads.of_append
  exact ⟨m, hfront⟩

/-- **The first chunk of a text** goes on to the end of the text, but for blanks, or it ends at a
blank. -/
theorem exists_first_chunk {d : Char} (hd : isBlank d = false) (body : List Char) :
    (∃ chunk trail, d :: body = chunk ++ trail ∧ (∀ c ∈ trail, isBlank c = true) ∧
      Unsplit chunk) ∨
      ∃ chunk c rest, d :: body = chunk ++ c :: rest ∧ isBlank c = true ∧ IsChunk chunk := by
  rcases uncut_or_separated Nesting.separates Nesting.next Nesting.start (d :: body) with
    ⟨m, hreads⟩ | ⟨piece, m, c, rest, htext, hreads, hc⟩
  · exact .inl (exists_unsplit hd hreads)
  · have hblank : isBlank c = true := (Bool.and_eq_true_iff.mp hc).1
    -- The first character is not blank, so the cut is behind it.
    have hne : piece ≠ [] := by
      rintro rfl
      obtain ⟨rfl, -⟩ := List.cons.inj htext
      rw [hd] at hblank
      exact Bool.noConfusion hblank
    have hhead : ∀ x ∈ piece.head?, isBlank x = false := by
      intro x hx
      rw [← List.head?_append_of_ne_nil piece hne, ← htext] at hx
      exact Option.some.inj hx ▸ hd
    exact .inr ⟨piece, c, rest, htext, hblank, isChunk_of_separates hne hhead hreads hc⟩

/-- **A text is its chunks one after another**, with blanks around them. -/
theorem exists_layout (text : List Char) :
    ∃ places trail, text = layOut places ++ trail ∧ Spaced places ∧
      (∀ c ∈ trail, isBlank c = true) ∧ Separable (places.map Placed.chunk) := by
  -- The induction is on the length, since a whole chunk is taken off at once.
  induction hlength : text.length using Nat.strongRecOn generalizing text with
  | _ n ih =>
    have hgap : isBlankText (text.takeWhile isBlank) = true := List.all_takeWhile
    have hsplit : text.takeWhile isBlank ++ text.dropWhile isBlank = text :=
      List.takeWhile_append_dropWhile
    have hnil : Spaced [] :=
      ⟨fun p hp => absurd hp List.not_mem_nil, fun p hp => absurd hp List.not_mem_nil⟩
    cases hbody : text.dropWhile isBlank with
    | nil => exact ⟨[], text, rfl, hnil, List.dropWhile_eq_nil_iff.mp hbody, .nil⟩
    | cons d body =>
      rw [hbody] at hsplit
      have hd : isBlank d = false := by
        have hnot := List.head?_dropWhile_not isBlank text
        rw [hbody] at hnot
        exact hnot
      obtain ⟨chunk, trail, htext, htrail, hchunk⟩ | ⟨chunk, c, rest, htext, hblank, hchunk⟩ :=
        exists_first_chunk hd body
      · refine ⟨[⟨_, chunk⟩], trail, ?_, hnil.cons hgap fun q hq => absurd hq (by simp), htrail,
          .singleton hchunk⟩
        rw [layOut_cons_append]
        show text = text.takeWhile isBlank ++ (chunk ++ trail)
        rw [← htext, hsplit]
      · -- The rest starts with the blank at the cut, so it is shorter by the chunk.
        have hlt : (c :: rest).length < n := by
          have hpos := List.length_pos_iff.mpr hchunk.ne_nil
          rw [← hlength, ← hsplit, htext, List.length_append, List.length_append]
          omega
        obtain ⟨places, trail, hrest, hspaced, htrail, hchunks⟩ := ih _ hlt (c :: rest) rfl
        have hfirst : ∀ q ∈ places.head?, q.gap ≠ [] := by
          intro q hq
          obtain ⟨later, rfl⟩ := List.head?_eq_some_iff.mp hq
          exact gap_ne_nil hblank (hchunks.unsplit q.chunk List.mem_cons_self) hrest
        refine ⟨⟨_, chunk⟩ :: places, trail, ?_, hspaced.cons hgap hfirst, htrail,
          hchunks.cons hchunk⟩
        rw [layOut_cons_append, ← hrest, ← htext, hsplit]

/-- **The chunks of any text can be told apart.** -/
theorem separable_chunks (text : List Char) : Separable (chunks text) := by
  obtain ⟨places, trail, rfl, hspaced, htrail, hchunks⟩ := exists_layout text
  rw [chunks_layOut hspaced hchunks htrail]
  exact hchunks

/-- **Splitting is independent of the blanks and of what comes later.** Any text is laid out as its
chunks, in order, with blanks around them and nothing else. A chunk is not empty, has no blanks at
its ends and is its own only chunk. Laid out in another way, the chunks are the same; and whatever
takes the place of a chunk and of all that is behind it, the chunks before it are the same. -/
theorem chunks_laid_out (text : List Char) :
    (∃ places trail, text = layOut places ++ trail ∧ Spaced places ∧
      isBlankText trail = true ∧ places.map Placed.chunk = chunks text) ∧
    (∀ chunk ∈ chunks text, chunk ≠ [] ∧ trim chunk = chunk ∧ chunks chunk = [chunk]) ∧
    (∀ places trail, Spaced places → isBlankText trail = true →
      places.map Placed.chunk = chunks text → chunks (layOut places ++ trail) = chunks text) ∧
    ∀ front p back rest, Spaced (front ++ p :: back) →
      (front ++ p :: back).map Placed.chunk = chunks text →
      chunks (layOut front ++ (p.gap ++ rest)) = front.map Placed.chunk ++ chunks rest := by
  have hseparable := separable_chunks text
  refine ⟨?_, ?_, ?_, ?_⟩
  · obtain ⟨places, trail, htext, hspaced, htrail, hchunks⟩ := exists_layout text
    refine ⟨places, trail, htext, hspaced, List.all_eq_true.mpr htrail, ?_⟩
    rw [htext, chunks_layOut hspaced hchunks htrail]
  · intro chunk hchunk
    have hunsplit := hseparable.unsplit chunk hchunk
    exact ⟨hunsplit.ne_nil, hunsplit.trimmed, hunsplit.chunks_eq⟩
  · intro places trail hspaced htrail hchunks
    rw [← hchunks] at hseparable ⊢
    exact chunks_layOut hspaced hseparable (List.all_eq_true.mp htrail)
  · intro front p back rest hspaced hchunks
    refine chunks_layOut_gap hspaced (fun q hq => ?_) rest
    -- A chunk with another one behind it is not the last one, so it ends.
    apply hseparable.ended
    rw [← hchunks, List.map_append, List.map_cons, List.dropLast_append_cons]
    exact List.mem_append_left _ (List.mem_map_of_mem hq)

/-- A stray bracket, a pair of pipes and a bracket that is not closed: with other blanks between
them, and with something else in place of the last one. -/
theorem stray_bracket_stays_in_its_chunk :
    chunks "a] b|c d| x[y ".toList = ["a]".toList, "b|c d|".toList, "x[y".toList] ∧
      chunks "\na]\t b|c d|\u00a0x[y".toList = ["a]".toList, "b|c d|".toList, "x[y".toList] ∧
      chunks "a] b|c d| ]|".toList = ["a]".toList, "b|c d|".toList, "]|".toList] := by
  have hchunks : chunks "a] b|c d| x[y ".toList
      = ["a]".toList, "b|c d|".toList, "x[y".toList] := by decide
  obtain ⟨-, -, hlaidOut, hbefore⟩ := chunks_laid_out "a] b|c d| x[y ".toList
  have hblanks : Spaced [⟨['\n'], "a]".toList⟩, ⟨['\t', ' '], "b|c d|".toList⟩,
      ⟨['\u00a0'], "x[y".toList⟩] := ⟨List.all_eq_true.mp (by decide), by simp⟩
  have hspaces : Spaced ([⟨[], "a]".toList⟩, ⟨[' '], "b|c d|".toList⟩]
      ++ ⟨[' '], "x[y".toList⟩ :: []) := ⟨List.all_eq_true.mp (by decide), by simp⟩
  rw [hchunks] at hlaidOut hbefore
  exact ⟨hchunks, hlaidOut _ [] hblanks rfl rfl, hbefore _ _ [] "]|".toList hspaces rfl⟩

end Markup

end UtilityCss
