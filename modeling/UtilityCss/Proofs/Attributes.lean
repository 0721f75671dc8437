import UtilityCss.Markup.Attribute
import UtilityCss.Proofs.Scanning

/-!
# Where class attributes are found

The class attributes of a text are found by three scans, one for each form. This file says what the
scans find without their recursions, in two steps.

The first step is about scans in general. A `Site` is a place of a text where a reader recognises
its form. A scan keeps some of the sites and passes over the others: `Scanned read text place sites`
says that `sites` are what a scan from `place` on finds, that they stand apart and in order, and
that every other site from `place` on starts inside one of them. The invariant is carried from the
end of the text to its start, by `Scanned.pass` where the reader declines and by `Scanned.take`
where it does not, so every text has such a list (`exists_scanned`).

The second step is about class attributes. `IsAttribute` gives the spelling of each form, and
`attribute?_eq_some_iff` says that an attribute is read at the start of a text exactly if it is
spelled there. A site is therefore the same as an `Occurrence`, a way to cut the text around a
spelled attribute.
-/

namespace UtilityCss

namespace Text

/-! ### Sites of a scan -/

variable {α : Type} {read : Reader α} {text : List Char}

/-- **A place of a text where a reader recognises its form.** -/
structure Site (read : Reader α) (text : List Char) where
  /-- The number of characters before it. -/
  start : Nat
  /-- What is read there. -/
  value : α
  /-- The number of characters that are read. -/
  length : Nat
  /-- It is read there. -/
  isRead : read (text.drop start) = some (value, length)

/-- The place right behind a site. -/
def Site.stop (s : Site read text) : Nat := s.start + s.length

/-- What is read at a place is determined by the place. -/
theorem Site.eq_of_start_eq {s t : Site read text} (h : s.start = t.start) : s = t := by
  obtain ⟨start, value, length, hs⟩ := s
  obtain ⟨_, value', length', ht⟩ := t
  obtain rfl : start = _ := h
  -- At one place the reader gives one result.
  obtain ⟨rfl, rfl⟩ := Prod.mk.inj (Option.some.inj (hs.symm.trans ht))
  rfl

/-- A reader that takes some characters, and no more than there are. -/
structure Consuming (read : Reader α) : Prop where
  pos : ∀ {text : List Char} {a : α} {n : Nat}, read text = some (a, n) → 0 < n
  le_length : ∀ {text : List Char} {a : α} {n : Nat}, read text = some (a, n) → n ≤ text.length

/-- Such a reader takes nothing from an empty text. -/
theorem Consuming.read_nil (h : Consuming read) : read [] = none := by
  cases hread : read [] with
  | none => rfl
  -- It would take some of no characters.
  | some result => exact absurd (h.pos hread) (Nat.not_lt.mpr (h.le_length hread))

/-- **What a scan from a place on finds**: sites from there on, apart and in order, such that every
other site from there on starts inside one of them. -/
structure Scanned (read : Reader α) (text : List Char) (place : Nat)
    (sites : List (Site read text)) : Prop where
  found_eq : found read (text.drop place) = sites.map Site.value
  le_start : ∀ s ∈ sites, place ≤ s.start
  apart : sites.Pairwise fun s t => s.stop ≤ t.start
  mem_or_inside : ∀ t : Site read text, place ≤ t.start →
    t ∈ sites ∨ ∃ s ∈ sites, s.start < t.start ∧ t.start < s.stop

namespace Scanned

variable {place : Nat} {sites : List (Site read text)}

/-- Behind the text there is nothing to find. -/
theorem done (hread : Consuming read) (hplace : text.length ≤ place) :
    Scanned read text place [] where
  found_eq := by
    rw [List.drop_eq_nil_of_le hplace]
    rfl
  le_start := by simp
  apart := List.Pairwise.nil
  mem_or_inside := by
    intro t ht
    have hnone := t.isRead
    rw [List.drop_eq_nil_of_le (hplace.trans ht), hread.read_nil] at hnone
    exact absurd hnone (by simp)

/-- Where the reader declines, one character is passed over. -/
theorem pass (hplace : place < text.length) (hread : read (text.drop place) = none)
    (h : Scanned read text (place + 1) sites) : Scanned read text place sites where
  found_eq := by
    rw [← h.found_eq]
    rw [List.drop_eq_getElem_cons hplace] at hread ⊢
    rw [found, pieces_cons_of_none hread]
    rfl
  le_start s hs := Nat.le_of_succ_le (h.le_start s hs)
  apart := h.apart
  mem_or_inside := by
    intro t ht
    -- No site starts at the place itself.
    have hne : place ≠ t.start := by
      rintro rfl
      exact absurd (hread.symm.trans t.isRead) (by simp)
    exact h.mem_or_inside t (Nat.lt_of_le_of_ne ht hne)

/-- Where the reader recognises its form, the scan goes on right behind the site. -/
theorem take (hread : Consuming read) (s : Site read text) (h : Scanned read text s.stop sites) :
    Scanned read text s.start (s :: sites) where
  found_eq := by
    -- A site is not empty, so the scan moves on.
    obtain ⟨n, hn⟩ : ∃ n, s.length = n + 1 :=
      Nat.exists_eq_succ_of_ne_zero (hread.pos s.isRead).ne'
    have hsome : read (text.drop s.start) = some (s.value, n + 1) := hn ▸ s.isRead
    have hne : text.drop s.start ≠ [] := by
      intro hnil
      rw [hnil, hread.read_nil] at hsome
      exact absurd hsome (by simp)
    rw [found, pieces_of_some hne hsome, List.drop_drop, ← hn]
    exact congrArg (s.value :: ·) h.found_eq
  le_start := by
    intro t ht
    -- All other sites start behind this one.
    rcases List.mem_cons.mp ht with rfl | hmem
    · exact Nat.le_refl _
    · exact (Nat.le_add_right ..).trans (h.le_start t hmem)
  apart := List.pairwise_cons.mpr ⟨h.le_start, h.apart⟩
  mem_or_inside := by
    intro t ht
    -- A site that starts where `s` starts is `s`, and one that starts before `s` stops is inside.
    rcases Nat.eq_or_lt_of_le ht with heq | hlt
    · exact .inl (Site.eq_of_start_eq heq ▸ List.mem_cons_self)
    · by_cases hinside : t.start < s.stop
      · exact .inr ⟨s, List.mem_cons_self, hlt, hinside⟩
      · rcases h.mem_or_inside t (Nat.not_lt.mp hinside) with hmem | ⟨u, hu, hutinside⟩
        · exact .inl (List.mem_cons_of_mem _ hmem)
        · exact .inr ⟨u, List.mem_cons_of_mem _ hu, hutinside⟩

end Scanned

/-- **Every scan keeps the leftmost sites that do not overlap.** -/
theorem exists_scanned (hread : Consuming read) (text : List Char) (place : Nat) :
    ∃ sites, Scanned read text place sites := by
  -- The scan moves forward, so the induction is on what is left of the text.
  induction hleft : text.length - place using Nat.strong_induction_on generalizing place with
  | h left ih =>
    by_cases hplace : text.length ≤ place
    · exact ⟨[], .done hread hplace⟩
    · cases hsite : read (text.drop place) with
      | none =>
        obtain ⟨sites, hsites⟩ := ih _ (by omega) (place + 1) rfl
        exact ⟨sites, hsites.pass (Nat.not_le.mp hplace) hsite⟩
      | some result =>
        -- What is read there is a site, and it is not empty.
        let s : Site read text := ⟨place, result.1, result.2, hsite⟩
        have hpos : 0 < s.length := hread.pos s.isRead
        obtain ⟨sites, hsites⟩ := ih _ (by simp only [Site.stop, s] at *; omega) s.stop rfl
        exact ⟨s :: sites, hsites.take hread s⟩

end Text

open UtilityCss.Text

namespace Markup

/-! ### The spelling of class attributes -/

/-- The names of class attributes. -/
def attributeNames : List (List Char) := ["class".toList, "className".toList]

/-- The quote marks, double and single. -/
def quotes : List Char := ['\x22', '\x27']

namespace AttributeForm

/-- The characters that can stand right before and right after a value: quote marks, or the
backquote. -/
def delimiters : AttributeForm → List Char
  | quoted => quotes
  | template => ['\x60']
  | braced => quotes

/-- A delimited value as the form has it, with or without braces. -/
def enclose : AttributeForm → List Char → List Char
  | quoted, inner => inner
  | template, inner => '\x7b' :: (inner ++ ['\x7d'])
  | braced, inner => '\x7b' :: (inner ++ ['\x7d'])

/-- The characters that end a value, as a list. -/
theorem isDelimiter_iff_mem {form : AttributeForm} {c : Char} :
    form.isDelimiter c = true ↔ c ∈ form.delimiters := by
  cases form <;> simp [isDelimiter, delimiters, isQuote, isBackquote, quotes]

theorem isDelimiter_eq_false_iff {form : AttributeForm} {c : Char} :
    form.isDelimiter c = false ↔ c ∉ form.delimiters := by
  rw [← isDelimiter_iff_mem, Bool.not_eq_true]

/-- A value is written behind an opening brace and before a closing one, if the form has braces. -/
theorem enclose_append (form : AttributeForm) (inner rest : List Char) :
    form.enclose inner ++ rest = form.opening ++ (inner ++ (form.closing ++ rest)) := by
  cases form <;> simp [enclose, opening, closing, hasBraces]

end AttributeForm

/-- **The spelling of a class attribute** of a form with a value: one of the two names, an equals
sign, and the value between two delimiters, which need not be the same. The value is not empty and
holds none of the characters that could end it. -/
inductive IsAttribute (form : AttributeForm) (value : List Char) : List Char → Prop
  | intro {name : List Char} {q q' : Char} :
      name ∈ attributeNames → q ∈ form.delimiters → q' ∈ form.delimiters → value ≠ [] →
        (∀ c ∈ value, c ∉ form.delimiters) →
          IsAttribute form value (name ++ '=' :: form.enclose (q :: (value ++ [q'])))

/-- Reading one character of a kind. -/
theorem afterChar?_eq_some_iff {isWanted : Char → Bool} {text rest : List Char} :
    afterChar? isWanted text = some rest ↔ ∃ c, isWanted c = true ∧ text = c :: rest := by
  cases text with
  | nil => simp [afterChar?]
  | cons c text => by_cases hc : isWanted c = true <;> simp [afterChar?, hc]

/-- Reading the name of a class attribute and the equals sign. -/
theorem afterAttributeName?_eq_some_iff {text rest : List Char} :
    afterAttributeName? text = some rest
      ↔ ∃ name ∈ attributeNames, text = name ++ '=' :: rest := by
  rw [afterAttributeName?, Option.orElse_eq_or, Option.or_eq_some_iff]
  constructor
  · rintro (hlong | ⟨-, hshort⟩)
    · exact ⟨"className".toList, by simp [attributeNames], by rw [strip?_eq_some_iff.mp hlong]; rfl⟩
    · exact ⟨"class".toList, by simp [attributeNames], by rw [strip?_eq_some_iff.mp hshort]; rfl⟩
  · rintro ⟨name, hname, rfl⟩
    have hcases : name = "class".toList ∨ name = "className".toList := by
      simpa [attributeNames] using hname
    rcases hcases with rfl | rfl
    · -- The long name is tried first, and the equals sign stops it.
      exact .inr ⟨rfl, rfl⟩
    · exact .inl rfl

/-- **An attribute is read at the start of a text exactly if it is spelled there.** -/
theorem attribute?_eq_some_iff {form : AttributeForm} {text value rest : List Char} :
    attribute? form text = some (value, rest)
      ↔ ∃ spelling, IsAttribute form value spelling ∧ text = spelling ++ rest := by
  -- What the reader asks for, one step after the other.
  simp only [attribute?, Option.bind_eq_bind, Option.bind_eq_some_iff,
    Option.ite_none_left_eq_some, Option.some.injEq, Prod.mk.injEq, strip?_eq_some_iff,
    afterAttributeName?_eq_some_iff, afterChar?_eq_some_iff]
  constructor
  · rintro ⟨_, ⟨name, hname, rfl⟩, _, rfl, body, ⟨q, hq, rfl⟩, _, ⟨q', hq', hdrop⟩, tail, rfl,
      hne, rfl, rfl⟩
    -- The value that was read is the longest run without a delimiter.
    have hbody : body = body.takeWhile (fun c => !form.isDelimiter c)
        ++ q' :: (form.closing ++ tail) := by
      rw [← hdrop, List.takeWhile_append_dropWhile]
    have hfree : ∀ c ∈ body.takeWhile (fun c => !form.isDelimiter c), c ∉ form.delimiters := by
      intro c hc
      have hplain := List.all_eq_true.mp List.all_takeWhile c hc
      rw [Bool.not_eq_true'] at hplain
      exact AttributeForm.isDelimiter_eq_false_iff.mp hplain
    refine ⟨_, .intro hname (AttributeForm.isDelimiter_iff_mem.mp hq)
      (AttributeForm.isDelimiter_iff_mem.mp hq') (by simpa using hne) hfree, ?_⟩
    rw [List.append_assoc, List.cons_append, AttributeForm.enclose_append, List.cons_append,
      List.append_assoc, List.singleton_append, ← hbody]
  · rintro ⟨_, @⟨name, q, q', hname, hq, hq', hne, hfree⟩, rfl⟩
    -- The value goes on up to the first delimiter.
    have hplain : ∀ c ∈ value, (!form.isDelimiter c) = true := by
      intro c hc
      rw [AttributeForm.isDelimiter_eq_false_iff.mpr (hfree c hc)]
      rfl
    have hstop : (!form.isDelimiter q') = false := by
      rw [AttributeForm.isDelimiter_iff_mem.mpr hq']
      rfl
    have htake := takeWhile_append_cons hplain hstop (form.closing ++ rest)
    have hdrop := dropWhile_append_cons hplain hstop (form.closing ++ rest)
    rw [List.append_assoc, List.cons_append, AttributeForm.enclose_append, List.cons_append,
      List.append_assoc, List.singleton_append]
    exact ⟨_, ⟨name, hname, rfl⟩, _, rfl, _, ⟨q, AttributeForm.isDelimiter_iff_mem.mpr hq, rfl⟩, _,
      ⟨q', AttributeForm.isDelimiter_iff_mem.mpr hq', hdrop⟩, _, rfl, by simpa [htake] using hne,
      htake, rfl⟩

/-- An attribute is not empty. -/
theorem IsAttribute.ne_nil {form : AttributeForm} {value spelling : List Char}
    (h : IsAttribute form value spelling) : spelling ≠ [] := by
  cases h
  simp

/-- An attribute is read with the number of its characters exactly if it is spelled at the start. -/
theorem readAttribute_eq_some_iff {form : AttributeForm} {text value : List Char} {n : Nat} :
    readAttribute form text = some (value, n)
      ↔ ∃ spelling rest, IsAttribute form value spelling ∧ text = spelling ++ rest ∧
        spelling.length = n := by
  -- The number of characters is how much shorter the rest is.
  rw [readAttribute, Option.map_eq_some_iff]
  constructor
  · rintro ⟨⟨_, rest⟩, hread, heq⟩
    obtain ⟨rfl, rfl⟩ := Prod.mk.inj heq
    obtain ⟨spelling, hspelling, rfl⟩ := attribute?_eq_some_iff.mp hread
    exact ⟨spelling, rest, hspelling, rfl, by simp⟩
  · rintro ⟨spelling, rest, hspelling, rfl, rfl⟩
    exact ⟨(value, rest), attribute?_eq_some_iff.mpr ⟨spelling, hspelling, rfl⟩, by simp⟩

/-- A scan for attributes moves on behind each of them. -/
theorem consuming_readAttribute (form : AttributeForm) : Consuming (readAttribute form) where
  pos h := by
    obtain ⟨spelling, rest, hspelling, -, rfl⟩ := readAttribute_eq_some_iff.mp h
    exact List.length_pos_iff.mpr hspelling.ne_nil
  le_length h := by
    obtain ⟨spelling, rest, -, rfl, rfl⟩ := readAttribute_eq_some_iff.mp h
    simp

/-! ### Occurrences -/

/-- **An occurrence of a class attribute in a text**: a way to cut the text around it. -/
structure Occurrence (form : AttributeForm) (text : List Char) where
  /-- What stands before it. -/
  before : List Char
  /-- The attribute as it is spelled. -/
  spelling : List Char
  /-- What stands after it. -/
  after : List Char
  /-- The value of the attribute. -/
  value : List Char
  /-- The text is cut around the attribute. -/
  text_eq : text = before ++ (spelling ++ after)
  /-- It is an attribute with that value. -/
  isAttribute : IsAttribute form value spelling

namespace Occurrence

variable {form : AttributeForm} {text : List Char}

/-- Where an occurrence starts. -/
def start (o : Occurrence form text) : Nat := o.before.length

/-- The place right behind an occurrence. -/
def stop (o : Occurrence form text) : Nat := o.start + o.spelling.length

/-- The occurrence at a site of a scan. -/
def ofSite (s : Site (readAttribute form) text) : Occurrence form text where
  before := text.take s.start
  spelling := (text.drop s.start).take s.length
  after := (text.drop s.start).drop s.length
  value := s.value
  text_eq := by rw [List.take_append_drop, List.take_append_drop]
  isAttribute := by
    obtain ⟨spelling, rest, hspelling, htext, hlength⟩ := readAttribute_eq_some_iff.mp s.isRead
    rw [htext, ← hlength, List.take_left]
    exact hspelling

/-- The site at which an occurrence is read. -/
def toSite (o : Occurrence form text) : Site (readAttribute form) text where
  start := o.start
  value := o.value
  length := o.spelling.length
  isRead := by
    obtain ⟨before, spelling, after, value, rfl, hspelling⟩ := o
    exact readAttribute_eq_some_iff.mpr ⟨spelling, after, hspelling, List.drop_left, rfl⟩

/-- A text is cut in one way around the occurrence at a site. -/
theorem ofSite_toSite (o : Occurrence form text) : ofSite o.toSite = o := by
  obtain ⟨before, spelling, after, value, rfl, hspelling⟩ := o
  simp [ofSite, toSite, start]

/-- A site and its occurrence start at one place. -/
theorem start_ofSite (s : Site (readAttribute form) text) : (ofSite s).start = s.start := by
  obtain ⟨spelling, rest, hspelling, htext, -⟩ := readAttribute_eq_some_iff.mp s.isRead
  -- Something is read at the site, so it does not start behind the text.
  have hle : s.start ≤ text.length := by
    by_contra hlt
    rw [List.drop_eq_nil_of_le (Nat.le_of_not_le hlt)] at htext
    exact hspelling.ne_nil (List.append_eq_nil_iff.mp htext.symm).1
  rw [start, ofSite, List.length_take, Nat.min_eq_left hle]

/-- A site and its occurrence stop at one place. -/
theorem stop_ofSite (s : Site (readAttribute form) text) : (ofSite s).stop = s.stop := by
  have hle := (consuming_readAttribute form).le_length s.isRead
  rw [stop, start_ofSite, Site.stop, ofSite, List.length_take, Nat.min_eq_left hle]

/-- **What is extracted of a form**: occurrences with the values that are listed, apart and in
order, such that every other occurrence starts inside one of them. -/
structure Extracted (form : AttributeForm) (text : List Char)
    (occurrences : List (Occurrence form text)) : Prop where
  values_eq : valuesOf form text = occurrences.map Occurrence.value
  apart : occurrences.Pairwise fun o o' => o.stop ≤ o'.start
  mem_or_inside : ∀ o : Occurrence form text,
    o ∈ occurrences ∨ ∃ e ∈ occurrences, e.start < o.start ∧ o.start < e.stop

/-- What a scan keeps of a form, said of occurrences. -/
theorem exists_extracted (form : AttributeForm) (text : List Char) :
    ∃ occurrences, Extracted form text occurrences := by
  obtain ⟨sites, h⟩ := exists_scanned (consuming_readAttribute form) text 0
  refine ⟨sites.map ofSite, ?_, ?_, ?_⟩
  · rw [List.map_map]
    exact h.found_eq
  · -- Sites and their occurrences start and stop at the same places.
    rw [List.pairwise_map]
    refine h.apart.imp fun {s t} hst => ?_
    rw [stop_ofSite, start_ofSite]
    exact hst
  · -- An occurrence is read at its own site, which was kept or starts inside one that was.
    intro o
    rcases h.mem_or_inside o.toSite (Nat.zero_le _) with hmem | ⟨s, hs, hstart, hstop⟩
    · exact .inl (List.mem_map.mpr ⟨o.toSite, hmem, o.ofSite_toSite⟩)
    · refine .inr ⟨ofSite s, List.mem_map_of_mem hs, ?_, ?_⟩
      · rw [start_ofSite]
        exact hstart
      · rw [stop_ofSite]
        exact hstop

end Occurrence

/-- **Class attributes are extracted soundly and completely.** The values of a text are listed form
by form, and the values of a form are those of occurrences that stand apart and in order. Nothing is
left out but occurrences that start inside an extracted one of the same form. -/
theorem attributeValues_extracted (text : List Char) :
    ∃ extracted : (form : AttributeForm) → List (Occurrence form text),
      attributeValues text
          = (extracted .quoted).map Occurrence.value
            ++ (extracted .template).map Occurrence.value
            ++ (extracted .braced).map Occurrence.value ∧
        ∀ form,
          ((extracted form).Pairwise fun o o' => o.stop ≤ o'.start) ∧
          ∀ o : Occurrence form text, o ∈ extracted form ∨
            ∃ e ∈ extracted form, e.start < o.start ∧ o.start < e.stop := by
  choose extracted h using fun form => Occurrence.exists_extracted form text
  refine ⟨extracted, ?_, fun form => ⟨(h form).apart, (h form).mem_or_inside⟩⟩
  -- The forms are scanned one after another.
  rw [← (h .quoted).values_eq, ← (h .template).values_eq, ← (h .braced).values_eq]
  simp [attributeValues, AttributeForm.all]

end Markup

end UtilityCss
