import UtilityCss.Markup.Element
import UtilityCss.Proofs.ClassCopies
import UtilityCss.Proofs.Gathering
import Mathlib.Data.List.Infix

/-!
# When the element of a class copy is found

A marker `#id.classes` asks for the classes of an element of the same text, and the element is
looked up by the spelling of its two attributes. `Paired id text` says that the two stand one behind
the other, in either order and with no `>` between them; `isSome_elementClasses?_iff` says that the
lookup succeeds exactly then.

Both orders are searched from left to right (`isSome_leftmost`), and from the end of the first
attribute the second one is looked for up to the end of the tag (`Reaches`). So a scan reports
exactly the markers whose id is paired with no class attribute.

That is not the same as the markers for which no tag has both attributes. `Tag.HasId` and
`Tag.HasClasses` say what it means for a tag to have them, and together they come apart from
`Paired` in both directions: a class attribute in braces is not looked for, and the id may be the
end of a longer attribute name.
-/

namespace UtilityCss

open UtilityCss.Text

namespace Markup

/-! ### Searching -/

/-- A search from left to right succeeds exactly if it succeeds at some place. -/
theorem isSome_leftmost {α : Type} {search here : List Char → Option α} (hhere : here [] = none)
    (hnil : search [] = none)
    (hcons : ∀ c rest, search (c :: rest) = (here (c :: rest)).orElse fun _ => search rest)
    (text : List Char) :
    (search text).isSome ↔ ∃ before place, text = before ++ place ∧ (here place).isSome := by
  induction text with
  | nil =>
    rw [hnil]
    constructor
    · intro h
      exact absurd h (by simp)
    · -- At the end of a text there is one place left, the empty one.
      rintro ⟨before, place, htext, hplace⟩
      obtain ⟨-, rfl⟩ := List.append_eq_nil_iff.mp htext.symm
      rw [hhere] at hplace
      exact absurd hplace (by simp)
  | cons c rest ih =>
    rw [hcons, Option.orElse_eq_or, Option.isSome_or, Bool.or_eq_true, ih]
    constructor
    · rintro (hplace | ⟨before, place, rfl, hplace⟩)
      · exact ⟨[], c :: rest, rfl, hplace⟩
      · exact ⟨c :: before, place, rfl, hplace⟩
    · -- A place in a longer text is at its start or behind the first character.
      rintro ⟨before, place, htext, hplace⟩
      cases before with
      | nil =>
        obtain rfl : c :: rest = place := htext
        exact .inl hplace
      | cons d before =>
        obtain ⟨rfl, rfl⟩ := List.cons.inj htext
        exact .inr ⟨before, place, rfl, hplace⟩

/-- What starts before the tag ends: it is reached without passing over a `>`. -/
def Reaches (isPlace : List Char → Prop) (text : List Char) : Prop :=
  ∃ gap place, text = gap ++ place ∧ '>' ∉ gap ∧ isPlace place

/-- Nothing is reached in an empty text. -/
theorem reaches_nil {isPlace : List Char → Prop} (hnil : ¬ isPlace []) : ¬ Reaches isPlace [] := by
  rintro ⟨gap, place, htext, -, hplace⟩
  obtain ⟨-, rfl⟩ := List.append_eq_nil_iff.mp htext.symm
  exact hnil hplace

/-- A place is reached at the first character or behind it, unless it is a `>`. -/
theorem reaches_cons {isPlace : List Char → Prop} {c : Char} {rest : List Char} :
    Reaches isPlace (c :: rest) ↔ isPlace (c :: rest) ∨ (c ≠ '>' ∧ Reaches isPlace rest) := by
  constructor
  · -- The gap is empty, or it starts with a character that is passed over.
    rintro ⟨gap, place, htext, hgap, hplace⟩
    cases gap with
    | nil =>
      obtain rfl : c :: rest = place := htext
      exact .inl hplace
    | cons d gap =>
      obtain ⟨rfl, rfl⟩ := List.cons.inj htext
      obtain ⟨hc, hgap⟩ := not_or.mp (mt List.mem_cons.mpr hgap)
      exact .inr ⟨Ne.symm hc, gap, place, rfl, hgap, hplace⟩
  · rintro (hplace | ⟨hc, gap, place, rfl, hgap, hplace⟩)
    · exact ⟨[], c :: rest, rfl, List.not_mem_nil, hplace⟩
    · refine ⟨c :: gap, place, rfl, ?_, hplace⟩
      rw [List.mem_cons, not_or]
      exact ⟨Ne.symm hc, hgap⟩

/-! ### The spelling of id attributes -/

/-- **The spelling of an id attribute**: the id between quote marks, which need not be the same. -/
inductive IsIdAttribute (id : List Char) : List Char → Prop
  | intro {q q' : Char} :
      q ∈ quotes → q' ∈ quotes → IsIdAttribute id ("id=".toList ++ q :: (id ++ [q']))

/-- An id attribute is read just where it is spelled. -/
theorem afterId?_eq_some_iff {id text rest : List Char} :
    afterId? id text = some rest
      ↔ ∃ spelling, IsIdAttribute id spelling ∧ text = spelling ++ rest := by
  have hquote : ∀ {c}, isQuote c = true ↔ c ∈ quotes :=
    @AttributeForm.isDelimiter_iff_mem .quoted
  -- The name, a mark, the id and a mark are read one after the other.
  simp only [afterId?, Option.bind_eq_bind, Option.bind_eq_some_iff, strip?_eq_some_iff,
    afterChar?_eq_some_iff, hquote]
  constructor
  · rintro ⟨_, rfl, _, ⟨q, hq, rfl⟩, _, rfl, q', hq', rfl⟩
    exact ⟨_, .intro hq hq', by simp⟩
  · rintro ⟨_, @⟨q, q', hq, hq'⟩, rfl⟩
    exact ⟨_, List.append_assoc .., _, ⟨q, hq, rfl⟩, _, by simp, q', hq', rfl⟩

/-- Whether an id attribute starts a text. -/
def StartsWithId (id text : List Char) : Prop :=
  ∃ spelling after, IsIdAttribute id spelling ∧ text = spelling ++ after

/-- Whether a quoted class attribute starts a text. -/
def StartsWithClasses (text : List Char) : Prop :=
  ∃ value spelling after, IsAttribute .quoted value spelling ∧ text = spelling ++ after

/-- An id attribute can be read just where the text starts with one. -/
theorem isSome_afterId?_iff {id text : List Char} :
    (afterId? id text).isSome ↔ StartsWithId id text := by
  rw [Option.isSome_iff_exists]
  constructor
  · rintro ⟨after, h⟩
    obtain ⟨spelling, hspelling, htext⟩ := afterId?_eq_some_iff.mp h
    exact ⟨spelling, after, hspelling, htext⟩
  · rintro ⟨spelling, after, hspelling, htext⟩
    exact ⟨after, afterId?_eq_some_iff.mpr ⟨spelling, hspelling, htext⟩⟩

/-- A quoted class attribute can be read just where the text starts with one. -/
theorem isSome_attribute?_iff {text : List Char} :
    (attribute? .quoted text).isSome ↔ StartsWithClasses text := by
  rw [Option.isSome_iff_exists]
  constructor
  · rintro ⟨⟨value, after⟩, h⟩
    obtain ⟨spelling, hspelling, htext⟩ := attribute?_eq_some_iff.mp h
    exact ⟨value, spelling, after, hspelling, htext⟩
  · rintro ⟨value, spelling, after, hspelling, htext⟩
    exact ⟨(value, after), attribute?_eq_some_iff.mpr ⟨spelling, hspelling, htext⟩⟩

/-- An id attribute is not empty. -/
theorem not_startsWithId_nil (id : List Char) : ¬ StartsWithId id [] := by
  rintro ⟨_, after, ⟨⟩, htext⟩
  exact absurd htext (by simp)

/-- A class attribute starts with the first letter of its name. -/
theorem head?_of_startsWithClasses {text : List Char} (h : StartsWithClasses text) :
    text.head? = some 'c' := by
  obtain ⟨value, _, after, ⟨hname, -, -, -, -⟩, rfl⟩ := h
  -- Both names of the attribute start with this letter.
  rcases List.mem_pair.mp hname with rfl | rfl <;> rfl

/-- The id attribute is looked for up to the end of the tag. -/
theorem hasIdInTag_iff {id text : List Char} :
    hasIdInTag id text = true ↔ Reaches (StartsWithId id) text := by
  induction text with
  | nil => simp [hasIdInTag, reaches_nil (not_startsWithId_nil id)]
  | cons c rest ih =>
    rw [hasIdInTag, Bool.or_eq_true, Bool.and_eq_true, isSome_afterId?_iff, ih, reaches_cons,
      bne_iff_ne]

/-- The class attribute is looked for up to the end of the tag. -/
theorem isSome_lastClassesInTag?_iff {text : List Char} :
    (lastClassesInTag? text).isSome ↔ Reaches StartsWithClasses text := by
  induction text with
  | nil =>
    have hnil : ¬ StartsWithClasses [] := fun h => by simpa using head?_of_startsWithClasses h
    simp [lastClassesInTag?, reaches_nil hnil]
  | cons c rest ih =>
    rw [lastClassesInTag?, reaches_cons]
    by_cases hc : c = '>'
    · -- No class attribute starts with the end of the tag.
      subst hc
      have hstart : ¬ StartsWithClasses ('>' :: rest) :=
        fun h => by simpa using head?_of_startsWithClasses h
      simp [hstart]
    · rw [if_neg hc, Option.orElse_eq_or, Option.isSome_or, Bool.or_eq_true, ih, Option.isSome_map,
        isSome_attribute?_iff, or_comm, and_iff_right hc]

/-! ### Looking an element up -/

/-- **An id and a quoted class attribute that stand one behind the other**, with no `>` between
them. -/
inductive Paired (id text : List Char) : Prop
  /-- The id comes first. -/
  | idFirst {before i gap c after value : List Char} :
      IsIdAttribute id i → IsAttribute .quoted value c → '>' ∉ gap →
        text = before ++ (i ++ (gap ++ (c ++ after))) → Paired id text
  /-- The class attribute comes first. -/
  | classFirst {before c gap i after value : List Char} :
      IsAttribute .quoted value c → IsIdAttribute id i → '>' ∉ gap →
        text = before ++ (c ++ (gap ++ (i ++ after))) → Paired id text

/-- The first search finds an id attribute with a class attribute behind it in the same tag. -/
theorem isSome_classesAfterId?_iff {id text : List Char} :
    (classesAfterId? id text).isSome
      ↔ ∃ before i gap c after value, IsIdAttribute id i ∧ IsAttribute .quoted value c ∧
        '>' ∉ gap ∧ text = before ++ (i ++ (gap ++ (c ++ after))) := by
  -- At each place the id is read first, and then the rest of the tag is searched.
  rw [@isSome_leftmost _ _ (fun place => (afterId? id place).bind lastClassesInTag?)
    (by simp [afterId?, strip?]) rfl fun c rest => rfl]
  constructor
  · rintro ⟨before, place, rfl, hplace⟩
    obtain ⟨classes, hclasses⟩ := Option.isSome_iff_exists.mp hplace
    obtain ⟨rest, hrest, hlast⟩ := Option.bind_eq_some_iff.mp hclasses
    obtain ⟨i, hi, rfl⟩ := afterId?_eq_some_iff.mp hrest
    obtain ⟨gap, _, rfl, hgap, value, c, after, hc, rfl⟩ :=
      isSome_lastClassesInTag?_iff.mp (Option.isSome_of_eq_some hlast)
    exact ⟨before, i, gap, c, after, value, hi, hc, hgap, rfl⟩
  · rintro ⟨before, i, gap, c, after, value, hi, hc, hgap, rfl⟩
    refine ⟨before, _, rfl, ?_⟩
    rw [afterId?_eq_some_iff.mpr ⟨i, hi, rfl⟩, Option.bind_some]
    exact isSome_lastClassesInTag?_iff.mpr ⟨gap, _, rfl, hgap, value, c, after, hc, rfl⟩

/-- The second search finds a class attribute with an id attribute behind it in the same tag. -/
theorem isSome_classesBeforeId?_iff {id text : List Char} :
    (classesBeforeId? id text).isSome
      ↔ ∃ before c gap i after value, IsAttribute .quoted value c ∧ IsIdAttribute id i ∧
        '>' ∉ gap ∧ text = before ++ (c ++ (gap ++ (i ++ after))) := by
  -- The other way round, and the value is kept only if the id follows.
  rw [@isSome_leftmost _ _ (fun place => (attribute? .quoted place).bind fun r =>
      if hasIdInTag id r.2 then some r.1 else none)
    (by simp [attribute?, afterAttributeName?, strip?]) rfl fun c rest => rfl]
  constructor
  · rintro ⟨before, place, rfl, hplace⟩
    obtain ⟨classes, hclasses⟩ := Option.isSome_iff_exists.mp hplace
    obtain ⟨⟨value, rest⟩, hrest, hhas⟩ := Option.bind_eq_some_iff.mp hclasses
    obtain ⟨c, hc, rfl⟩ := attribute?_eq_some_iff.mp hrest
    obtain ⟨hid, -⟩ := Option.ite_none_right_eq_some.mp hhas
    obtain ⟨gap, _, rfl, hgap, i, after, hi, rfl⟩ := hasIdInTag_iff.mp hid
    exact ⟨before, c, gap, i, after, value, hc, hi, hgap, rfl⟩
  · rintro ⟨before, c, gap, i, after, value, hc, hi, hgap, rfl⟩
    refine ⟨before, _, rfl, ?_⟩
    have hid : hasIdInTag id (gap ++ (i ++ after)) = true :=
      hasIdInTag_iff.mpr ⟨gap, _, rfl, hgap, i, after, hi, rfl⟩
    rw [attribute?_eq_some_iff.mpr ⟨c, hc, rfl⟩, Option.bind_some, if_pos hid]
    rfl

/-- **An element is found exactly if its two attributes are paired.** -/
theorem isSome_elementClasses?_iff {id text : List Char} :
    (elementClasses? text id).isSome ↔ Paired id text := by
  rw [elementClasses?, Option.orElse_eq_or, Option.isSome_or, Bool.or_eq_true,
    isSome_classesAfterId?_iff, isSome_classesBeforeId?_iff]
  -- One search for either order of the two attributes.
  constructor
  · rintro (⟨before, i, gap, c, after, value, hi, hc, hgap, htext⟩
      | ⟨before, c, gap, i, after, value, hc, hi, hgap, htext⟩)
    · exact .idFirst hi hc hgap htext
    · exact .classFirst hc hi hgap htext
  · rintro (⟨hi, hc, hgap, htext⟩ | ⟨hc, hi, hgap, htext⟩)
    · exact .inl ⟨_, _, _, _, _, _, hi, hc, hgap, htext⟩
    · exact .inr ⟨_, _, _, _, _, _, hc, hi, hgap, htext⟩

/-- Attributes that are paired in a piece of a text are paired in the text. -/
theorem Paired.of_isInfix {id piece text : List Char} (h : Paired id piece)
    (hpiece : piece <:+: text) : Paired id text := by
  -- What surrounds the piece is put before and behind the two attributes.
  obtain ⟨front, back, rfl⟩ := hpiece
  rcases h with @⟨before, i, gap, c, after, _, hi, hc, hgap, rfl⟩
    | @⟨before, c, gap, i, after, _, hc, hi, hgap, rfl⟩
  · refine .idFirst hi hc hgap
      (?_ : _ = (front ++ before) ++ (i ++ (gap ++ (c ++ (after ++ back)))))
    simp
  · refine .classFirst hc hi hgap
      (?_ : _ = (front ++ before) ++ (c ++ (gap ++ (i ++ (after ++ back)))))
    simp

/-! ### Tags -/

/-- **A tag of a text**: the characters from a `<` to the next `>`. -/
structure Tag (text : List Char) where
  /-- What stands before the tag. -/
  before : List Char
  /-- What stands between `<` and `>`. -/
  inner : List Char
  /-- What stands after the tag. -/
  after : List Char
  /-- The text is cut around the tag. -/
  text_eq : text = before ++ '<' :: (inner ++ '>' :: after)
  /-- The tag ends at the first `>`. -/
  notMem_inner : '>' ∉ inner

namespace Tag

variable {text : List Char}

/-- Whether a tag has an id attribute with the given value. A blank stands before it, so `id` is its
whole name. -/
def HasId (tag : Tag text) (id : List Char) : Prop :=
  ∃ front b i back, isBlank b = true ∧ IsIdAttribute id i ∧ tag.inner = front ++ b :: (i ++ back)

/-- Whether a tag has a class attribute, of any form. -/
def HasClasses (tag : Tag text) : Prop :=
  ∃ form value c, IsAttribute form value c ∧ c <:+: tag.inner

/-- What is in a tag is in the text. -/
theorem inner_isInfix (tag : Tag text) : tag.inner <:+: text := by
  obtain ⟨before, inner, after, rfl, -⟩ := tag
  exact ⟨before ++ ['<'], '>' :: after, by simp⟩

end Tag

end Markup

/-! ### Reports of a scan -/

open Markup

/-- A marker is reported just if its element is not found. -/
theorem Yield.mem_unresolved_iff {source id : List Char} {d : Diagnostic} :
    d ∈ unresolved source id
      ↔ d = .unresolvedElement (String.ofList id) ∧ ¬ Paired id source := by
  rw [← isSome_elementClasses?_iff, unresolved]
  cases elementClasses? source id <;> simp

namespace Session

/-- **A scan reports exactly the markers whose element is not found by the spelling of its
attributes.** Nothing else is reported, and a marker is not reported if some tag has an id attribute
and a quoted class attribute beside each other. -/
theorem scan_reports_unpaired_markers (s : Session) (source : String) :
    ∃ raised : List Diagnostic,
      (s.scan source).diagnostics = s.diagnostics ++ raised ∧
      (∀ d ∈ raised, ∃ x, d = .unresolvedElement x) ∧
      (∀ x : String, .unresolvedElement x ∈ raised ↔
        (∃ value ∈ attributeValues source.toList, HasMarker x.toList value) ∧
          ¬ Paired x.toList source.toList) ∧
      ∀ (x : String) (tag : Tag source.toList),
        Paired x.toList tag.inner → .unresolvedElement x ∉ raised := by
  -- The problems of a scan are those of the markers, attribute by attribute.
  have hmem : ∀ d, d ∈ (Yield.ofSource source).diagnostics ↔
      ∃ value ∈ attributeValues source.toList, ∃ id, HasMarker id value ∧
        d = .unresolvedElement (String.ofList id) ∧ ¬ Paired id source.toList := by
    intro d
    simp only [Yield.ofSource, Yield.ofValue, List.mem_flatMap, Yield.mem_unresolved_iff,
      mem_classCopies_iff]
  -- The ids of the reports are texts and those of the markers are characters, so they are
  -- translated.
  have hreported : ∀ x : String, .unresolvedElement x ∈ (Yield.ofSource source).diagnostics ↔
      (∃ value ∈ attributeValues source.toList, HasMarker x.toList value) ∧
        ¬ Paired x.toList source.toList := by
    intro x
    rw [hmem]
    constructor
    · rintro ⟨value, hvalue, id, hmarker, hx, hpaired⟩
      obtain rfl := Diagnostic.unresolvedElement.inj hx
      rw [String.toList_ofList]
      exact ⟨⟨value, hvalue, hmarker⟩, hpaired⟩
    · rintro ⟨⟨value, hvalue, hmarker⟩, hpaired⟩
      exact ⟨value, hvalue, x.toList, hmarker, by rw [String.ofList_toList], hpaired⟩
  refine ⟨(Yield.ofSource source).diagnostics, by rw [scan_eq_absorb]; rfl, ?_, hreported, ?_⟩
  · intro d hd
    obtain ⟨-, -, id, -, rfl, -⟩ := (hmem d).mp hd
    exact ⟨_, rfl⟩
  · -- The tag is a stretch of the text, so the attributes are paired there, too.
    intro x tag hpaired hx
    exact ((hreported x).mp hx).2 (hpaired.of_isInfix tag.inner_isInfix)

/-- A text in which the classes of an element are written in braces. -/
def bracedCard : String :=
  "<div id=\"card\" className=\x7b`p[1px]`\x7d></div><p class=\"#card.classes\"></p>"

/-- A text in which the id is the value of an attribute with a longer name. -/
def dataCard : String :=
  "<div data-id=\"card\" class=\"p[1px]\"></div><p class=\"#card.classes\"></p>"

/-- **The reports are not those of the tags.** An element whose classes are written in braces is
reported although a tag has both its attributes, and no report is made for an id that no tag has,
since an attribute with a longer name is taken for it. -/
theorem reports_differ_from_tags :
    ((∃ value ∈ attributeValues bracedCard.toList, HasMarker "card".toList value) ∧
      (∃ tag : Tag bracedCard.toList, tag.HasId "card".toList ∧ tag.HasClasses) ∧
      ((∅ : Session).scan bracedCard).diagnostics = [.unresolvedElement "card"]) ∧
    (∃ value ∈ attributeValues dataCard.toList, HasMarker "card".toList value) ∧
      (¬ ∃ tag : Tag dataCard.toList, tag.HasId "card".toList ∧ tag.HasClasses) ∧
      ((∅ : Session).scan dataCard).diagnostics = [] := by
  have hmarker : HasMarker "card".toList "#card.classes".toList :=
    mem_classCopies_iff.mp (by decide +kernel)
  refine ⟨⟨⟨_, by decide +kernel, hmarker⟩, ?_, by decide +kernel⟩,
    ⟨_, by decide +kernel, hmarker⟩, ?_, by decide +kernel⟩
  · -- The tag is shown with its two attributes.
    have hid : IsIdAttribute "card".toList "id=\"card\"".toList :=
      @IsIdAttribute.intro _ '\x22' '\x22' (by decide) (by decide)
    have hvalue : '\x60' ∉ "p[1px]".toList := by decide
    have hclasses : IsAttribute .template "p[1px]".toList "className=\x7b`p[1px]`\x7d".toList :=
      @IsAttribute.intro .template _ "className".toList '\x60' '\x60' (by decide) (by decide)
        (by decide) (by decide) fun c hc hquote => hvalue (List.mem_singleton.mp hquote ▸ hc)
    exact ⟨⟨[], "div id=\"card\" className=\x7b`p[1px]`\x7d".toList,
      "</div><p class=\"#card.classes\"></p>".toList, rfl, by decide⟩,
      ⟨"div".toList, ' ', _, _, by decide, hid, rfl⟩,
      ⟨.template, _, _, hclasses, "div id=\"card\" ".toList, [], rfl⟩⟩
  · -- A tag with this id would have a blank in front of the attribute.
    rintro ⟨tag, ⟨front, b, i, back, hb, hid, hinner⟩, -⟩
    have htext := tag.text_eq
    rw [hinner, List.append_assoc] at htext
    -- No blank of this text has the name of the attribute behind it.
    have hcheck : ∀ place ∈ dataCard.toList.tails,
        (place.head?.all fun c => !isBlank c) || (strip? "id=".toList place.tail).isNone :=
      List.all_eq_true.mp (by decide +kernel)
    have hplace := hcheck _ ((List.mem_tails _ _).mpr
      ⟨tag.before ++ '<' :: front, (List.append_assoc ..).trans htext.symm⟩)
    obtain ⟨-, -⟩ := hid
    simp [hb, strip?] at hplace

end Session

end UtilityCss
