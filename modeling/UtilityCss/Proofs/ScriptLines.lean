import UtilityCss.Proofs.Scanning
import UtilityCss.Script.Lines

/-!
# What the lines of a script call

The lines of a runtime script are templates with names filled in: ids, properties and variables. The
names are made of letters, digits, hyphens and underscores, so none of them can end a string or
start a call, and what a line calls is decided by its template. This file carries that argument out
for the two calls that matter, setting a custom property and looking an element up.

A call opens a parenthesis right behind the last letter of its name. `Calm behind s` says that `s`
is on one line and opens no parenthesis behind the characters in `behind`; it can be evaluated for a
literal, it stays true when a name is filled in (`Calm.fill`), and it excludes all calls of
functions whose names end in those characters (`Line.calls_eq_false_of_calm`). A line without either
call is `Line.Inert`, and all but two kinds of lines are:

* `looksUp_lookupLine` — a lookup is the lookup of one id, since the quote marks around it are the
  only ones on its line;
* `filter_setsProperty_bindingLines` and `countP_looksUp_bindingLines` — the block of an element
  sets one custom property for each of its properties, and looks up this element once and no other
  one.
-/

namespace UtilityCss.Script

open UtilityCss.Text

/-! ### Names -/

/-- A text that is made of name characters. -/
def IsName (s : String) : Prop := ∀ c ∈ s.toList, isNameChar c = true

instance (s : String) : Decidable (IsName s) := List.decidableBAll _ s.toList

/-- Two names make a name. -/
theorem IsName.append {s t : String} (hs : IsName s) (ht : IsName t) : IsName (s ++ t) := by
  intro c hc
  rw [String.toList_append, List.mem_append] at hc
  exact hc.elim (hs c) (ht c)

/-- An id as a part of a variable name is a name, since all other characters were replaced. -/
theorem isName_identifier (id : String) : IsName (identifier id) := by
  intro c hc
  rw [identifier, String.toList_ofList] at hc
  obtain ⟨d, -, rfl⟩ := List.mem_map.mp hc
  split
  · next h =>
    rw [isNameChar]
    cases hd : d.isAlphanum <;> simp_all
  · rfl

theorem isNameChar_of_isAlpha {c : Char} (h : c.isAlpha = true) : isNameChar c = true := by
  simp [isNameChar, Char.isAlphanum, h]

/-- An ASCII letter stays one in upper case. -/
theorem isLetter_toUpper {c : Char} (h : isLetter c = true) : isLetter c.toUpper = true :=
  -- There are few letters, and all of them are checked.
  forall_ascii (P := fun c => isLetter c = true → isLetter c.toUpper = true) (by decide +kernel)
    (toNat_lt_of_isNameChar (isNameChar_of_isAlpha h)) h

/-- A property has hyphens besides its letters, and in camel case they are gone. -/
theorem isLetter_of_mem_camelFrom {name : List Char} (h : ∀ c ∈ name, isPropertyChar c = true)
    (raised : Bool) : ∀ c ∈ camelFrom raised name, isLetter c = true := by
  induction name generalizing raised with
  | nil => exact fun c hc => absurd hc List.not_mem_nil
  | cons d name ih =>
    obtain ⟨hd, hname⟩ := List.forall_mem_cons.mp h
    intro c hc
    rw [camelFrom] at hc
    split at hc
    · exact ih hname true c hc
    · next hyphen =>
      have hletter : isLetter d = true := by
        have hor : d.isAlpha = true ∨ d = '-' := by simpa [isPropertyChar] using hd
        exact hor.resolve_right hyphen
      rcases List.mem_cons.mp hc with rfl | hc
      · split
        · exact isLetter_toUpper hletter
        · exact hletter
      · exact ih hname false c hc

/-- A property in camel case is a name. -/
theorem isName_camelCase {property : String}
    (h : ∀ c ∈ property.toList, isPropertyChar c = true) : IsName (camelCase property) := by
  intro c hc
  rw [camelCase, String.toList_ofList] at hc
  exact isNameChar_of_isAlpha (isLetter_of_mem_camelFrom h false c hc)

/-- A property is a name. -/
theorem isName_of_isPropertyChar {s : String} (h : ∀ c ∈ s.toList, isPropertyChar c = true) :
    IsName s := by
  intro c hc
  have hor : c.isAlpha = true ∨ c = '-' := by simpa [isPropertyChar] using h c hc
  rcases hor with halpha | rfl
  · exact isNameChar_of_isAlpha halpha
  · rfl

/-- What is no name character is not in a name. -/
theorem IsName.notMem {s : String} (h : IsName s) {x : Char} (hx : isNameChar x = false) :
    x ∉ s.toList :=
  fun hmem => ne_of_test (h x hmem) hx rfl

/-! ### Calm texts -/

/-- Whether characters are on one line and open no parenthesis behind the given ones. -/
def calm (behind : List Char) : List Char → Bool
  | [] => true
  | c :: rest =>
    !(c == '\n' || c == '\r') && !(behind.contains c && rest.head? == some '(') && calm behind rest

/-- A text that does not open a parenthesis at once keeps a calm text calm. -/
theorem calm_append {behind s t : List Char} (ht : t.head? ≠ some '(') :
    calm behind (s ++ t) = (calm behind s && calm behind t) := by
  induction s with
  | nil => rfl
  | cons c s ih =>
    -- Where `s` ends, the next character is the first one of `t`.
    have hhead : ((s ++ t).head? == some '(') = (s.head? == some '(') := by
      cases s with
      | nil => simpa using ht
      | cons d s => rfl
    rw [List.cons_append, calm, calm, ih, hhead, Bool.and_assoc _ (calm behind s)]

/-- Behind a character that is not among the given ones, the next text may start as it likes. -/
theorem calm_append_of_getLast? {behind s : List Char} {x : Char} (hs : s.getLast? = some x)
    (hx : x ∉ behind) (t : List Char) :
    calm behind (s ++ t) = (calm behind s && calm behind t) := by
  obtain ⟨front, rfl⟩ := List.getLast?_eq_some_iff.mp hs
  -- The induction is over what comes before this last character.
  induction front with
  | nil => simp [calm, hx]
  | cons c front ih =>
    have hhead : (front ++ [x] ++ t).head? = (front ++ [x]).head? := by
      cases front <;> rfl
    rw [List.cons_append, List.cons_append, calm, calm, ih (by simp), hhead,
      Bool.and_assoc _ (calm behind (front ++ [x]))]

/-- Names are calm: they open nothing and end no line. -/
theorem calm_of_forall_isNameChar {behind chars : List Char}
    (h : ∀ c ∈ chars, isNameChar c = true) : calm behind chars = true := by
  induction chars with
  | nil => rfl
  | cons c chars ih =>
    obtain ⟨hc, hrest⟩ := List.forall_mem_cons.mp h
    have hopen : chars.head? ≠ some '(' := by
      intro hhead
      exact ne_of_test (hrest _ (List.mem_of_head? hhead)) rfl rfl
    have hfeed : c ≠ '\n' := ne_of_test hc rfl
    have hreturn : c ≠ '\r' := ne_of_test hc rfl
    rw [calm, ih hrest]
    simp [hfeed, hreturn, hopen]

/-- A calm text holds none of the pairs that would end a call. -/
theorem not_infix_of_calm {behind text : List Char} (h : calm behind text = true) {x : Char}
    (hx : x ∈ behind) : ¬ [x, '('] <:+: text := by
  induction text with
  | nil => simp
  | cons c rest ih =>
    rw [calm, Bool.and_eq_true, Bool.and_eq_true] at h
    obtain ⟨⟨-, hopen⟩, hrest⟩ := h
    rw [List.infix_cons_iff]
    rintro (hfront | hinfix)
    · -- The pair stands at the start, which the check of the first character rules out.
      obtain ⟨rfl, hparen⟩ := List.cons_prefix_cons.mp hfront
      obtain ⟨after, rfl⟩ := hparen
      simp [hx] at hopen
    · exact ih hrest hinfix

/-- A calm text has no line end. -/
theorem forall_mem_of_calm {behind text : List Char} (h : calm behind text = true) :
    ∀ c ∈ text, c ≠ '\n' ∧ c ≠ '\r' := by
  induction text with
  | nil => exact fun c hc => absurd hc List.not_mem_nil
  | cons d rest ih =>
    rw [calm, Bool.and_eq_true, Bool.and_eq_true] at h
    obtain ⟨⟨hd, -⟩, hrest⟩ := h
    intro c hc
    rcases List.mem_cons.mp hc with rfl | hc
    · simpa using hd
    · exact ih hrest c hc

/-- **A calm text** is on one line and opens no parenthesis behind the given characters. -/
def Calm (behind : List Char) (s : String) : Prop := calm behind s.toList = true

instance (behind : List Char) (s : String) : Decidable (Calm behind s) :=
  inferInstanceAs (Decidable (calm behind s.toList = true))

/-- A calm text that can stand behind anything, since it does not open a parenthesis at once. -/
def Follows (behind : List Char) (s : String) : Prop :=
  s.toList.head? ≠ some '(' ∧ Calm behind s

instance (behind : List Char) (s : String) : Decidable (Follows behind s) :=
  inferInstanceAs (Decidable (s.toList.head? ≠ some '(' ∧ Calm behind s))

namespace Calm

variable {behind : List Char} {s t name : String}

/-- Calm texts one after another. -/
theorem append (hs : Calm behind s) (ht : Follows behind t) : Calm behind (s ++ t) := by
  unfold Calm at hs ⊢
  rw [String.toList_append, calm_append ht.1, hs, ht.2]
  rfl

theorem of_isName (hname : IsName name) : Calm behind name :=
  calm_of_forall_isNameChar hname

/-- A name can be filled in anywhere. -/
theorem fill (hs : Calm behind s) (hname : IsName name) : Calm behind (s ++ name) := by
  refine hs.append ⟨?_, of_isName hname⟩
  intro hhead
  exact hname.notMem rfl (List.mem_of_head? hhead)

/-- A name can be filled in between two literals. -/
theorem hole (hs : Calm behind s) (hname : IsName name) (ht : Follows behind t) :
    Calm behind (s ++ name ++ t) :=
  (hs.fill hname).append ht

/-- Behind a character that is not among the given ones, a parenthesis may be opened. -/
theorem append_of_getLast? (hs : Calm behind s) {x : Char} (hlast : s.toList.getLast? = some x)
    (hx : x ∉ behind) (ht : Calm behind t) : Calm behind (s ++ t) := by
  unfold Calm at hs ht ⊢
  rw [String.toList_append, calm_append_of_getLast? hlast hx, hs, ht]
  rfl

end Calm

/-! ### Lines and what they call -/

namespace Line

/-- Whether a line calls a function. -/
def calls (function : String) (l : Line) : Bool :=
  contains (function ++ "(").toList l.text.toList

/-- Whether a line sets a custom property. -/
def setsProperty (l : Line) : Bool := l.calls "setProperty"

/-- Whether a line looks up the element with an id. -/
def looksUp (id : String) (l : Line) : Bool :=
  contains ("getElementById('" ++ id ++ "')").toList l.text.toList

/-- No line end stands in a single line. -/
def Single (l : Line) : Prop := ∀ c ∈ l.text.toList, c ≠ '\n' ∧ c ≠ '\r'

instance (l : Line) : Decidable l.Single := List.decidableBAll _ l.text.toList

/-- A line that does not call the lookup looks up no id. -/
theorem looksUp_eq_false {l : Line} (h : l.calls "getElementById" = false) (id : String) :
    l.looksUp id = false := by
  rw [Bool.eq_false_iff] at h ⊢
  intro hlooks
  apply h
  rw [looksUp, contains_iff_infix] at hlooks
  rw [calls, contains_iff_infix]
  refine List.IsInfix.trans ?_ hlooks
  exact ⟨[], ('\'' :: id.toList) ++ "')".toList, by simp⟩

/-- **A calm line calls no function** whose name ends in one of the given characters. -/
theorem calls_eq_false_of_calm {l : Line} {behind : List Char} (h : Calm behind l.text)
    {function : String} {x : Char} (hlast : function.toList.getLast? = some x) (hx : x ∈ behind) :
    l.calls function = false := by
  obtain ⟨front, hfront⟩ := List.getLast?_eq_some_iff.mp hlast
  rw [Bool.eq_false_iff]
  intro hcalls
  rw [calls, contains_iff_infix, String.toList_append, hfront] at hcalls
  -- The call ends in the last letter and the parenthesis, which a calm text does not hold.
  refine not_infix_of_calm h hx (List.IsInfix.trans ?_ hcalls)
  exact ⟨front, [], by simp⟩

/-- **An inert line** is a single line, sets no custom property and looks no element up. -/
structure Inert (l : Line) : Prop where
  single : l.Single
  setsProperty : l.setsProperty = false
  calls : l.calls "getElementById" = false

instance (l : Line) : Decidable l.Inert :=
  decidable_of_iff (l.Single ∧ l.setsProperty = false ∧ l.calls "getElementById" = false)
    ⟨fun ⟨single, setsProperty, calls⟩ => ⟨single, setsProperty, calls⟩,
      fun h => ⟨h.single, h.setsProperty, h.calls⟩⟩

/-- A line is inert if it is calm behind the last letters of both calls. -/
theorem inert_of_calm {l : Line} (h : Calm ['y', 'd'] l.text) : l.Inert where
  single := forall_mem_of_calm h
  setsProperty := calls_eq_false_of_calm h (x := 'y') rfl (by decide)
  calls := calls_eq_false_of_calm h (x := 'd') rfl (by decide)

end Line

/-- Inert lines set nothing. -/
theorem filter_setsProperty_of_inert {ls : List Line} (h : ∀ l ∈ ls, l.Inert) :
    ls.filter Line.setsProperty = [] := by
  rw [List.filter_eq_nil_iff]
  intro l hl
  rw [(h l hl).setsProperty]
  exact Bool.false_ne_true

/-- Inert lines look up nothing. -/
theorem countP_looksUp_of_inert {ls : List Line} (h : ∀ l ∈ ls, l.Inert) (id : String) :
    ls.countP (Line.looksUp id) = 0 := by
  rw [List.countP_eq_zero]
  intro l hl
  rw [Line.looksUp_eq_false (h l hl).calls]
  exact Bool.false_ne_true

/-! ### Lookups -/

/-- The line that looks up an element and keeps it in a variable. -/
def lookupLine (holder id : String) : Line :=
  ⟨2, "var " ++ holder ++ " = document.getElementById('" ++ id ++ "');"⟩

/-- Texts are cut in one way at the first place where a character stands. -/
theorem append_cons_inj_of_notMem {x : Char} {a b r s : List Char} (ha : x ∉ a) (hb : x ∉ b)
    (h : a ++ x :: r = b ++ x :: s) : a = b ∧ r = s := by
  induction a generalizing b with
  | nil =>
    cases b with
    | nil => exact ⟨rfl, (List.cons.inj h).2⟩
    | cons d b => exact absurd ((List.cons.inj h).1 ▸ List.mem_cons_self) hb
  | cons c a ih =>
    cases b with
    | nil => exact absurd ((List.cons.inj h).1 ▸ List.mem_cons_self) ha
    | cons d b =>
      obtain ⟨rfl, htail⟩ := List.cons.inj h
      obtain ⟨rfl, rfl⟩ := ih (fun hm => ha (List.mem_cons_of_mem c hm))
        (fun hm => hb (List.mem_cons_of_mem c hm)) htail
      exact ⟨rfl, rfl⟩

section Lookups

variable {holder id : String} (hholder : IsName holder) (hid : IsName id)
include hholder hid

/-- A lookup sets no custom property, whatever names are in it. -/
theorem calm_lookupLine : Calm ['y'] (lookupLine holder id).text := by
  have hstart : Calm ['y'] "var " := by decide
  exact (hstart.hole hholder (by decide)).hole hid (by decide)

/-- A lookup is left out where setters are collected. -/
theorem setsProperty_lookupLine : (lookupLine holder id).setsProperty = false :=
  Line.calls_eq_false_of_calm (calm_lookupLine hholder hid) (x := 'y') rfl (by decide)

/-- **A lookup is the lookup of one id**: no other id can be read out of its line. -/
theorem looksUp_lookupLine (other : String) :
    (lookupLine holder id).looksUp other = decide (other = id) := by
  have hquote : '\'' ∉ holder.toList ∧ '\'' ∉ id.toList := ⟨hholder.notMem rfl, hid.notMem rfl⟩
  rw [Bool.eq_iff_iff, decide_eq_true_iff, Line.looksUp, contains_iff_infix]
  constructor
  · rintro ⟨front, back, hsplit⟩
    have hsides : (front ++ "getElementById(".toList)
          ++ '\'' :: (other.toList ++ '\'' :: ')' :: back)
        = ("var ".toList ++ (holder.toList ++ " = document.getElementById(".toList))
          ++ '\'' :: (id.toList ++ '\'' :: ");".toList) := by
      simpa [lookupLine] using hsplit
    -- There are two quote marks on the right side, so those of the call are all there are.
    have hcount := congrArg (List.count '\'') hsides
    simp only [List.count_append, List.count_cons_self, List.count_eq_zero.mpr hquote.1,
      List.count_eq_zero.mpr hquote.2] at hcount
    have hliterals : "getElementById(".toList.count '\'' = 0 ∧ "var ".toList.count '\'' = 0 ∧
        " = document.getElementById(".toList.count '\'' = 0 ∧ ");".toList.count '\'' = 0 := by
      decide
    have hfront : '\'' ∉ front := List.count_eq_zero.mp (by omega)
    have hother : '\'' ∉ other.toList := List.count_eq_zero.mp (by omega)
    -- Cut both sides at the first quote mark, and what is behind it at the second one.
    have hleft : '\'' ∉ front ++ "getElementById(".toList := by simp [hfront]
    have hright :
        '\'' ∉ "var ".toList ++ (holder.toList ++ " = document.getElementById(".toList) := by
      simp [hquote.1]
    obtain ⟨-, hbehind⟩ := append_cons_inj_of_notMem hleft hright hsides
    obtain ⟨hname, -⟩ := append_cons_inj_of_notMem hother hquote.2 hbehind
    exact String.toList_inj.mp hname
  · rintro rfl
    exact ⟨("var " ++ holder ++ " = document.").toList, ";".toList, by simp [lookupLine]⟩

end Lookups

/-! ### Setters -/

/-- The expression that reads a property looks up nothing. -/
theorem calm_expression {holder : String} (hholder : IsName holder) {a : Accessor}
    (ha : ∀ name, a = .computedStyle name → IsName name) : Calm ['d'] (a.expression holder) := by
  unfold Accessor.expression
  -- Each accessor has literals around one to four holes.
  cases a with
  | offsetWidth | offsetHeight | clientWidth | clientHeight | offsetTop | offsetLeft =>
    exact (Calm.of_isName hholder).append (by decide)
  | contentWidth | contentHeight =>
    have hstart : Calm ['d'] "parseFloat(getComputedStyle(" := by decide
    exact hstart.hole hholder (by decide)
  | offsetRight | offsetBottom =>
    have hstart : Calm ['d'] "(" := by decide
    exact (((hstart.hole hholder (by decide)).hole hholder (by decide)).hole hholder
      (by decide)).hole hholder (by decide)
  | computedStyle name =>
    have hstart : Calm ['d'] "getComputedStyle(" := by decide
    exact (hstart.hole hholder (by decide)).fill (ha name rfl)

/-- A property that is read from the computed style is read in camel case. -/
theorem eq_camelCase_of_ofProperty {property name : String}
    (h : Accessor.ofProperty property = .computedStyle name) : name = camelCase property := by
  unfold Accessor.ofProperty at h
  -- The properties with an accessor of their own are passed one after another.
  repeat
    split at h
    · exact Accessor.noConfusion h
  exact (Accessor.computedStyle.inj h).symm

/-- The line that sets a custom property looks up nothing. -/
theorem calm_propertyLine {holder id property : String} (hholder : IsName holder) (hid : IsName id)
    (hproperty : ∀ c ∈ property.toList, isPropertyChar c = true) :
    Calm ['d'] (propertyLine id holder property).text := by
  have hvariable : IsName (Reference.variableName ⟨id, property⟩) := by
    have hdashes : IsName "--" := by decide
    have hdash : IsName "-" := by decide
    exact ((hdashes.append hid).append hdash).append (isName_of_isPropertyChar hproperty)
  have hexpression : Calm ['d'] ((Accessor.ofProperty property).expression holder) := by
    refine calm_expression hholder fun name hname => ?_
    rw [eq_camelCase_of_ofProperty hname]
    exact isName_camelCase hproperty
  -- The line is put together from left to right: the call, the variable, the expression.
  have hstart : Calm ['d'] "root.style.setProperty('" := by decide
  have hfront := hstart.hole (t := "', ") hvariable (by decide)
  -- The expression may open a parenthesis of its own, but a space stands before it.
  refine (hfront.append_of_getLast? (x := ' ') ?_ (by decide) hexpression).append (by decide)
  rw [String.toList_append, List.getLast?_append]
  rfl

/-- The line of a property sets a custom property. -/
theorem setsProperty_propertyLine (id holder property : String) :
    (propertyLine id holder property).setsProperty = true := by
  rw [Line.setsProperty, Line.calls, contains_iff_infix]
  refine ⟨"root.style.".toList, '\'' :: (Reference.variableName ⟨id, property⟩ ++ "', "
    ++ (Accessor.ofProperty property).expression holder ++ ");").toList, ?_⟩
  simp [propertyLine]

/-! ### Blocks -/

/-- The names of a binding are well formed, as those of references are. -/
structure Binding.Named (b : Binding) : Prop where
  element : IsName b.element
  properties : ∀ property ∈ b.properties, ∀ c ∈ property.toList, isPropertyChar c = true

instance (b : Binding) : Decidable b.Named :=
  decidable_of_iff (IsName b.element ∧
      (b.properties.all fun property => property.toList.all isPropertyChar) = true)
    ⟨fun h => ⟨h.1, by simpa using h.2⟩, fun h => ⟨h.1, by simpa using h.2⟩⟩

/-- The variable that holds the element of a binding. -/
def Binding.holder (b : Binding) : String := "el_" ++ identifier b.element

theorem Binding.isName_holder (b : Binding) : IsName b.holder :=
  IsName.append (by decide) (isName_identifier _)

/-- A line with one hole is inert if both literals are calm. -/
theorem inert_hole {indent : Nat} {front name back : String} (hfront : Calm ['y', 'd'] front)
    (hname : IsName name) (hback : Follows ['y', 'd'] back) :
    (⟨indent, front ++ name ++ back⟩ : Line).Inert :=
  Line.inert_of_calm (hfront.hole hname hback)

/-- **The block of an element**: its lookup, the lines that set custom properties, and inert lines
around them. -/
theorem bindingLines_eq {b : Binding} (hid : IsName b.element) :
    ∃ opening guard closing,
      bindingLines b = opening ++ lookupLine b.holder b.element :: guard
        ++ b.properties.map (propertyLine b.element b.holder) ++ closing ∧
      (∀ l ∈ opening, l.Inert) ∧ (∀ l ∈ guard, l.Inert) ∧ ∀ l ∈ closing, l.Inert := by
  refine ⟨[blankLine, ⟨2, "// #" ++ b.element⟩], [⟨2, "if (" ++ b.holder ++ ") \x7b"⟩],
    [⟨2, "\x7d else \x7b"⟩,
      ⟨3, "console.warn('[" ++ globalName ++ "] Element not found: #" ++ b.element ++ "');"⟩,
      ⟨2, "\x7d"⟩], rfl, ?_, ?_, ?_⟩
  · have hstart : Calm ['y', 'd'] "// #" := by decide
    have hcomment : (⟨2, "// #" ++ b.element⟩ : Line).Inert := Line.inert_of_calm (hstart.fill hid)
    simpa using ⟨by decide, hcomment⟩
  · have hguard : (⟨2, "if (" ++ b.holder ++ ") \x7b"⟩ : Line).Inert :=
      inert_hole (by decide) b.isName_holder (by decide)
    simpa using hguard
  · have hwarning : (⟨3, "console.warn('[" ++ globalName ++ "] Element not found: #" ++ b.element
        ++ "');"⟩ : Line).Inert :=
      inert_hole (by decide) hid (by decide)
    simpa using ⟨by decide, hwarning, by decide⟩

/-- **A block sets the custom properties of its binding and no other ones.** -/
theorem filter_setsProperty_bindingLines {b : Binding} (hb : b.Named) :
    (bindingLines b).filter Line.setsProperty
      = b.properties.map (propertyLine b.element b.holder) := by
  obtain ⟨opening, guard, closing, hlines, hopening, hguard, hclosing⟩ := bindingLines_eq hb.element
  -- The lookup and the inert lines drop out, and the property lines all stay.
  have hsetters : (b.properties.map (propertyLine b.element b.holder)).filter Line.setsProperty
      = b.properties.map (propertyLine b.element b.holder) := by
    rw [List.filter_eq_self]
    intro l hl
    obtain ⟨property, -, rfl⟩ := List.mem_map.mp hl
    exact setsProperty_propertyLine ..
  have hlookup : (lookupLine b.holder b.element).setsProperty = false :=
    setsProperty_lookupLine b.isName_holder hb.element
  calc (bindingLines b).filter Line.setsProperty
      = opening.filter Line.setsProperty
          ++ (lookupLine b.holder b.element :: guard).filter Line.setsProperty
          ++ (b.properties.map (propertyLine b.element b.holder)).filter Line.setsProperty
          ++ closing.filter Line.setsProperty := by
        rw [hlines, List.filter_append, List.filter_append, List.filter_append]
    _ = b.properties.map (propertyLine b.element b.holder) := by
        rw [filter_setsProperty_of_inert hopening, filter_setsProperty_of_inert hclosing,
          List.filter_cons, hlookup, filter_setsProperty_of_inert hguard, hsetters]
        simp

/-- **A block looks up its own element, once.** -/
theorem countP_looksUp_bindingLines {b : Binding} (hb : b.Named) (id : String) :
    (bindingLines b).countP (Line.looksUp id) = if id = b.element then 1 else 0 := by
  obtain ⟨opening, guard, closing, hlines, hopening, hguard, hclosing⟩ := bindingLines_eq hb.element
  -- A property line calls nothing that ends in a `d`.
  have hsetters : (b.properties.map (propertyLine b.element b.holder)).countP (Line.looksUp id)
      = 0 := by
    rw [List.countP_eq_zero]
    intro l hl
    obtain ⟨property, hproperty, rfl⟩ := List.mem_map.mp hl
    have hcalm := calm_propertyLine b.isName_holder hb.element (hb.properties property hproperty)
    rw [Line.looksUp_eq_false
      (Line.calls_eq_false_of_calm hcalm (x := 'd') rfl (by decide))]
    exact Bool.false_ne_true
  have hlookup := looksUp_lookupLine b.isName_holder hb.element id
  rw [hlines]
  simp [List.countP_append, List.countP_cons, countP_looksUp_of_inert hopening,
    countP_looksUp_of_inert hguard, countP_looksUp_of_inert hclosing, hsetters, hlookup]

/-- No line of a block is broken. -/
theorem single_of_mem_bindingLines {b : Binding} (hb : b.Named) :
    ∀ l ∈ bindingLines b, l.Single := by
  obtain ⟨opening, guard, closing, hlines, hopening, hguard, hclosing⟩ := bindingLines_eq hb.element
  intro l hl
  simp only [hlines, List.mem_append, List.mem_cons, List.mem_map] at hl
  -- The lookup and the setters are calm for one call each, which is enough here.
  rcases hl with ((hl | rfl | hl) | ⟨property, hproperty, rfl⟩) | hl
  · exact (hopening l hl).single
  · exact forall_mem_of_calm (calm_lookupLine b.isName_holder hb.element)
  · exact (hguard l hl).single
  · exact forall_mem_of_calm
      (calm_propertyLine b.isName_holder hb.element (hb.properties property hproperty))
  · exact (hclosing l hl).single

/-- A block stands inside a function, so none of its lines is where functions open and close. -/
theorem indent_of_mem_bindingLines {b : Binding} : ∀ l ∈ bindingLines b, l.indent ≠ 1 := by
  intro l hl
  simp only [bindingLines, List.mem_append, List.mem_cons, List.mem_map, List.not_mem_nil,
    or_false] at hl
  rcases hl with ((rfl | rfl | rfl | rfl) | ⟨property, -, rfl⟩) | rfl | rfl | rfl
  all_goals simp [blankLine, propertyLine]

theorem isName_source (id : String) : IsName ("source_" ++ identifier id) :=
  IsName.append (by decide) (isName_identifier _)

section ClassCopies

variable {id : String} (hid : IsName id)
include hid

/-- A line with the marker of a class copy in it is inert. -/
theorem inert_marker {indent : Nat} {front back : String} (hfront : Calm ['y', 'd'] front)
    (hback : Follows ['y', 'd'] back) :
    (⟨indent, front ++ ("#" ++ id ++ ".classes") ++ back⟩ : Line).Inert := by
  apply Line.inert_of_calm
  have hhash : Calm ['y', 'd'] (front ++ "#") := hfront.append (by decide)
  have hmarker : Calm ['y', 'd'] (front ++ "#" ++ id ++ ".classes") := hhash.hole hid (by decide)
  have hsame : front ++ "#" ++ id ++ ".classes" = front ++ ("#" ++ id ++ ".classes") := by
    simp only [String.append_assoc]
  rw [hsame] at hmarker
  exact hmarker.append hback

omit hid in
/-- No line of a class copy is where functions open and close. -/
theorem indent_of_mem_classCopyLines : ∀ l ∈ classCopyLines id, l.indent ≠ 1 := by
  have hindents : (classCopyLines id).map Line.indent
      = [0, 2, 2, 2, 3, 3, 4, 4, 5, 6, 5, 4, 3, 2, 3, 2] := rfl
  intro l hl hone
  have hmem : 1 ∈ (classCopyLines id).map Line.indent := hone ▸ List.mem_map_of_mem hl
  rw [hindents] at hmem
  exact absurd hmem (by decide)

/-- **The block that copies the classes of an element**: its lookup and inert lines around it. -/
theorem classCopyLines_eq :
    ∃ opening closing,
      classCopyLines id = opening ++ lookupLine ("source_" ++ identifier id) id :: closing ∧
        (∀ l ∈ opening, l.Inert) ∧ ∀ l ∈ closing, l.Inert := by
  have hclasses : IsName ("classes_" ++ identifier id) :=
    IsName.append (by decide) (isName_identifier _)
  have hcomment : (⟨2, "// " ++ ("#" ++ id ++ ".classes")⟩ : Line).Inert := by
    rw [← String.append_empty (s := "// " ++ ("#" ++ id ++ ".classes"))]
    exact inert_marker hid (by decide) (by decide)
  have hlist : (⟨3, "var " ++ ("classes_" ++ identifier id) ++ " = Array.from("
      ++ ("source_" ++ identifier id) ++ ".classList);"⟩ : Line).Inert := by
    have hstart : Calm ['y', 'd'] "var " := by decide
    exact inert_hole (hstart.hole hclasses (by decide)) (isName_source id) (by decide)
  have heach : (⟨4, ("classes_" ++ identifier id) ++ ".forEach(function(cls) \x7b"⟩ : Line).Inert :=
    Line.inert_of_calm ((Calm.of_isName hclasses).append (by decide))
  -- The lookup is the third line.
  refine ⟨(classCopyLines id).take 2, (classCopyLines id).drop 3, rfl, ?_, ?_⟩
  · exact List.forall_mem_cons.mpr ⟨by decide, List.forall_mem_singleton.mpr hcomment⟩
  · intro l hl
    simp only [classCopyLines, List.drop_succ_cons, List.drop_zero, List.mem_cons,
      List.not_mem_nil, or_false] at hl
    rcases hl with
      rfl | rfl | rfl | rfl | rfl | rfl | rfl | rfl | rfl | rfl | rfl | rfl | rfl
    -- The lines without names are checked by evaluation.
    any_goals decide
    · exact inert_hole (by decide) (isName_source id) (by decide)
    · exact hlist
    · exact inert_marker hid (by decide) (by decide)
    · exact inert_marker hid (by decide) (by decide)
    · exact heach
    · exact inert_hole (by decide) hid (by decide)

/-- Copying classes sets no custom property. -/
theorem filter_setsProperty_classCopyLines :
    (classCopyLines id).filter Line.setsProperty = [] := by
  obtain ⟨opening, closing, hlines, hopening, hclosing⟩ := classCopyLines_eq hid
  rw [hlines, List.filter_append, List.filter_cons,
    setsProperty_lookupLine (isName_source id) hid, filter_setsProperty_of_inert hopening,
    filter_setsProperty_of_inert hclosing]
  rfl

/-- **Copying classes looks up one element, once.** -/
theorem countP_looksUp_classCopyLines (other : String) :
    (classCopyLines id).countP (Line.looksUp other) = if other = id then 1 else 0 := by
  obtain ⟨opening, closing, hlines, hopening, hclosing⟩ := classCopyLines_eq hid
  rw [hlines, List.countP_append, List.countP_cons, looksUp_lookupLine (isName_source id) hid,
    countP_looksUp_of_inert hopening, countP_looksUp_of_inert hclosing]
  simp

/-- No line of a class copy is broken. -/
theorem single_of_mem_classCopyLines : ∀ l ∈ classCopyLines id, l.Single := by
  obtain ⟨opening, closing, hlines, hopening, hclosing⟩ := classCopyLines_eq hid
  intro l hl
  simp only [hlines, List.mem_append, List.mem_cons] at hl
  rcases hl with hl | rfl | hl
  · exact (hopening l hl).single
  · exact forall_mem_of_calm (calm_lookupLine (isName_source id) hid)
  · exact (hclosing l hl).single

end ClassCopies

end UtilityCss.Script
