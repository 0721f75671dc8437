import UtilityCss.Proofs.RuntimeSupport

/-!
# The names of custom properties

The custom property of a reference is named after its element and its property, with a hyphen
between them. Both may hold hyphens themselves, so the name does not say where the id ends:
`#card:margin-top` and `#card-margin:top` have the same custom property, and of two elements that
both set it the one that comes last wins. This file says when that happens.

* `Reference.registrable_iff_named` — every reference with well-formed names can come out of an
  expression, in the parentheses of a function call for one whose property starts with a hyphen;
* `Reference.variableName_eq_iff` — two references share a name just if one `Shadows` the other: its
  property takes over what the id of the other has behind a hyphen;
* `Script.quoted_setterLine` — the script sets the custom property by that name;
* `Session.nodup_namesSet_iff` — so the script of a run sets every custom property once just if no
  reference of the run shadows another one.
-/

namespace UtilityCss

open UtilityCss.Text

/-! ### Expressions in a call -/

namespace Value

theorem spaced_of_inCall {s : Site} (h : s.inCall = true) : s.spaced = [s.char] := by
  simp [Site.spaced, Site.calculates, h]

/-- Nothing is spaced out in a call that is closed at the end. -/
theorem flatMap_spaced_of_inCall {x : Context} (hx : x.calls.any id = true) {body : List Char}
    (hbody : ∀ c ∈ body, c ≠ ')') :
    (sitesFrom x (body ++ [')'])).flatMap Site.spaced = body ++ [')'] := by
  induction body generalizing x with
  | nil => simp [sitesFrom, Context.site, Site.spaced]
  | cons c body ih =>
    obtain ⟨hc, hbody⟩ := List.forall_mem_cons.mp hbody
    -- A character that closes nothing leaves the call open.
    have hafter : (x.callsAfter c).any id = true := by
      unfold Context.callsAfter
      split
      · rw [List.any_cons, hx, Bool.or_true]
      · exact hx
    have hspaced : (x.site c (body ++ [')'])).spaced = [c] := spaced_of_inCall hafter
    rw [List.cons_append, sitesFrom, List.flatMap_cons, hspaced,
      ih (x := x.next c (body ++ [')'])) hafter hbody]
    rfl

/-- A text in the parentheses of a function call. -/
def callOf (body : List Char) : List Char := 'f' :: '(' :: (body ++ [')'])

/-- **An expression in a call is kept as it is** if it has no blanks. -/
theorem spaceOperators_expression_callOf {body : List Char} (hclose : ∀ c ∈ body, c ≠ ')')
    (hblank : ∀ c ∈ body, isBlank c = false) :
    spaceOperators (expression (callOf body)) = callOf body := by
  have hnone : ∀ c ∈ callOf body, isBlank c = false := by
    simp only [callOf, List.mem_cons, List.mem_append, List.not_mem_nil, or_false]
    rintro c (rfl | rfl | hc | rfl)
    · decide
    · decide
    · exact hblank c hc
    · decide
  -- It is not in brackets and has no blanks, so it is the expression as it stands.
  have hexpression : expression (callOf body) = callOf body := by
    rw [expression, trim_of_forall_not hnone]
    rfl
  -- Behind the name and the parenthesis everything is in the call.
  have hspaced : (sites (callOf body)).flatMap Site.spaced = callOf body := by
    rw [sites, callOf, sitesFrom, sitesFrom, List.flatMap_cons, List.flatMap_cons,
      flatMap_spaced_of_inCall (by rfl) hclose]
    rfl
  rw [hexpression, spaceOperators, hspaced, collapse_of_forall_not (by simp [callOf]) hnone]

end Value

namespace Reference

/-! ### References that can come up -/

/-- **A reference that some expression registers.** -/
def Registrable (r : Reference) : Prop := ∃ text, r ∈ Value.registered text

/-- A reference is read back from what it is written as, in front of any character that cannot
belong to its property. -/
theorem read_source_append {r : Reference} (h : r.Named) {x : Char}
    (hx : isPropertyChar x = false) (rest : List Char) :
    read (r.source ++ x :: rest) = some (r, r.source.length) := by
  -- The id is read up to the colon and the property up to `x`.
  have hid : (r.element.toList ++ ':' :: (r.property.toList ++ x :: rest)).takeWhile isNameChar
      = r.element.toList := takeWhile_append_cons h.element_chars (by decide) _
  have hproperty : (r.property.toList ++ x :: rest).takeWhile isPropertyChar = r.property.toList :=
    takeWhile_append_cons h.property_chars hx rest
  have hne : (r.element.toList.isEmpty || r.property.toList.isEmpty) = false := by
    simp [h.element_ne, h.property_ne]
  have htext : r.source ++ x :: rest
      = '#' :: (r.element.toList ++ ':' :: (r.property.toList ++ x :: rest)) := by simp [source]
  have hlength : r.source.length = 2 + r.element.toList.length + r.property.toList.length := by
    simp only [source, List.length_append, List.length_cons]
    omega
  rw [htext, read]
  dsimp only
  rw [hid, List.drop_left]
  simp only [hproperty, hne, Bool.false_eq_true, if_false, String.ofList_toList, hlength]

/-- A reference is written without blanks, and it closes no parenthesis. -/
theorem not_blank_of_mem_source {r : Reference} (h : r.Named) {c : Char} (hc : c ∈ r.source) :
    isBlank c = false ∧ c ≠ ')' := by
  have hname : isNameChar c = true → isBlank c = false ∧ c ≠ ')' :=
    fun hc => ⟨isBlank_of_isNameChar hc, ne_of_test hc (by decide)⟩
  simp only [source, List.cons_append, List.mem_cons, List.mem_append] at hc
  rcases hc with rfl | hc | rfl | hc
  · decide
  · exact hname (h.element_chars c hc)
  · decide
  · exact hname (Script.isName_of_isPropertyChar h.property_chars c hc)

/-- **The references that can come up are those with well-formed names.** -/
theorem registrable_iff_named {r : Reference} : r.Registrable ↔ r.Named := by
  constructor
  · rintro ⟨text, hr⟩
    exact (rewrites_pieces _).named r hr
  · intro h
    refine ⟨Value.callOf r.source, ?_⟩
    have hchars := fun c (hc : c ∈ r.source) => not_blank_of_mem_source h hc
    have hread : read (r.source ++ [')']) = some (r, r.source.length) :=
      read_source_append h (by decide) []
    show r ∈ (pieces read _).filterMap Piece.found?
    rw [Value.spaceOperators_expression_callOf (fun c hc => (hchars c hc).2)
      fun c hc => (hchars c hc).1]
    -- The scan passes over the name of the function and the parenthesis and reads the reference.
    rw [Value.callOf, pieces_cons_of_none rfl, pieces_cons_of_none rfl,
      pieces_of_some (by simp) hread]
    exact List.mem_cons_self

/-! ### Names that two references share -/

/-- **A reference that shadows another one**: the id of the other goes on behind a hyphen, and the
property starts with what it goes on with. An example is `#card:margin-top`, which shadows
`#card-margin:top`. -/
def Shadows (r r' : Reference) : Prop :=
  ∃ middle, r'.element = r.element ++ "-" ++ middle ∧ r.property = middle ++ "-" ++ r'.property

/-- Two ways to cut a text at a character: the same cut, or one before the other. -/
theorem append_cons_eq_append_cons_iff {x : Char} {a b c d : List Char} :
    a ++ x :: b = c ++ x :: d ↔
      (a = c ∧ b = d) ∨ (∃ m, c = a ++ x :: m ∧ b = m ++ x :: d) ∨
        ∃ m, a = c ++ x :: m ∧ d = m ++ x :: b := by
  constructor
  · intro h
    rcases List.append_eq_append_iff.mp h with ⟨m, hc, hb⟩ | ⟨m, ha, hd⟩
    · -- Between the two cuts there is nothing, or a text that starts with the character.
      cases m with
      | nil => exact .inl ⟨by simpa using hc.symm, (List.cons.inj hb).2⟩
      | cons y m =>
        obtain ⟨rfl, htail⟩ := List.cons.inj hb
        exact .inr (.inl ⟨m, hc, htail⟩)
    · cases m with
      | nil => exact .inl ⟨by simpa using ha, (List.cons.inj hd).2.symm⟩
      | cons y m =>
        obtain ⟨rfl, htail⟩ := List.cons.inj hd
        exact .inr (.inr ⟨m, ha, htail⟩)
  · rintro (⟨rfl, rfl⟩ | ⟨m, rfl, rfl⟩ | ⟨m, rfl, rfl⟩)
    · rfl
    · simp
    · simp

/-- Shadowing, said of characters. -/
theorem shadows_iff {r r' : Reference} :
    r.Shadows r' ↔ ∃ m, r'.element.toList = r.element.toList ++ '-' :: m ∧
      r.property.toList = m ++ '-' :: r'.property.toList := by
  constructor
  · rintro ⟨middle, helement, hproperty⟩
    exact ⟨middle.toList, by simp [helement], by simp [hproperty]⟩
  · rintro ⟨m, helement, hproperty⟩
    refine ⟨String.ofList m, ?_, ?_⟩
    · rw [← String.toList_inj, helement]
      simp
    · rw [← String.toList_inj, hproperty]
      simp

/-- No reference shadows itself: the id of the other is longer. -/
theorem Shadows.ne {r r' : Reference} (h : r.Shadows r') : r ≠ r' := by
  rintro rfl
  obtain ⟨m, helement, -⟩ := shadows_iff.mp h
  have hlength := congrArg List.length helement
  simp at hlength

/-- **Two references share a name just if they are the same or one shadows the other.** -/
theorem variableName_eq_iff (r r' : Reference) :
    r.variableName = r'.variableName ↔ r = r' ∨ r.Shadows r' ∨ r'.Shadows r := by
  have hname : ∀ p : Reference, p.variableName.toList
      = '-' :: '-' :: (p.element.toList ++ '-' :: p.property.toList) := fun p => by
    simp [variableName]
  have hsame : r = r' ↔ r.element.toList = r'.element.toList ∧
      r.property.toList = r'.property.toList := by
    cases r
    cases r'
    simp [String.toList_inj]
  -- The hyphen between the names is the character at which the name is cut.
  rw [← String.toList_inj, hname, hname, List.cons_inj_right, List.cons_inj_right,
    append_cons_eq_append_cons_iff, hsame, shadows_iff, shadows_iff]

theorem use_eq_iff (r r' : Reference) : r.use = r'.use ↔ r.variableName = r'.variableName := by
  simp [use]

end Reference

/-! ### Names that a script sets -/

namespace Script

/-- The text between the first two quotes of a line. -/
def Line.quoted (l : Line) : String :=
  String.ofList (((l.text.toList.dropWhile (· != '\x27')).drop 1).takeWhile (· != '\x27'))

/-- The name of a custom property is a name. -/
theorem isName_variableName {r : Reference} (h : r.Named) : IsName r.variableName := by
  have hhyphen : IsName "-" := by decide
  have hstart : IsName "--" := by decide
  exact ((hstart.append h.element_chars).append hhyphen).append
    (isName_of_isPropertyChar h.property_chars)

/-- **The name that the line of a reference sets** is that of its custom property. -/
theorem quoted_setterLine {r : Reference} (h : r.Named) :
    (setterLine r).quoted = r.variableName := by
  have htext : (setterLine r).text.toList = "root.style.setProperty(".toList
      ++ '\x27' :: (r.variableName.toList ++ '\x27' :: (", "
        ++ (Accessor.ofProperty r.property).expression ("el_" ++ identifier r.element)
        ++ ");").toList) := by
    simp [setterLine]
  have hfront : ∀ c ∈ "root.style.setProperty(".toList, (c != '\x27') = true :=
    List.all_eq_true.mp (by decide +kernel)
  -- A name has no quote, so the second quote is the one behind it.
  have hname : ∀ c ∈ r.variableName.toList, (c != '\x27') = true := by
    intro c hc
    exact bne_iff_ne.mpr (ne_of_test (isName_variableName h c hc) (by decide))
  rw [Line.quoted, htext, dropWhile_append_cons hfront (by decide), List.drop_one, List.tail_cons,
    takeWhile_append_cons hname (by decide), String.ofList_toList]

/-- **The custom properties that the script of a plan sets**, line by line. -/
def namesSet (p : Plan) : List String :=
  ((bodyLines p).filter Line.setsProperty).map Line.quoted

/-- A script sets the custom properties of the references that it serves. -/
theorem namesSet_ofRegistry_perm {r : Registry} (hreferences : ∀ p ∈ r.references.toList, p.Named)
    (hcopies : ∀ id ∈ r.classCopies.toList, IsName id) :
    (namesSet (Plan.ofRegistry r)).Perm (r.references.toList.map Reference.variableName) := by
  have hquoted : (r.references.toList.map setterLine).map Line.quoted
      = r.references.toList.map Reference.variableName := by
    rw [List.map_map]
    exact List.map_congr_left fun p hp => quoted_setterLine (hreferences p hp)
  -- The lines that set properties are those of the references, grouped by element.
  rw [namesSet, filter_setsProperty_bodyLines (named_ofRegistry hreferences hcopies), ← hquoted]
  exact ((Plan.bindings_ofRegistry_perm r).map _).map _

end Script

/-! ### Runs -/

namespace Session

/-- A run sets the custom properties of its references. -/
theorem namesSet_registry_perm (v : Vocabulary) (sources : List String) :
    (Script.namesSet (.ofRegistry ((sources.foldl scan ∅).registry v))).Perm
      (((sources.foldl scan ∅).registry v).references.toList.map Reference.variableName) := by
  refine Script.namesSet_ofRegistry_perm
    (fun _ hr => named_of_mem_references (references_scanAll sources) v hr) fun id hid => ?_
  rw [classCopies_registry] at hid
  exact isName_of_mem_classCopies hid

/-- **A run sets every custom property once** just if no reference of it shadows another one. -/
theorem nodup_namesSet_iff (v : Vocabulary) (sources : List String) :
    let registry := (sources.foldl scan ∅).registry v
    (Script.namesSet (.ofRegistry registry)).Nodup ↔
      ∀ r ∈ registry.references.toList, ∀ r' ∈ registry.references.toList, ¬ r.Shadows r' := by
  intro registry
  rw [(namesSet_registry_perm v sources).nodup_iff,
    List.nodup_map_iff_inj_on registry.references.nodup]
  constructor
  · intro h r hr r' hr' hshadows
    have hname := (Reference.variableName_eq_iff r r').mpr (.inr (.inl hshadows))
    exact hshadows.ne (h r hr r' hr' hname)
  · intro h r hr r' hr' hname
    rcases (Reference.variableName_eq_iff r r').mp hname with heq | hshadows | hshadows
    · exact heq
    · exact absurd hshadows (h r hr r' hr')
    · exact absurd hshadows (h r' hr' r hr)

/-- **When references share a custom property.** The references that expressions register are those
with well-formed names. Two of them have the same custom property, by its name, by its use in a
style sheet and by the name that the script sets, just if they are the same or one shadows the
other. So the script of a run sets no custom property twice just if no reference of the run shadows
another one. -/
theorem customProperty_shared_iff {r r' : Reference} (hr : r.Registrable) (hr' : r'.Registrable) :
    (∀ p : Reference, p.Registrable ↔ p.Named) ∧
      (r.variableName = r'.variableName ↔ r = r' ∨ r.Shadows r' ∨ r'.Shadows r) ∧
      (r.use = r'.use ↔ r = r' ∨ r.Shadows r' ∨ r'.Shadows r) ∧
      ((Script.setterLine r).quoted = (Script.setterLine r').quoted ↔
        r = r' ∨ r.Shadows r' ∨ r'.Shadows r) ∧
      ∀ (v : Vocabulary) (sources : List String),
        let registry := (sources.foldl scan ∅).registry v
        (Script.namesSet (.ofRegistry registry)).Nodup ↔
          ∀ p ∈ registry.references.toList, ∀ q ∈ registry.references.toList, ¬ p.Shadows q := by
  have hname := Reference.variableName_eq_iff r r'
  refine ⟨fun p => Reference.registrable_iff_named, hname,
    (Reference.use_eq_iff r r').trans hname, ?_, nodup_namesSet_iff⟩
  rw [Script.quoted_setterLine (Reference.registrable_iff_named.mp hr),
    Script.quoted_setterLine (Reference.registrable_iff_named.mp hr')]
  exact hname

/-- `#a:-b` shadows `#a-:b`: a hyphen can change sides. -/
theorem hyphen_on_either_side_shares_name :
    Reference.Registrable ⟨"a", "-b"⟩ ∧ Reference.Registrable ⟨"a-", "b"⟩ ∧
      Reference.variableName ⟨"a", "-b"⟩ = Reference.variableName ⟨"a-", "b"⟩ := by
  have hr : Reference.Registrable ⟨"a", "-b"⟩ := ⟨"f(#a:-b)".toList, by decide +kernel⟩
  have hr' : Reference.Registrable ⟨"a-", "b"⟩ := ⟨"#a-:b".toList, by decide +kernel⟩
  exact ⟨hr, hr', (customProperty_shared_iff hr hr').2.1.mpr (.inr (.inl ⟨"", rfl, rfl⟩))⟩

/-- **One custom property for two elements.** The margin of `card` and the top of `card-margin` are
registered as two references, and the script sets one custom property from both. -/
theorem card_margin_top_is_set_twice :
    let v : Vocabulary := ⟨Table.ofList [("w", .single "width")], ∅, ∅⟩
    let sources := ["<p class='w[#card:margin-top + #card-margin:top]'>"]
    let registry := (sources.foldl scan ∅).registry v
    registry.references.toList = [⟨"card", "margin-top"⟩, ⟨"card-margin", "top"⟩] ∧
      Script.namesSet (.ofRegistry registry) = ["--card-margin-top", "--card-margin-top"] := by
  intro v sources registry
  have hreferences : registry.references.toList
      = [⟨"card", "margin-top"⟩, ⟨"card-margin", "top"⟩] := by decide +kernel
  refine ⟨hreferences, ?_⟩
  -- Both references have the same name, so the order of the lines does not matter.
  have hsame : registry.references.toList.map Reference.variableName
      = List.replicate 2 "--card-margin-top" := by
    rw [hreferences]
    decide
  have hnames := namesSet_registry_perm v sources
  rw [hsame] at hnames
  exact List.perm_replicate.mp hnames

end Session

end UtilityCss
