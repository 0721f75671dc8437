import UtilityCss.Proofs.Passes
import UtilityCss.Proofs.RuntimeSupport
import UtilityCss.Proofs.Templates

/-!
# Names cannot break out of a script

The ids and properties in a runtime script come from markup that nobody has checked, and they are
written into string literals, comments and code without any escaping. That is safe because of what a
name is, and this file says what follows from it for the script as a whole.

`skeleton` lists the templates of a script. It is told the `Shape` of a plan only: how many elements
there are, how each of their properties is read, and how many class copies there are. A property
that is read from the computed style makes a line with one string literal and all others make a line
with two, so the number of properties alone does not decide (`accessor_changes_literals`); it does
decide the number of lines (`length_bodyLines`).

A plan fills the templates with its names (`Plan.map_line_fillings`), and all templates are sound
(`isSound_of_mem_skeleton`). What is left is that all names in a session are well formed, whatever
steps led to it (`script_fills_skeleton`).
-/

namespace UtilityCss

open UtilityCss.Text

namespace Script

/-! ### The skeleton of a script -/

/-- How a property is read, whatever its name is. -/
def Accessor.kind : Accessor → Accessor
  | computedStyle _ => computedStyle ""
  | a => a

/-- **The shape of a plan**: for each element how its properties are read, and the number of class
copies. -/
structure Shape where
  accessors : List (List Accessor)
  copies : Nat
deriving DecidableEq, Repr

def Plan.shape (p : Plan) : Shape where
  accessors := p.geometry.map fun b =>
    b.properties.map fun property => (Accessor.ofProperty property).kind
  copies := p.classCopies.length

/-- The variable that holds an element, with some text behind it. -/
def holderParts (text : String) : List Part := [.fixed "el_", .hole .identifier, .fixed text]

/-- The parts of the expression that reads a property. -/
def Accessor.parts : Accessor → List Part
  | offsetWidth => holderParts ".offsetWidth + 'px'"
  | offsetHeight => holderParts ".offsetHeight + 'px'"
  | clientWidth => holderParts ".clientWidth + 'px'"
  | clientHeight => holderParts ".clientHeight + 'px'"
  | contentWidth =>
    .fixed "parseFloat(getComputedStyle(" :: holderParts ").width) + 'px'"
  | contentHeight =>
    .fixed "parseFloat(getComputedStyle(" :: holderParts ").height) + 'px'"
  | offsetTop => holderParts ".offsetTop + 'px'"
  | offsetLeft => holderParts ".offsetLeft + 'px'"
  | offsetRight =>
    .fixed "(" :: holderParts ".offsetParent ? " ++ holderParts ".offsetParent.offsetWidth - "
      ++ holderParts ".offsetLeft - " ++ holderParts ".offsetWidth : 0) + 'px'"
  | offsetBottom =>
    .fixed "(" :: holderParts ".offsetParent ? " ++ holderParts ".offsetParent.offsetHeight - "
      ++ holderParts ".offsetTop - " ++ holderParts ".offsetHeight : 0) + 'px'"
  | computedStyle _ => .fixed "getComputedStyle(" :: holderParts ")." ++ [.hole .style]

namespace Template

/-- The line that sets a custom property. -/
def setter (a : Accessor) : Template :=
  ⟨3, [.fixed "root.style.setProperty('--", .hole .id, .fixed "-", .hole .property, .fixed "', "]
    ++ a.parts ++ [.fixed ");"]⟩

/-- The lines of a block before those that set custom properties. -/
def blockOpening : List Template :=
  [ofLine blankLine,
    ⟨2, [.fixed "// #", .hole .id]⟩,
    ⟨2, [.fixed "var el_", .hole .identifier, .fixed " = document.getElementById('", .hole .id,
      .fixed "');"]⟩,
    ⟨2, [.fixed "if (el_", .hole .identifier, .fixed ") \x7b"]⟩]

def blockClosing : List Template :=
  [ofLine ⟨2, "\x7d else \x7b"⟩,
    ⟨3, [.fixed "console.warn('[HUHM] Element not found: #", .hole .id, .fixed "');"]⟩,
    ofLine ⟨2, "\x7d"⟩]

/-- The lines that copy the classes of an element. -/
def classCopy : List Template :=
  [ofLine blankLine,
    ⟨2, [.fixed "// #", .hole .id, .fixed ".classes"]⟩,
    ⟨2, [.fixed "var source_", .hole .identifier, .fixed " = document.getElementById('", .hole .id,
      .fixed "');"]⟩,
    ⟨2, [.fixed "if (source_", .hole .identifier, .fixed ") \x7b"]⟩,
    ⟨3, [.fixed "var classes_", .hole .identifier, .fixed " = Array.from(source_",
      .hole .identifier, .fixed ".classList);"]⟩,
    ⟨3, [.fixed "document.querySelectorAll('[class*=\x22#", .hole .id,
      .fixed ".classes\x22]').forEach(function(target) \x7b"]⟩,
    ⟨4, [.fixed "target.className = target.className.split('#", .hole .id,
      .fixed ".classes').join(' ').replace(/\\s+/g, ' ').trim();"]⟩,
    ⟨4, [.fixed "classes_", .hole .identifier, .fixed ".forEach(function(cls) \x7b"]⟩,
    ofLine ⟨5, "if (!target.classList.contains(cls)) \x7b"⟩,
    ofLine ⟨6, "target.classList.add(cls);"⟩,
    ofLine ⟨5, "\x7d"⟩,
    ofLine ⟨4, "\x7d);"⟩,
    ofLine ⟨3, "\x7d);"⟩,
    ofLine ⟨2, "\x7d else \x7b"⟩,
    ⟨3, [.fixed "console.warn('[HUHM] Source element not found for class copy: #", .hole .id,
      .fixed "');"]⟩,
    ofLine ⟨2, "\x7d"⟩]

end Template

/-- The lines before the blocks of the elements, if there are such blocks. -/
def Shape.opening (s : Shape) : List Line :=
  [⟨0, "(function() \x7b"⟩, ⟨1, "'use strict';"⟩, blankLine, ⟨1, "function updateVariables() \x7b"⟩]
    ++ if s.accessors.isEmpty then [] else [⟨2, "var root = document.documentElement;"⟩]

/-- **The templates of a script**, for the shape of its plan. -/
def skeleton (s : Shape) : List Template :=
  s.opening.map .ofLine
    ++ s.accessors.flatMap (fun accessors =>
      Template.blockOpening ++ accessors.map Template.setter ++ Template.blockClosing)
    ++ middleLines.map .ofLine
    ++ (List.replicate s.copies Template.classCopy).flatten
    ++ endingLines.map .ofLine

/-- A template with the names for its holes. -/
abbrev Filling : Type := Template × Reference

def Filling.line (f : Filling) : Line := f.1.fill f.2

/-- Templates with the names of one element, which may have no property. -/
def fillings (id : String) (ts : List Template) : List Filling := ts.map fun t => (t, ⟨id, ""⟩)

/-- The lines of a block, as templates with names. -/
def Binding.fillings (b : Binding) : List Filling :=
  Script.fillings b.element Template.blockOpening
    ++ b.properties.map (fun property =>
      (Template.setter (Accessor.ofProperty property).kind, ⟨b.element, property⟩))
    ++ Script.fillings b.element Template.blockClosing

/-- **The lines of a plan, as templates with names.** -/
def Plan.fillings (p : Plan) : List Filling :=
  Script.fillings "" (p.shape.opening.map .ofLine)
    ++ p.geometry.flatMap Binding.fillings
    ++ Script.fillings "" (middleLines.map .ofLine)
    ++ p.classCopies.flatMap (fun id => Script.fillings id Template.classCopy)
    ++ Script.fillings "" (endingLines.map .ofLine)

/-- Filling templates keeps the templates. -/
theorem map_fst_fillings (id : String) (ts : List Template) :
    (fillings id ts).map Prod.fst = ts := by
  rw [fillings, List.map_map]
  exact List.map_id ts

/-- The templates depend on the shape alone. -/
theorem Plan.map_fst_fillings (p : Plan) : p.fillings.map Prod.fst = skeleton p.shape := by
  have hblock : ∀ b : Binding, b.fillings.map Prod.fst = Template.blockOpening
      ++ (b.properties.map fun property => (Accessor.ofProperty property).kind).map Template.setter
      ++ Template.blockClosing := by
    intro b
    simp only [Binding.fillings, List.map_append, Script.map_fst_fillings, List.map_map]
    rfl
  -- The ids of the copies are not used, so their number is all that counts.
  have hcopies : (p.classCopies.flatMap fun id => Template.classCopy)
      = (List.replicate p.classCopies.length Template.classCopy).flatten := by
    rw [List.flatMap_def, List.map_const']
  simp only [fillings, skeleton, List.map_append, Script.map_fst_fillings, List.map_flatMap, hblock,
    hcopies, shape, List.flatMap_map]

/-- A line without holes stays, whatever names it is filled with. -/
theorem map_line_ofLine (element : String) (ls : List Line) :
    (fillings element (ls.map .ofLine)).map Filling.line = ls := by
  rw [fillings, List.map_map, List.map_map]
  -- Such a template has no hole, so filling it gives the line back.
  have hid : (Filling.line ∘ fun t => (t, (⟨element, ""⟩ : Reference))) ∘ Template.ofLine = id := by
    funext l
    exact Template.fill_ofLine l _
  rw [hid, List.map_id]

/-- The parts of an expression make the expression. -/
theorem fillParts_parts (element property : String) :
    Template.fillParts ⟨element, property⟩ (Accessor.ofProperty property).kind.parts
      = ((Accessor.ofProperty property).expression ("el_" ++ identifier element)).toList := by
  unfold Accessor.expression
  cases h : Accessor.ofProperty property with
  | computedStyle name =>
    -- The name of the style property is written in camel case, which is what its hole stands for.
    rw [eq_camelCase_of_ofProperty h]
    simp [Accessor.kind, Accessor.parts, holderParts, Template.fillParts, Part.chars, Hole.name]
  | _ =>
    simp [Accessor.kind, Accessor.parts, holderParts, Template.fillParts, Part.chars, Hole.name]

/-- The template of a setter makes the line that sets a property. -/
theorem fill_setter (element property : String) :
    (Template.setter (Accessor.ofProperty property).kind).fill ⟨element, property⟩
      = propertyLine element ("el_" ++ identifier element) property := by
  refine Template.fill_eq_iff.mpr ⟨rfl, ?_⟩
  -- The name of the custom property comes before the expression, and a bracket behind it.
  rw [Template.setter, Template.fillParts_append, Template.fillParts_append, fillParts_parts]
  simp [propertyLine, Template.fillParts, Part.chars, Hole.name, Reference.variableName]

/-- **The templates of a block make its lines.** -/
theorem map_line_binding (b : Binding) : b.fillings.map Filling.line = bindingLines b := by
  rw [Binding.fillings, List.map_append, List.map_append, List.map_map, bindingLines]
  -- The lines before the setters, the setters and the lines behind them.
  refine congrArg₂ (· ++ ·) (congrArg₂ (· ++ ·) ?_ ?_) ?_
  · simp [fillings, Template.blockOpening, Filling.line, Template.fill_eq_iff, Template.fillParts,
      Part.chars, Hole.name, Template.ofLine]
  · exact List.map_congr_left fun property _ => fill_setter b.element property
  · simp [fillings, Template.blockClosing, Filling.line, Template.fill_eq_iff, Template.fillParts,
      Part.chars, Hole.name, Template.ofLine, globalName]

/-- The templates of a class copy make its lines. -/
theorem map_line_classCopy (id : String) :
    (fillings id Template.classCopy).map Filling.line = classCopyLines id := by
  simp [fillings, Template.classCopy, classCopyLines, Filling.line, Template.fill_eq_iff,
    Template.fillParts, Part.chars, Hole.name, Template.ofLine, globalName]

/-- **The lines of a plan are its templates with their holes filled.** -/
theorem Plan.map_line_fillings (p : Plan) : p.fillings.map Filling.line = bodyLines p := by
  -- Whether there is geometry can be seen from the shape.
  have hopening : p.shape.opening = openingLines p := by
    rw [Shape.opening, shape, List.isEmpty_map, openingLines, rootLines]
  have hblocks : (p.geometry.flatMap fun b => b.fillings.map Filling.line)
      = p.geometry.flatMap bindingLines :=
    congrArg (List.flatMap · p.geometry) (funext map_line_binding)
  have hcopies : (p.classCopies.flatMap fun id =>
      (Script.fillings id Template.classCopy).map Filling.line)
      = p.classCopies.flatMap classCopyLines :=
    congrArg (List.flatMap · p.classCopies) (funext map_line_classCopy)
  rw [bodyLines_eq, fillings]
  simp only [List.map_append, List.map_flatMap, map_line_ofLine, hopening, hblocks, hcopies,
    List.append_assoc]

/-- A block has seven lines and one for each property. -/
theorem length_flatMap_bindingLines (bs : List Binding) :
    (bs.flatMap bindingLines).length = 7 * bs.length + (bs.flatMap Binding.properties).length := by
  induction bs with
  | nil => rfl
  | cons b bs ih =>
    -- Four lines before those of the properties and three behind them.
    have hblock : (bindingLines b).length = 7 + b.properties.length := by
      simp only [bindingLines, List.length_append, List.length_map, List.length_cons,
        List.length_nil]
      omega
    rw [List.flatMap_cons, List.length_append, hblock, ih, List.flatMap_cons, List.length_append,
      List.length_cons]
    omega

/-- A class copy has sixteen lines. -/
theorem length_flatMap_classCopyLines (ids : List String) :
    (ids.flatMap classCopyLines).length = 16 * ids.length := by
  induction ids with
  | nil => rfl
  | cons id ids ih =>
    rw [List.flatMap_cons, List.length_append, ih, List.length_cons]
    show 16 + 16 * ids.length = _
    omega

/-- **The number of lines** depends on numbers alone: those of elements, properties and copies. -/
theorem length_bodyLines (p : Plan) :
    (bodyLines p).length = 30 + (if p.geometry.isEmpty then 0 else 1) + 7 * p.geometry.length
      + (p.geometry.flatMap Binding.properties).length + 16 * p.classCopies.length := by
  have hopening : (openingLines p).length = 4 + if p.geometry.isEmpty then 0 else 1 := by
    rw [openingLines, rootLines]
    split <;> rfl
  have hmiddle : middleLines.length = 3 := rfl
  have hending : endingLines.length = 23 := rfl
  -- The fixed lines are thirty, and one more if there is geometry.
  rw [bodyLines_eq]
  simp only [List.length_append, length_flatMap_bindingLines, length_flatMap_classCopyLines,
    hopening, hmiddle, hending]
  omega

/-! ### The names and the templates of a plan -/

/-- **Every hole is filled with a name**, if the names of the reference are well formed. -/
theorem isName_of_hole {r : Reference} (helement : IsName r.element)
    (hproperty : ∀ c ∈ r.property.toList, isPropertyChar c = true) (h : Hole) :
    IsName (h.name r) := by
  cases h with
  | id => exact helement
  | identifier => exact isName_identifier r.element
  | property => exact isName_of_isPropertyChar hproperty
  | style => exact isName_camelCase hproperty

theorem isName_of_mem_fillings {element : String} (helement : IsName element) {ts : List Template}
    {f : Filling} (hf : f ∈ fillings element ts) (h : Hole) : IsName (h.name f.2) := by
  obtain ⟨t, -, rfl⟩ := List.mem_map.mp hf
  exact isName_of_hole helement (fun c hc => absurd hc List.not_mem_nil) h

/-- Only names are filled in. -/
theorem Plan.Named.isName_of_mem_fillings {p : Plan} (hp : p.Named) {f : Filling}
    (hf : f ∈ p.fillings) (h : Hole) : IsName (h.name f.2) := by
  have hempty : IsName "" := fun c hc => absurd hc List.not_mem_nil
  simp only [Plan.fillings, List.mem_append, List.mem_flatMap] at hf
  -- The fixed lines are filled with the empty name, the others with names of the plan.
  rcases hf with (((hf | ⟨b, hb, hf⟩) | hf) | ⟨id, hid, hf⟩) | hf
  · exact Script.isName_of_mem_fillings hempty hf h
  · have hnamed := hp.geometry b hb
    simp only [Binding.fillings, List.mem_append, List.mem_map] at hf
    rcases hf with (hf | ⟨property, hproperty, rfl⟩) | hf
    · exact Script.isName_of_mem_fillings hnamed.element hf h
    · exact isName_of_hole hnamed.element (hnamed.properties property hproperty) h
    · exact Script.isName_of_mem_fillings hnamed.element hf h
  · exact Script.isName_of_mem_fillings hempty hf h
  · exact Script.isName_of_mem_fillings (hp.classCopies id hid) hf h
  · exact Script.isName_of_mem_fillings hempty hf h

/-- The templates of setters are sound. -/
theorem isSound_setter (a : Accessor) : (Template.setter a).isSound = true := by
  cases a with
  | computedStyle name =>
    -- The name of the style property is a hole and not a part of the template.
    show (Template.setter (.computedStyle "")).isSound = true
    decide
  | _ => decide

/-- The templates that do not depend on how a property is read. -/
def fixedTemplates : List Template :=
  (Shape.opening ⟨[[]], 0⟩).map .ofLine ++ Template.blockOpening ++ Template.blockClosing
    ++ middleLines.map .ofLine ++ Template.classCopy ++ endingLines.map .ofLine

/-- **Few templates make all skeletons**, so what holds of all templates can be checked. -/
theorem forall_mem_skeleton {test : Template → Bool} (hfixed : fixedTemplates.all test = true)
    (hsetter : ∀ a, test (Template.setter a) = true) {s : Shape} {t : Template}
    (ht : t ∈ skeleton s) : test t = true := by
  -- The opening of a plan with geometry has all lines that an opening can have.
  have hopening : s.opening ⊆ Shape.opening ⟨[[]], 0⟩ := by
    rw [Shape.opening]
    split
    · rw [List.append_nil]
      exact List.subset_append_left _ _
    · exact List.Subset.refl _
  simp only [fixedTemplates, List.all_append, Bool.and_eq_true, List.all_eq_true] at hfixed
  obtain ⟨⟨⟨⟨⟨hstart, hblock⟩, hclosing⟩, hmiddle⟩, hcopy⟩, hending⟩ := hfixed
  simp only [skeleton, List.mem_append, List.mem_flatMap, List.mem_flatten] at ht
  -- Each stretch of a skeleton has fixed templates or setters.
  rcases ht with (((ht | ⟨accessors, -, ht⟩) | ht) | ⟨ts, hts, ht⟩) | ht
  · exact hstart t (List.map_subset _ hopening ht)
  · rcases ht with (ht | ht) | ht
    · exact hblock t ht
    · obtain ⟨a, -, rfl⟩ := List.mem_map.mp ht
      exact hsetter a
    · exact hclosing t ht
  · exact hmiddle t ht
  · rw [List.eq_of_mem_replicate hts] at ht
    exact hcopy t ht
  · exact hending t ht

/-- No template of a skeleton has a hole behind a backslash or a literal that is not closed. -/
theorem isSound_of_mem_skeleton {s : Shape} {t : Template} (ht : t ∈ skeleton s) :
    t.isSound = true :=
  forall_mem_skeleton (by decide +kernel) isSound_setter ht

/-- All templates of a plan are sound. -/
theorem Plan.isSound_of_mem_fillings {p : Plan} {f : Filling} (hf : f ∈ p.fillings) :
    f.1.isSound = true := by
  apply isSound_of_mem_skeleton (s := p.shape)
  rw [← p.map_fst_fillings]
  exact List.mem_map.mpr ⟨f, hf, rfl⟩

/-- **The lines of a script are its filled templates**, if only names are filled in. They are read
back from the text, since no name brings in a line end. -/
theorem Plan.Named.lines_text {p : Plan} (hp : p.Named) :
    lines (text p none).toList
      = if p.isEmpty then [] else p.fillings.map fun f => (f.1.fill f.2).chars := by
  have hlines : p.fillings.map (fun f => (f.1.fill f.2).chars) = (bodyLines p).map Line.chars := by
    rw [← p.map_line_fillings, List.map_map]
    rfl
  rw [hlines]
  split
  · next hempty =>
    rw [text_of_isEmpty hempty]
    rfl
  · next hempty =>
    rw [text_none (Bool.eq_false_iff.mpr hempty)]
    exact lines_join_render (single_of_mem_bodyLines hp)

end Script

/-! ### The script of a session -/

namespace Session

/-- A marker has an id. -/
theorem ne_empty_of_mem_classCopyMarkers {source id : String} (h : id ∈ classCopyMarkers source) :
    id ≠ "" := by
  obtain ⟨value, -, hid⟩ := List.mem_flatMap.mp h
  obtain ⟨chars, hchars, rfl⟩ := List.mem_map.mp hid
  have hne : chars ≠ [] := (Markup.mem_classCopies_iff.mp hchars).ne_nil
  exact Reference.ofList_ne_empty (List.isEmpty_eq_false_iff.mpr hne)

section

variable (v : Vocabulary) (options : Options)

/-- Every class copy of a session was a marker in a text that it scanned. -/
theorem exists_marker_of_mem_classCopies {steps : List Step} {id : String}
    (h : id ∈ (after v options ∅ steps).classCopies.toList) :
    ∃ source, .scan source ∈ steps ∧ id ∈ classCopyMarkers source := by
  -- Only the steps since the last one that ends a pass count, and all of them gather.
  have hgathers : ∀ step ∈ pending steps, step.gathers = true :=
    fun step hstep => List.mem_rtakeWhile_imp hstep
  rw [after_eq_after_pending, after_of_gathers v options hgathers, classCopies_absorb,
    List.mem_eraseDups] at h
  obtain ⟨step, hstep, hid⟩ := List.mem_flatMap.mp h
  have hmem : step ∈ steps := (List.rtakeWhile_suffix _ _).subset hstep
  -- Of all steps only a scan yields class copies.
  cases step with
  | scan source => exact ⟨source, hmem, hid⟩
  | addClasses value => exact absurd hid List.not_mem_nil
  | reset => exact absurd hid List.not_mem_nil
  | compile => exact absurd hid List.not_mem_nil
  | run sources => exact absurd hid List.not_mem_nil

/-- Whatever a session has seen, only names are registered for class copies. -/
theorem isName_of_mem_registry {steps : List Step} {id : String}
    (h : id ∈ ((after v options ∅ steps).registry v).classCopies.toList) :
    id ≠ "" ∧ Script.IsName id := by
  rw [classCopies_registry] at h
  obtain ⟨source, -, hmarker⟩ := exists_marker_of_mem_classCopies v options h
  exact ⟨ne_empty_of_mem_classCopyMarkers hmarker, isName_of_mem_classCopyMarkers hmarker⟩

/-- Whatever a session has seen, only names are in its plan. -/
theorem named_plan (steps : List Step) :
    (Script.Plan.ofRegistry ((after v options ∅ steps).registry v)).Named :=
  Script.named_ofRegistry
    (fun _ hr => named_of_mem_references (references_after v options steps) v hr)
    fun _ hid => (isName_of_mem_registry v options hid).2

/-- **No source text can change what a script is made of.** After any sequence of steps over any
texts, all names in the registry are well formed. The script without comments is, line for line, a
skeleton that depends on the shape of the plan alone, filled with these names; none of them holds a
character that could change how the script is read, the string literals of a line are those of its
template with the names filled in, and the number of lines depends on numbers alone. A run is the
case in which all steps scan (`run_eq_compile_after`). -/
theorem script_fills_skeleton (steps : List Step) :
    let s := after v options ∅ steps
    let plan := Script.Plan.ofRegistry (s.registry v)
    let script := (s.compile v { options with minify := false, comments := false }).script
    (∀ r ∈ (s.registry v).references.toList, r.Named) ∧
    (∀ id ∈ (s.registry v).classCopies.toList, id ≠ "" ∧ Script.IsName id) ∧
    lines script.toList = (if plan.isEmpty then []
      else plan.fillings.map fun f => (f.1.fill f.2).chars) ∧
    plan.fillings.map Prod.fst = Script.skeleton plan.shape ∧
    (∀ f ∈ plan.fillings,
      (∀ hole : Script.Hole, ∀ c ∈ Script.delimiters, c ∉ (hole.name f.2).toList) ∧
      (f.1.fill f.2).segments = f.1.segments.map (Script.Template.fillParts f.2) ∧
      (f.1.fill f.2).text.toList.foldl Script.Quoting.next .code = .code) ∧
    plan.fillings.length = 30 + (if plan.geometry.isEmpty then 0 else 1)
      + 7 * plan.geometry.length + (plan.geometry.flatMap Script.Binding.properties).length
      + 16 * plan.classCopies.length := by
  intro s plan script
  have hreferences : ∀ r ∈ (s.registry v).references.toList, r.Named :=
    fun r hr => named_of_mem_references (references_after v options steps) v hr
  have hplan : plan.Named := named_plan v options steps
  -- Without minifying and comments, the script is the text of its plan and nothing else.
  refine ⟨hreferences, fun id hid => isName_of_mem_registry v options hid, hplan.lines_text,
    plan.map_fst_fillings, ?_, ?_⟩
  · intro f hf
    have hnames : ∀ hole : Script.Hole, Script.IsName (hole.name f.2) :=
      hplan.isName_of_mem_fillings hf
    -- A name has no delimiter, so it cannot open or close a literal of a sound template.
    have hsound : f.1.isSound = true := plan.isSound_of_mem_fillings hf
    exact ⟨fun hole c hc => (hnames hole).notMem_of_delimiter hc,
      Script.Template.segments_fill hnames hsound, Script.Template.foldl_next_fill hnames hsound⟩
  · -- Fillings and lines are as many.
    rw [← Script.length_bodyLines, ← plan.map_line_fillings, List.length_map]

end

/-- A width is read as a number that gets a unit, a color as it is. The two plans have one element
with one property each, and the scripts differ in the number of string literals. -/
theorem accessor_changes_literals :
    let v : Vocabulary := ⟨Table.ofList [("w", .single "width")], ∅, ∅⟩
    let options : Options := ⟨false, false, ""⟩
    let plan := fun source =>
      Script.Plan.ofRegistry ((after v options ∅ [.scan source]).registry v)
    let width := plan "<p class='w[#box:width + 1px]'>"
    let color := plan "<p class='w[#box:color + 1px]'>"
    width.geometry.map (fun b => b.properties.length) = [1] ∧
      color.geometry.map (fun b => b.properties.length) = [1] ∧
      width.classCopies = [] ∧ color.classCopies = [] ∧
      (Script.bodyLines width).map (fun l => l.segments.length)
        ≠ (Script.bodyLines color).map (fun l => l.segments.length) := by
  decide +kernel

end Session

end UtilityCss
