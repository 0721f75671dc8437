import UtilityCss.Proofs.FirstSeen
import UtilityCss.Proofs.References
import UtilityCss.Proofs.ScriptLines
import UtilityCss.Script.Minify
import Mathlib.Data.List.Nodup

/-!
# Scripts that serve a registry

A registry lists references and class copies; the script that serves it has a block for each element
and a block for each copy. This file follows a registry through the plan and the lines to the text:

* `geometry_ofRegistry` — the plan groups the references stably by element, and so it binds each of
  them once (`Plan.bindings_ofRegistry_perm`);
* `functionLines_updateVariables` and `functionLines_copyClasses` — the blocks of the elements are
  what the first function of the script consists of, and those of the copies are the second one;
* `serves_bodyLines` — the lines set one custom property for each reference, inside the block of its
  element, and look up each element once in each of its two roles, in the function for that role;
* `lines_join_render` — the lines of the text are the lines that were planned, since no line end can
  be smuggled in by a name;
* `text_eq_empty_iff` and `minify_text_eq_empty_iff` — there is a script just if there is something
  to do, minified or not. The minified case needs that the last line of a script outlives the
  removal of comments, whatever the header says.
-/

namespace UtilityCss.Script

open UtilityCss.Text

/-! ### The plan of a registry -/

/-- The properties that references read from an element. -/
def propertiesOf (references : List Reference) (id : String) : List String :=
  (references.filter fun r => r.element = id).map Reference.property

/-- The elements that references read from, each at its first place. -/
def elementsOf (references : List Reference) : List String :=
  (references.map Reference.element).eraseDups

/-- Grouping references is collecting properties under elements. -/
theorem groupByElement_eq_collect (references : List Reference) :
    groupByElement references
      = Table.collect ∅ (fun (properties : FirstSeen String) property => properties.insert property)
          ∅ (references.map fun r => (r.element, r.property)) := by
  rw [groupByElement, Table.collect, List.foldl_map]
  rfl

/-- The properties that are collected under an element. -/
theorem group_map (references : List Reference) (id : String) :
    Table.group id (references.map fun r => (r.element, r.property))
      = propertiesOf references id := by
  rw [Table.group, List.filter_map, List.map_map]
  rfl

/-- References that do not repeat read different properties from one element. -/
theorem nodup_propertiesOf {references : List Reference} (h : references.Nodup) (id : String) :
    (propertiesOf references id).Nodup := by
  refine List.pairwise_map.mpr (List.Pairwise.imp_of_mem ?_ (List.Pairwise.filter _ h))
  -- Two references to one element with one property would be the same reference.
  intro r s hr hs hne hproperty
  have helement : r.element = s.element := by
    rw [of_decide_eq_true (List.mem_filter.mp hr).2, of_decide_eq_true (List.mem_filter.mp hs).2]
  cases r
  cases s
  exact hne (by rw [Reference.mk.injEq]; exact ⟨helement, hproperty⟩)

/-- **The plan groups references by element**, elements and properties in first-seen order. -/
theorem geometry_ofRegistry (r : Registry) :
    (Plan.ofRegistry r).geometry
      = (elementsOf r.references.toList).map fun id =>
          ⟨id, propertiesOf r.references.toList id⟩ := by
  have hkeys : (r.references.toList.map fun p => (p.element, p.property)).map Prod.fst
      = r.references.toList.map Reference.element := by
    rw [List.map_map]
    rfl
  -- Inserting properties that do not repeat keeps all of them.
  have hproperties : ∀ id, ((propertiesOf r.references.toList id).foldl FirstSeen.insert ∅).toList
      = propertiesOf r.references.toList id := by
    intro id
    have hfold := FirstSeen.toList_ofList (propertiesOf r.references.toList id)
    rw [FirstSeen.eraseDups_of_nodup (nodup_propertiesOf r.references.nodup id)] at hfold
    exact hfold
  rw [Plan.ofRegistry, groupByElement_eq_collect, Table.entries_collect, hkeys, List.map_map]
  refine List.map_congr_left fun id _ => ?_
  rw [Function.comp_apply, group_map]
  exact congrArg (Binding.mk id) (hproperties id)

/-- A plan has nothing to do just if nothing was registered. -/
theorem isEmpty_ofRegistry (r : Registry) :
    (Plan.ofRegistry r).isEmpty = true ↔ r.references.toList = [] ∧ r.classCopies.toList = [] := by
  have hgeometry : (Plan.ofRegistry r).geometry = [] ↔ r.references.toList = [] := by
    rw [geometry_ofRegistry, List.map_eq_nil_iff, elementsOf, FirstSeen.eraseDups_eq_nil_iff,
      List.map_eq_nil_iff]
  rw [Plan.isEmpty, Bool.and_eq_true, List.isEmpty_iff, List.isEmpty_iff, hgeometry]
  rfl

/-- The elements and properties that a plan binds, block by block. -/
def Plan.bindings (p : Plan) : List Reference :=
  p.geometry.flatMap fun b => b.properties.map fun property => ⟨b.element, property⟩

/-- What a plan binds, in the order of the elements. -/
theorem Plan.bindings_ofRegistry (r : Registry) :
    (ofRegistry r).bindings
      = (elementsOf r.references.toList).flatMap fun id =>
          r.references.toList.filter fun p => p.element = id := by
  rw [bindings, geometry_ofRegistry, List.flatMap_map]
  refine List.flatMap_congr fun id _ => ?_
  -- Taking a reference to the element apart and putting it together again changes nothing.
  simp only [propertiesOf, List.map_map]
  refine (List.map_congr_left fun p hp => ?_).trans (List.map_id _)
  obtain rfl : p.element = id := of_decide_eq_true (List.mem_filter.mp hp).2
  rfl

/-- **A plan binds the references of its registry**, each once. -/
theorem Plan.bindings_ofRegistry_perm (r : Registry) :
    (ofRegistry r).bindings.Perm r.references.toList := by
  have hnodup : (ofRegistry r).bindings.Nodup := by
    rw [bindings_ofRegistry, List.nodup_flatMap]
    refine ⟨fun id _ => r.references.nodup.filter _, ?_⟩
    refine (FirstSeen.nodup_eraseDups _).imp fun hne p hp hp' => hne ?_
    -- A reference that is listed for two elements has both as its element.
    exact (of_decide_eq_true (List.mem_filter.mp hp).2).symm.trans
      (of_decide_eq_true (List.mem_filter.mp hp').2)
  refine (List.perm_ext_iff_of_nodup hnodup r.references.nodup).mpr fun p => ?_
  rw [bindings_ofRegistry, List.mem_flatMap]
  constructor
  · rintro ⟨id, -, hp⟩
    exact (List.mem_filter.mp hp).1
  · intro hp
    exact ⟨p.element, List.mem_eraseDups.mpr (List.mem_map.mpr ⟨p, hp, rfl⟩),
      List.mem_filter.mpr ⟨hp, decide_eq_true rfl⟩⟩

/-- The names of a plan are well formed. -/
structure Plan.Named (p : Plan) : Prop where
  geometry : ∀ b ∈ p.geometry, b.Named
  classCopies : ∀ id ∈ p.classCopies, IsName id

instance (p : Plan) : Decidable p.Named :=
  decidable_of_iff ((p.geometry.all fun b => decide b.Named) = true ∧
      (p.classCopies.all fun id => decide (IsName id)) = true)
    ⟨fun h => ⟨by simpa using h.1, by simpa using h.2⟩,
      fun h => ⟨by simpa using h.1, by simpa using h.2⟩⟩

/-! ### The lines of a plan -/

/-- The line that prepares the blocks of the elements, if there are any. -/
def rootLines (p : Plan) : List Line :=
  if p.geometry.isEmpty then [] else [⟨2, "var root = document.documentElement;"⟩]

/-- The lines before the blocks of the elements. -/
def openingLines (p : Plan) : List Line :=
  [⟨0, "(function() \x7b"⟩, ⟨1, "'use strict';"⟩, blankLine, ⟨1, "function updateVariables() \x7b"⟩]
    ++ rootLines p

/-- The lines behind all blocks. -/
def endingLines : List Line :=
  [⟨1, "\x7d"⟩, blankLine] ++ startLines ++ [⟨0, "\x7d)();"⟩]

/-- The lines between the blocks of the elements and those of the class copies. -/
def middleLines : List Line := [⟨1, "\x7d"⟩, blankLine, ⟨1, "function copyClasses() \x7b"⟩]

/-- The lines of a script: an opening, the blocks of both functions, and what stands between and
behind them. -/
theorem bodyLines_eq (p : Plan) :
    bodyLines p = openingLines p ++ p.geometry.flatMap bindingLines
      ++ (middleLines ++ p.classCopies.flatMap classCopyLines ++ endingLines) := by
  simp only [bodyLines, openingLines, rootLines, middleLines, endingLines, List.append_assoc]

/-- The line that prepares the blocks is inert. -/
theorem inert_of_mem_rootLines (p : Plan) : ∀ l ∈ rootLines p, l.Inert := by
  cases h : p.geometry.isEmpty
  · simp only [rootLines, h]
    decide
  · simp only [rootLines, h]
    decide

/-- The lines before the blocks of the elements are inert. -/
theorem inert_of_mem_openingLines (p : Plan) : ∀ l ∈ openingLines p, l.Inert :=
  List.forall_mem_append.mpr ⟨by decide, inert_of_mem_rootLines p⟩

/-- The lines between the two functions are inert. -/
theorem inert_of_mem_middleLines : ∀ l ∈ middleLines, l.Inert := by decide

/-- The lines behind all blocks are inert. -/
theorem inert_of_mem_endingLines : ∀ l ∈ endingLines, l.Inert := by decide +kernel

/-- Behind the blocks of the elements no custom property is set. -/
theorem setsProperty_of_mem_closing {p : Plan} (hp : p.Named) :
    ∀ l ∈ middleLines ++ p.classCopies.flatMap classCopyLines ++ endingLines,
      l.setsProperty = false := by
  intro l hl
  rw [List.mem_append, List.mem_append, List.mem_flatMap] at hl
  -- The copies look elements up and add classes, and they do no more.
  rcases hl with (hl | ⟨id, hid, hl⟩) | hl
  · exact (inert_of_mem_middleLines l hl).setsProperty
  · have hnone := filter_setsProperty_classCopyLines (hp.classCopies id hid)
    exact Bool.eq_false_iff.mpr (List.filter_eq_nil_iff.mp hnone l hl)
  · exact (inert_of_mem_endingLines l hl).setsProperty

/-- No line of a script is broken. -/
theorem single_of_mem_bodyLines {p : Plan} (hp : p.Named) : ∀ l ∈ bodyLines p, l.Single := by
  intro l hl
  simp only [bodyLines_eq, List.mem_append, List.mem_flatMap] at hl
  -- Only the blocks have names in them, and these are well formed.
  rcases hl with (hl | ⟨b, hb, hl⟩) | (hl | ⟨id, hid, hl⟩) | hl
  · exact (inert_of_mem_openingLines p l hl).single
  · exact single_of_mem_bindingLines (hp.geometry b hb) l hl
  · exact (inert_of_mem_middleLines l hl).single
  · exact single_of_mem_classCopyLines (hp.classCopies id hid) l hl
  · exact (inert_of_mem_endingLines l hl).single

/-- The line that keeps the custom property of a reference up to date. -/
def setterLine (r : Reference) : Line :=
  ⟨3, "root.style.setProperty('" ++ r.variableName ++ "', "
    ++ (Accessor.ofProperty r.property).expression ("el_" ++ identifier r.element) ++ ");"⟩

/-- The blocks of the elements set the custom properties of all bindings. -/
theorem filter_setsProperty_bindings {p : Plan} (hp : p.Named) :
    (p.geometry.flatMap bindingLines).filter Line.setsProperty = p.bindings.map setterLine := by
  rw [List.filter_flatMap, Plan.bindings, List.map_flatMap]
  refine List.flatMap_congr fun b hb => ?_
  rw [filter_setsProperty_bindingLines (hp.geometry b hb), List.map_map]
  rfl

/-- **The lines that set custom properties**: one for each binding. -/
theorem filter_setsProperty_bodyLines {p : Plan} (hp : p.Named) :
    (bodyLines p).filter Line.setsProperty = p.bindings.map setterLine := by
  have hclosing : (middleLines ++ p.classCopies.flatMap classCopyLines ++ endingLines).filter
      Line.setsProperty = [] :=
    List.filter_eq_nil_iff.mpr fun l hl =>
      Bool.eq_false_iff.mp (setsProperty_of_mem_closing hp l hl)
  -- Of the three stretches of a script only the blocks of the elements are left.
  rw [bodyLines_eq, List.filter_append, List.filter_append, filter_setsProperty_bindings hp,
    hclosing, filter_setsProperty_of_inert (inert_of_mem_openingLines p), List.nil_append,
    List.append_nil]

/-- Blocks that count for one item each count the item as often as it is listed. -/
theorem countP_flatMap_eq_count {α : Type} {block : α → List Line} {key : α → String}
    {test : Line → Bool} {id : String} {items : List α}
    (h : ∀ a ∈ items, (block a).countP test = if id = key a then 1 else 0) :
    (items.flatMap block).countP test = (items.map key).count id := by
  induction items with
  | nil => rfl
  | cons a items ih =>
    obtain ⟨ha, hitems⟩ := List.forall_mem_cons.mp h
    -- A count compares the other way round.
    have hflag : (if id = key a then 1 else 0) = if (key a == id) = true then 1 else 0 := by
      by_cases hid : id = key a
      · rw [if_pos hid, if_pos (beq_iff_eq.mpr hid.symm)]
      · rw [if_neg hid, if_neg fun hbeq => hid (beq_iff_eq.mp hbeq).symm]
    rw [List.flatMap_cons, List.countP_append, ha, ih hitems, List.map_cons, List.count_cons,
      Nat.add_comm, hflag]

/-- The blocks of the elements look up each element once for each block. -/
theorem countP_looksUp_bindings {p : Plan} (hp : p.Named) (id : String) :
    (p.geometry.flatMap bindingLines).countP (Line.looksUp id)
      = (p.geometry.map Binding.element).count id :=
  countP_flatMap_eq_count fun b hb => countP_looksUp_bindingLines (hp.geometry b hb) id

/-- The blocks of the class copies look up each id once for each copy. -/
theorem countP_looksUp_copies {p : Plan} (hp : p.Named) (id : String) :
    (p.classCopies.flatMap classCopyLines).countP (Line.looksUp id) = p.classCopies.count id := by
  have h : (p.classCopies.flatMap classCopyLines).countP (Line.looksUp id)
      = (p.classCopies.map fun copied => copied).count id :=
    countP_flatMap_eq_count fun copied hcopied =>
      countP_looksUp_classCopyLines (hp.classCopies copied hcopied) id
  rwa [List.map_id'] at h

/-- **An id is looked up once in each role that it has**: as an element whose geometry is read, and
as one whose classes are copied. -/
theorem countP_looksUp_bodyLines {p : Plan} (hp : p.Named) (id : String) :
    (bodyLines p).countP (Line.looksUp id)
      = (p.geometry.map Binding.element).count id + p.classCopies.count id := by
  rw [bodyLines_eq]
  -- Fixed lines look nothing up, so the blocks of both kinds are what counts.
  simp only [List.countP_append, countP_looksUp_bindings hp, countP_looksUp_copies hp,
    countP_looksUp_of_inert (inert_of_mem_openingLines p),
    countP_looksUp_of_inert inert_of_mem_middleLines,
    countP_looksUp_of_inert inert_of_mem_endingLines]
  omega

/-! ### The functions of a script -/

/-- The line that opens a function of a script. -/
def functionLine (name : String) : Line := ⟨1, "function " ++ name ++ "() \x7b"⟩

/-- The line that closes a function of a script. -/
def functionEnd : Line := ⟨1, "\x7d"⟩

/-- **The lines of a function**: those between the line that opens it and the next line that closes
a function. -/
def functionLines (name : String) (ls : List Line) : List Line :=
  ((ls.dropWhile (· != functionLine name)).drop 1).takeWhile (· != functionEnd)

/-- What is written between the two lines of a function is found there again. -/
theorem functionLines_append_cons {name : String} {before inside behind : List Line}
    (hbefore : functionLine name ∉ before) (hinside : functionEnd ∉ inside) :
    functionLines name (before ++ functionLine name :: (inside ++ functionEnd :: behind))
      = inside := by
  have hskip : ∀ l ∈ before, (l != functionLine name) = true :=
    fun l hl => bne_iff_ne.mpr fun h => hbefore (h ▸ hl)
  have hkeep : ∀ l ∈ inside, (l != functionEnd) = true :=
    fun l hl => bne_iff_ne.mpr fun h => hinside (h ▸ hl)
  rw [functionLines, List.dropWhile_append_of_pos hskip, List.dropWhile_cons_of_neg (by simp),
    List.drop_one, List.tail_cons, List.takeWhile_append_of_pos hkeep,
    List.takeWhile_cons_of_neg (by simp), List.append_nil]

/-- The blocks of the elements are indented further than the lines that open and close functions. -/
theorem indent_of_mem_bindings {p : Plan} :
    ∀ l ∈ p.geometry.flatMap bindingLines, l.indent ≠ 1 := by
  intro l hl
  obtain ⟨b, -, hl⟩ := List.mem_flatMap.mp hl
  exact indent_of_mem_bindingLines l hl

/-- The blocks of the class copies are indented further than the lines that open and close
functions. -/
theorem indent_of_mem_copies {p : Plan} :
    ∀ l ∈ p.classCopies.flatMap classCopyLines, l.indent ≠ 1 := by
  intro l hl
  obtain ⟨id, -, hl⟩ := List.mem_flatMap.mp hl
  exact indent_of_mem_classCopyLines l hl

/-- The line before the blocks of the elements is indented further than the lines that open and
close functions. -/
theorem indent_of_mem_rootLines {p : Plan} : ∀ l ∈ rootLines p, l.indent ≠ 1 := by
  cases h : p.geometry.isEmpty
  · simp only [rootLines, h]
    decide
  · simp only [rootLines, h]
    decide

/-- **`updateVariables` consists of the blocks of the elements**, behind the line that prepares
them. -/
theorem functionLines_updateVariables (p : Plan) :
    functionLines "updateVariables" (bodyLines p)
      = rootLines p ++ p.geometry.flatMap bindingLines := by
  have hlines : bodyLines p
      = [⟨0, "(function() \x7b"⟩, ⟨1, "'use strict';"⟩, blankLine]
        ++ functionLine "updateVariables" :: ((rootLines p ++ p.geometry.flatMap bindingLines)
          ++ functionEnd :: (blankLine :: functionLine "copyClasses"
            :: (p.classCopies.flatMap classCopyLines ++ endingLines))) := by
    rw [bodyLines_eq]
    simp only [openingLines, middleLines, List.append_assoc]
    rfl
  rw [hlines]
  -- The function ends where its lines do, since none of them is indented like its last line.
  refine functionLines_append_cons (by decide) fun hmem => ?_
  rcases List.mem_append.mp hmem with hmem | hmem
  · exact indent_of_mem_rootLines _ hmem rfl
  · exact indent_of_mem_bindings _ hmem rfl

/-- **`copyClasses` consists of the blocks of the class copies.** -/
theorem functionLines_copyClasses (p : Plan) :
    functionLines "copyClasses" (bodyLines p) = p.classCopies.flatMap classCopyLines := by
  have hlines : bodyLines p
      = (openingLines p ++ p.geometry.flatMap bindingLines ++ [functionEnd, blankLine])
        ++ functionLine "copyClasses" :: (p.classCopies.flatMap classCopyLines
          ++ functionEnd :: (blankLine :: (startLines ++ [⟨0, "\x7d)();"⟩]))) := by
    rw [bodyLines_eq]
    simp only [middleLines, endingLines, List.append_assoc]
    rfl
  rw [hlines]
  -- No line before it could be taken for the one that opens it.
  refine functionLines_append_cons (fun hmem => ?_) fun hmem => indent_of_mem_copies _ hmem rfl
  simp only [openingLines, List.mem_append] at hmem
  rcases hmem with ((hmem | hmem) | hmem) | hmem
  · exact absurd hmem (by decide)
  · exact indent_of_mem_rootLines _ hmem rfl
  · exact indent_of_mem_bindings _ hmem rfl
  · exact absurd hmem (by decide)

/-- Both functions are opened once. -/
theorem count_functionLine_bodyLines (p : Plan) {name : String}
    (h : name = "updateVariables" ∨ name = "copyClasses") :
    (bodyLines p).count (functionLine name) = 1 := by
  -- The blocks are indented further, so only the fixed lines are counted.
  have hblocks : ∀ ls : List Line, (∀ l ∈ ls, l.indent ≠ 1) → ls.count (functionLine name) = 0 :=
    fun ls hls => List.count_eq_zero.mpr fun hmem => hls _ hmem rfl
  rw [bodyLines_eq]
  simp only [openingLines, List.count_append, hblocks _ indent_of_mem_rootLines,
    hblocks _ indent_of_mem_bindings, hblocks _ indent_of_mem_copies]
  rcases h with rfl | rfl
  · decide +kernel
  · decide +kernel

/-! ### Serving references and class copies -/

/-- **What it means that lines serve references and class copies.** The lines declare two functions,
one for each kind, and what they do is said function by function. -/
structure Serves (references : List Reference) (classCopies : List String) (lines : List Line) :
    Prop where
  /-- Each function is declared once. -/
  declared : lines.count (functionLine "updateVariables") = 1 ∧
    lines.count (functionLine "copyClasses") = 1
  /-- `updateVariables` has one block for each element, in first-seen order, behind lines that
  neither set a custom property nor look an element up. -/
  blocks : ∃ head,
    functionLines "updateVariables" lines = head ++ (elementsOf references).flatMap
        (fun id => bindingLines ⟨id, propertiesOf references id⟩) ∧
      ∀ l ∈ head, l.setsProperty = false ∧ ∀ id, l.looksUp id = false
  /-- A block sets the custom property of each reference to its element once, in order, and no
  other one. -/
  setters : ∀ id ∈ elementsOf references,
    (bindingLines ⟨id, propertiesOf references id⟩).filter Line.setsProperty
      = (references.filter fun r => r.element = id).map setterLine
  /-- No custom property is set outside of `updateVariables`. -/
  noOtherSetters : lines.filter Line.setsProperty
    = (functionLines "updateVariables" lines).filter Line.setsProperty
  /-- A block looks its own element up once, and no other one. -/
  blockLookups : ∀ id ∈ elementsOf references, ∀ other,
    (bindingLines ⟨id, propertiesOf references id⟩).countP (Line.looksUp other)
      = if other = id then 1 else 0
  /-- `updateVariables` looks up each element of a reference once, and no other one. -/
  lookups : ∀ id, (functionLines "updateVariables" lines).countP (Line.looksUp id)
    = if id ∈ elementsOf references then 1 else 0
  /-- `copyClasses` looks up each element whose classes are copied once, and no other one. -/
  copyLookups : ∀ id, (functionLines "copyClasses" lines).countP (Line.looksUp id)
    = if id ∈ classCopies then 1 else 0
  /-- Nothing is looked up outside of the two functions. -/
  noOtherLookups : ∀ id, lines.countP (Line.looksUp id)
    = (functionLines "updateVariables" lines).countP (Line.looksUp id)
      + (functionLines "copyClasses" lines).countP (Line.looksUp id)

/-- The names of a plan are those of its references and class copies. -/
theorem named_ofRegistry {r : Registry} (hreferences : ∀ p ∈ r.references.toList, p.Named)
    (hcopies : ∀ id ∈ r.classCopies.toList, IsName id) : (Plan.ofRegistry r).Named where
  geometry := by
    intro b hb
    rw [geometry_ofRegistry] at hb
    obtain ⟨id, hid, rfl⟩ := List.mem_map.mp hb
    refine ⟨?_, ?_⟩
    · -- An element of the plan is the element of a reference, and a property is that of one, too.
      obtain ⟨p, hp, rfl⟩ := List.mem_map.mp (List.mem_eraseDups.mp hid)
      exact (hreferences p hp).element_chars
    · intro property hproperty
      obtain ⟨p, hp, rfl⟩ := List.mem_map.mp hproperty
      exact (hreferences p (List.mem_filter.mp hp).1).property_chars
  classCopies := hcopies

/-- **The lines of a plan serve the registry that it was made for.** -/
theorem serves_bodyLines {r : Registry} (hreferences : ∀ p ∈ r.references.toList, p.Named)
    (hcopies : ∀ id ∈ r.classCopies.toList, IsName id) :
    Serves r.references.toList r.classCopies.toList (bodyLines (Plan.ofRegistry r)) := by
  have hplan := named_ofRegistry hreferences hcopies
  -- The blocks of the statement are those of the plan.
  have hblock : ∀ id ∈ elementsOf r.references.toList,
      Binding.Named ⟨id, propertiesOf r.references.toList id⟩ := by
    intro id hid
    apply hplan.geometry
    rw [geometry_ofRegistry]
    exact List.mem_map.mpr ⟨id, hid, rfl⟩
  have helements : (Plan.ofRegistry r).geometry.map Binding.element
      = elementsOf r.references.toList := by
    rw [geometry_ofRegistry, List.map_map]
    exact List.map_id _
  have hroot := inert_of_mem_rootLines (Plan.ofRegistry r)
  constructor
  case declared =>
    exact ⟨count_functionLine_bodyLines _ (.inl rfl), count_functionLine_bodyLines _ (.inr rfl)⟩
  case blocks =>
    -- The head is the line that prepares the blocks, if there is one.
    refine ⟨rootLines (Plan.ofRegistry r), ?_, fun l hl => ⟨(hroot l hl).setsProperty,
      fun id => Line.looksUp_eq_false (hroot l hl).calls id⟩⟩
    rw [functionLines_updateVariables, geometry_ofRegistry, List.flatMap_map]
  case setters =>
    intro id hid
    rw [filter_setsProperty_bindingLines (hblock id hid), propertiesOf, List.map_map]
    refine List.map_congr_left fun p hp => ?_
    -- The references are those to this element, so its name stands in each of the lines.
    have hid : p.element = id := of_decide_eq_true (List.mem_filter.mp hp).2
    subst hid
    rfl
  case noOtherSetters =>
    rw [functionLines_updateVariables, List.filter_append, filter_setsProperty_of_inert hroot,
      List.nil_append, filter_setsProperty_bindings hplan, filter_setsProperty_bodyLines hplan]
  case blockLookups =>
    exact fun id hid => countP_looksUp_bindingLines (hblock id hid)
  -- Neither list of ids repeats one, so each function counts an id once or not at all.
  case lookups =>
    intro id
    have hnodup : (elementsOf r.references.toList).Nodup := FirstSeen.nodup_eraseDups _
    rw [functionLines_updateVariables, List.countP_append, countP_looksUp_of_inert hroot,
      countP_looksUp_bindings hplan, helements, hnodup.count, Nat.zero_add]
  case copyLookups =>
    intro id
    rw [functionLines_copyClasses, countP_looksUp_copies hplan]
    exact r.classCopies.nodup.count
  case noOtherLookups =>
    intro id
    rw [countP_looksUp_bodyLines hplan, functionLines_updateVariables, functionLines_copyClasses,
      List.countP_append, countP_looksUp_of_inert hroot, countP_looksUp_bindings hplan,
      countP_looksUp_copies hplan, Nat.zero_add]

/-! ### The text of a script -/

/-- The characters of a line, without its line end. -/
def Line.chars (l : Line) : List Char :=
  if l.text.isEmpty then [] else List.replicate (2 * l.indent) ' ' ++ l.text.toList

/-- A line is rendered with two spaces for each step of its indent. -/
theorem Line.toList_render (l : Line) : l.render.toList = l.chars ++ ['\n'] := by
  unfold render chars
  split
  · rfl
  · -- The indent is written as spaces in pairs.
    have hindent : ∀ n,
        (String.join (List.replicate n "  ")).toList = List.replicate (2 * n) ' ' := by
      intro n
      induction n with
      | zero => rfl
      | succ n ih =>
        rw [List.replicate_succ, String.join_cons, String.toList_append, ih]
        rfl
    rw [String.toList_append, String.toList_append, hindent]
    rfl

/-- The characters of rendered lines. -/
theorem toList_join_render (ls : List Line) :
    (String.join (ls.map Line.render)).toList = (ls.map Line.chars).flatMap (· ++ ['\n']) := by
  rw [String.toList_join, List.flatMap_map, List.flatMap_map]
  exact congrArg (fun f => ls.flatMap f) (funext Line.toList_render)

/-- A single line stays one when it is rendered. -/
theorem Line.Single.chars {l : Line} (h : l.Single) : ∀ c ∈ l.chars, c ≠ '\n' ∧ c ≠ '\r' := by
  intro c hc
  unfold Line.chars at hc
  split at hc
  · exact absurd hc List.not_mem_nil
  · rcases List.mem_append.mp hc with hspace | hc
    · rw [List.eq_of_mem_replicate hspace]
      decide
    · exact h c hc

/-- **The lines of a text are the lines that were rendered.** -/
theorem lines_join_render {ls : List Line} (h : ∀ l ∈ ls, l.Single) :
    lines (String.join (ls.map Line.render)).toList = ls.map Line.chars := by
  rw [toList_join_render]
  apply lines_flatMap
  intro row hrow
  obtain ⟨l, hl, rfl⟩ := List.mem_map.mp hrow
  exact (h l hl).chars

/-- The text of a header comment, if there is one. -/
def headerText (timestamp : Option String) : String :=
  String.join (((timestamp.map headerLines).getD []).map Line.render)

/-- The text of a script that has something to do is its header and its lines. -/
theorem text_eq {p : Plan} (h : p.isEmpty = false) (timestamp : Option String) :
    text p timestamp = headerText timestamp ++ String.join ((bodyLines p).map Line.render) := by
  rw [text, scriptLines, h, headerText, ← String.join_append, ← List.map_append]
  rfl

/-- Without a header the text is that of the lines alone. -/
theorem text_none {p : Plan} (h : p.isEmpty = false) :
    text p none = String.join ((bodyLines p).map Line.render) := by
  have hheader : headerText none = "" := rfl
  rw [text_eq h, hheader, String.empty_append]

/-- Without anything to do there is no text, and no header either. -/
theorem text_of_isEmpty {p : Plan} (h : p.isEmpty = true) (timestamp : Option String) :
    text p timestamp = "" := by
  rw [text, scriptLines, if_pos h]
  rfl

/-- Every script ends in the line that closes its function. -/
theorem exists_text_eq {p : Plan} (h : p.isEmpty = false) (timestamp : Option String) :
    ∃ front, (text p timestamp).toList = front ++ "\n\x7d)();\n".toList := by
  -- The line before the last one ends in a line feed, whatever it is.
  obtain ⟨ls, l, hbody⟩ : ∃ ls l, bodyLines p = ls ++ [l, ⟨0, "\x7d)();"⟩] := by
    refine ⟨openingLines p ++ p.geometry.flatMap bindingLines ++ (middleLines
      ++ p.classCopies.flatMap classCopyLines ++ endingLines.dropLast.dropLast),
      ⟨1, "window." ++ globalName ++ ".copyClasses = copyClasses;"⟩, ?_⟩
    simp only [bodyLines_eq, List.append_assoc]
    rfl
  refine ⟨(headerText timestamp).toList ++ (ls.map Line.chars).flatMap (· ++ ['\n']) ++ l.chars, ?_⟩
  rw [text_eq h, hbody, String.toList_append, toList_join_render, List.map_append,
    List.flatMap_append, List.append_assoc, List.append_assoc]
  simp [Line.chars]

/-- **There is no script just if there is nothing to do.** -/
theorem text_eq_empty_iff (p : Plan) (timestamp : Option String) :
    text p timestamp = "" ↔ p.isEmpty = true := by
  constructor
  · intro hempty
    -- With something to do the text would have a last line.
    refine Bool.of_not_eq_false fun h => ?_
    obtain ⟨front, hfront⟩ := exists_text_eq h timestamp
    rw [hempty] at hfront
    simp at hfront
  · exact fun h => text_of_isEmpty h timestamp

/-- **The last line outlives minification**, whatever stands before it. -/
theorem minifyChars_ne_nil (front : List Char) :
    minifyChars (front ++ "\n\x7d)();\n".toList) ≠ [] := by
  have hend : ¬ commentEnd <:+: "\n\x7d)();\n".toList := by
    rw [← contains_iff_infix]
    decide
  -- No comment of `front` can reach the last line, which has neither a star nor a slash.
  obtain ⟨kept, hkept⟩ := withoutComments_append hend (by decide) front
  have hlines : lines (kept ++ "\n\x7d)();\n".toList)
      = (cutAt (· == '\n') kept).map dropReturn ++ ["\x7d)();".toList] :=
    lines_append kept "\x7d)();\n".toList
  -- The last line stands alone behind a line end, it is trimmed already, and it is kept.
  have hmem : "\x7d)();".toList ∈
      ((lines (kept ++ "\n\x7d)();\n".toList)).map trim).filter keepsLine := by
    rw [hlines, List.map_append, List.filter_append]
    exact List.mem_append_right _ (by decide)
  intro hnil
  rw [minifyChars, hkept, List.flatten_eq_nil_iff] at hnil
  exact absurd (hnil _ hmem) (by decide)

/-- A minified script is empty just if there is nothing to do. -/
theorem minify_text_eq_empty_iff (p : Plan) (timestamp : Option String) :
    minify (text p timestamp) = "" ↔ p.isEmpty = true := by
  constructor
  · intro hempty
    refine Bool.of_not_eq_false fun h => ?_
    obtain ⟨front, hfront⟩ := exists_text_eq h timestamp
    have hchars : minifyChars (text p timestamp).toList = [] := by
      simpa [minify] using congrArg String.toList hempty
    -- With something to do the text ends in the line that outlives minification.
    rw [hfront] at hchars
    exact minifyChars_ne_nil front hchars
  · intro h
    rw [text_of_isEmpty h]
    decide

end UtilityCss.Script
