import UtilityCss.Proofs.Breakpoints
import UtilityCss.Proofs.Shapes
import UtilityCss.Registry

/-!
# The two forms of a token

Reading a token looks at its shape alone, and at the token itself only to name it in a problem. Two
tokens of one shape therefore have the same reading but for that name. This is proved for each
function that reads a content, from the parts up to `Vocabulary.read_about`; `Reading.about` changes
the name. Brackets and pipes around the same text give one shape, so the two forms of a token mean
the same.
-/

namespace UtilityCss

open UtilityCss.Text

/-- A reading of a token whose problems are those of another token. -/
def Reading.about (token : String) (r : Reading) : Reading :=
  { r with diagnostics := r.diagnostics.map (Diagnostic.about token) }

namespace Vocabulary

variable (v : Vocabulary) (old new : String)

/-- What parts contribute to a meaning does not depend on the token that their problems name. -/
theorem contributions_about {readOld readNew : List Char → PartReading}
    (habout : ∀ part, readNew part = (readOld part).about new) (ps : List (List Char)) :
    (ps.map readNew).filterMap PartReading.base = (ps.map readOld).filterMap PartReading.base ∧
      (ps.map readNew).filterMap PartReading.rule = (ps.map readOld).filterMap PartReading.rule ∧
      (ps.map readNew).flatMap PartReading.references
        = (ps.map readOld).flatMap PartReading.references ∧
      (ps.map readNew).flatMap PartReading.diagnostics
        = ((ps.map readOld).flatMap PartReading.diagnostics).map (Diagnostic.about new) := by
  have hmap : ps.map readNew = (ps.map readOld).map (PartReading.about new) := by
    rw [List.map_map]
    exact List.map_congr_left fun part _ => habout part
  -- Only the last of the four looks at what was renamed.
  rw [hmap]
  refine ⟨?_, ?_, ?_, ?_⟩
  · rw [List.filterMap_map]
    rfl
  · rw [List.filterMap_map]
    rfl
  · rw [List.flatMap_map]
    rfl
  · rw [List.flatMap_map, List.map_flatMap]
    rfl

/-- A list of rules in another token: the same reading, but for the token that its problems name. -/
theorem readMediaQuery_about (property : Property) (content : List Char) :
    v.readMediaQuery new property content = (v.readMediaQuery old property content).about new := by
  obtain ⟨-, hrules, hreferences, hproblems⟩ :=
    contributions_about new (v.readMediaPart_about old new) (Value.parts content)
  rw [readMediaQuery, hrules, hreferences, hproblems]
  rfl

/-- A list of breakpoints by value in another token: the same reading, but for the token that its
problems name. -/
theorem readResponsive_about (property : Property) (content : List Char) :
    v.readResponsive new property content = (v.readResponsive old property content).about new := by
  obtain ⟨hbase, hrules, hreferences, hproblems⟩ :=
    contributions_about new (v.readResponsivePart_about old new) (Value.parts content)
  rw [readResponsive, hbase, hrules, hreferences, hproblems]
  rfl

/-- A value in brackets has no problems. -/
theorem bracketedValue_about (inner : List Char) :
    bracketedValue inner = (bracketedValue inner).about new := by
  unfold bracketedValue
  split
  · rfl
  · split <;> rfl

/-- The only problem that a single value can have is that it is no clamp, and it names the token. -/
theorem singleValue_about (content : List Char) :
    v.singleValue new content = (v.singleValue old content).about new := by
  unfold singleValue
  split
  · exact bracketedValue_about new _
  · split
    · rfl
    · split
      · rfl
      · split
        · -- Several parts are a clamp, or the problem that they are none.
          unfold clampValue
          split <;> rfl
        · rfl

/-- Any content in another token: the same reading, but for the token that its problems name. -/
theorem readContent_about (property : Property) (content : List Char) :
    v.readContent new property content = (v.readContent old property content).about new := by
  unfold readContent
  -- The form is decided on the content, which is the same for both tokens.
  split
  · exact v.readMediaQuery_about old new property content
  · split
    · exact v.readResponsive_about old new property content
    · rw [v.singleValue_about old new]
      rfl

/-- **Reading looks at the shape alone.** Tokens of one shape mean the same, and have the same
problems but for the token that these name. -/
theorem read_about {old new : String}
    (h : Token.shape? new.toList = Token.shape? old.toList) :
    v.read new = (v.read old).about new := by
  unfold read
  rw [h]
  -- The shape tells whether there is a name, and the vocabulary whether it is known.
  split
  · rfl
  · dsimp only
    split
    · rfl
    · exact v.readContent_about old new _ _

end Vocabulary

namespace Token

/-- **Tokens are the texts of one grammar, and its two forms mean the same.** A text has a shape
exactly if it is a name of letters with a trimmed content behind it, in brackets or in pipes and
between blanks; it is taken apart in one way only. Under any vocabulary, and for any registry that
the registered references are added to, brackets and pipes around the same text give the same
meaning, the same registry, and the same problems but for the token that these name. -/
theorem shape?_iff_written_and_forms_agree :
    (∀ (token : List Char) (shape : Shape),
      shape? token = some shape ↔ ∃ w : Written, w.text = token ∧ w.shape = shape) ∧
    (∀ w w' : Written, w.text = w'.text → w = w') ∧
    ∀ (v : Vocabulary) (r : Registry) (name inner : List Char),
      (∀ c ∈ name, isLetter c = true) → ∀ d d' : Delimiters,
        let reading := v.read (String.ofList (d.wrap name inner))
        let reading' := v.read (String.ofList (d'.wrap name inner))
        reading'.meaning = reading.meaning ∧
          r.addReferences reading'.references = r.addReferences reading.references ∧
          reading'.diagnostics
            = reading.diagnostics.map (Diagnostic.about (String.ofList (d'.wrap name inner))) := by
  refine ⟨fun token shape => ⟨exists_written_of_shape?, ?_⟩, Written.text_injective, ?_⟩
  · rintro ⟨w, rfl, rfl⟩
    exact w.shape?_text
  · intro v r name inner hname d d'
    -- Both texts have the same name and the same content, so they have the same shape.
    have hshape : shape? (String.ofList (d'.wrap name inner)).toList
        = shape? (String.ofList (d.wrap name inner)).toList := by
      rw [String.toList_ofList, String.toList_ofList, shape?_wrap hname, shape?_wrap hname]
    dsimp only
    rw [v.read_about hshape]
    exact ⟨rfl, rfl, rfl⟩

/-- A token in pipes with a pipe in its content and an unknown breakpoint. -/
theorem watch_rule_in_pipes :
    shape? "p| 1px:Watch, [|]\n|".toList = some ⟨['p'], "1px:Watch, [|]".toList⟩ ∧
      (Vocabulary.padding.read "p| 1px:Watch, [|]\n|").meaning
        = (Vocabulary.padding.read "p[ 1px:Watch, [|]\n]").meaning ∧
      (Vocabulary.padding.read "p| 1px:Watch, [|]\n|").diagnostics
        = (Vocabulary.padding.read "p[ 1px:Watch, [|]\n]").diagnostics.map
            (Diagnostic.about "p| 1px:Watch, [|]\n|") := by
  obtain ⟨hshape, -, hread⟩ := shape?_iff_written_and_forms_agree
  have hforms := hread .padding ∅ ['p'] " 1px:Watch, [|]\n".toList
    (List.forall_mem_singleton.mpr rfl) .brackets .pipes
  -- The shape is given with the blanks that are trimmed off its content.
  exact ⟨(hshape _ _).mpr ⟨⟨⟨['p'], "1px:Watch, [|]".toList⟩, .pipes, [' '], ['\n'], by decide,
    by decide, by decide, List.forall_mem_singleton.mpr rfl, List.forall_mem_singleton.mpr rfl⟩,
    rfl, rfl⟩, hforms.1, hforms.2.2⟩

end Token

end UtilityCss
