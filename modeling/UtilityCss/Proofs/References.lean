import UtilityCss.Proofs.Scanning
import UtilityCss.Token.Vocabulary

/-!
# The references of a value

A reference `#id:property` in a calculation is replaced by the custom property that carries it, and
the runtime script has to keep that property up to date. The two uses must agree: what is listed as
a reference of a value has to be what was replaced in its text.

`Reference.Rewrites` says what replacing is, one character or one reference at a time, and
`Value.ReadFrom` says of a value that its text came about in this way, from a part of the token and
with just the references that the value lists, or else from parts of the token that were not
rewritten at all. Reading a token gives no other values (`Vocabulary.readFrom_of_mem_read`): each
way to make a value has its own short lemma, and the branches of reading only choose between them
(`Vocabulary.origin_of_mem_read`). A consequence is that the names in references are made of name
characters, since that is all that `Reference.read` accepts.

The second half of the agreement is about effects. A reference is registered while a value is being
made, and at that time it is open whether the value will be kept: a rule can still be dropped for
its breakpoint, and of several values without a breakpoint all but one are. The last section goes
through the branches once more and shows that nothing comes of this. Reading registers exactly the
references of the values that it keeps, in their order (`Vocabulary.references_read`).
-/

namespace UtilityCss

open UtilityCss.Text

/-! ### Reading one reference -/

namespace Reference

/-- A reference as it is written in a token. -/
def source (r : Reference) : List Char := '#' :: r.element.toList ++ ':' :: r.property.toList

/-- The names of a reference are not empty, the id is made of name characters, and the property of
letters and hyphens. -/
structure Named (r : Reference) : Prop where
  element_ne : r.element ≠ ""
  element_chars : ∀ c ∈ r.element.toList, isNameChar c = true
  property_ne : r.property ≠ ""
  property_chars : ∀ c ∈ r.property.toList, isPropertyChar c = true

/-- A text with characters is not empty. -/
theorem ofList_ne_empty {chars : List Char} (h : chars.isEmpty = false) :
    String.ofList chars ≠ "" := by
  intro hempty
  have hnil : chars = [] := by simpa using congrArg String.toList hempty
  rw [hnil] at h
  exact Bool.noConfusion h

/-- What is left behind a longest run. -/
theorem drop_length_takeWhile (p : Char → Bool) (text : List Char) :
    text.drop (text.takeWhile p).length = text.dropWhile p := by
  have h : text.takeWhile p ++ text.dropWhile p = text := List.takeWhile_append_dropWhile
  calc text.drop (text.takeWhile p).length
      = (text.takeWhile p ++ text.dropWhile p).drop (text.takeWhile p).length := by rw [h]
    _ = text.dropWhile p := List.drop_left

/-- **What a reference that was read looks like**: it stands at the start of the text as it is
written, and its names are well formed. -/
theorem eq_append_of_read {text : List Char} {r : Reference} {n : Nat}
    (h : read text = some (r, n)) :
    ∃ rest, text = r.source ++ rest ∧ r.source.length = n ∧ r.Named := by
  unfold read at h
  split at h
  · next after =>
    -- The id is a longest run of name characters, and so is the property behind the colon.
    dsimp only at h
    rw [drop_length_takeWhile] at h
    have hafter : after.takeWhile isNameChar ++ after.dropWhile isNameChar = after :=
      List.takeWhile_append_dropWhile
    split at h
    · next tail htail =>
      have hsplit : tail.takeWhile isPropertyChar ++ tail.dropWhile isPropertyChar = tail :=
        List.takeWhile_append_dropWhile
      split at h
      · exact absurd h (by simp)
      · next hne =>
        rw [Bool.not_eq_true, Bool.or_eq_false_iff] at hne
        obtain ⟨rfl, rfl⟩ := Prod.mk.inj (Option.some.inj h)
        have hparts : after = after.takeWhile isNameChar ++
            ':' :: (tail.takeWhile isPropertyChar ++ tail.dropWhile isPropertyChar) := by
          rw [hsplit, ← htail, hafter]
        -- The text is put together again from its runs, and both names are runs.
        refine ⟨tail.dropWhile isPropertyChar, ?_, ?_, ?_⟩
        · simpa [source] using hparts
        · simp only [source, String.toList_ofList, List.length_append, List.length_cons]
          omega
        · have hid := List.all_eq_true.mp (List.all_takeWhile (p := isNameChar) (l := after))
          have hproperty :=
            List.all_eq_true.mp (List.all_takeWhile (p := isPropertyChar) (l := tail))
          exact
            { element_ne := ofList_ne_empty hne.1
              element_chars := by rwa [String.toList_ofList]
              property_ne := ofList_ne_empty hne.2
              property_chars := by rwa [String.toList_ofList] }
    · exact absurd h (by simp)
  · exact absurd h (by simp)

/-! ### Replacing references -/

/-- `Rewrites text references result`: in `result` the leftmost references of `text` that do not
overlap, which are the listed ones, are replaced by the use of their custom properties, and every
other character of `text` is kept. -/
inductive Rewrites : List Char → List Reference → List Char → Prop
  /-- An empty text. -/
  | nil : Rewrites [] [] []
  /-- A character at which no reference starts. -/
  | keep {c : Char} {text : List Char} {references : List Reference} {result : List Char} :
      read (c :: text) = none → Rewrites text references result →
        Rewrites (c :: text) references (c :: result)
  /-- A reference. -/
  | replace {r : Reference} {text : List Char} {references : List Reference}
      {result : List Char} {n : Nat} :
      read (r.source ++ text) = some (r, n) → Rewrites text references result →
        Rewrites (r.source ++ text) (r :: references) (r.use.toList ++ result)

/-- **A scan replaces the references that it finds.** -/
theorem rewrites_pieces (text : List Char) :
    Rewrites text ((pieces read text).filterMap Piece.found?)
      ((pieces read text).flatMap (Piece.text fun r => r.use.toList)) := by
  -- The induction is on the length, since a reference takes many characters at once.
  induction hlength : text.length using Nat.strongRecOn generalizing text with
  | _ n ih =>
    cases text with
    | nil => exact .nil
    | cons c rest =>
      cases hread : read (c :: rest) with
      | none =>
        rw [pieces_cons_of_none hread]
        refine .keep hread (ih rest.length ?_ rest rfl)
        rw [← hlength]
        exact Nat.lt_succ_self _
      | some result =>
        obtain ⟨r, k⟩ := result
        obtain ⟨after, htext, hk, -⟩ := eq_append_of_read hread
        -- A reference is not empty, so the scan moves on.
        obtain ⟨m, hm⟩ : ∃ m, k = m + 1 := by
          rw [← hk]
          exact ⟨_, rfl⟩
        have hdrop : (c :: rest).drop (m + 1) = after := by
          rw [← hm, ← hk, htext, List.drop_left]
        have hafter : after.length < n := by
          rw [← hlength, htext, List.length_append, hk, hm]
          omega
        rw [pieces_of_some (by simp) (hm ▸ hread), hdrop]
        rw [htext] at hread ⊢
        exact .replace hread (ih after.length hafter after rfl)

/-- The references that are replaced are well formed, since all of them were read. -/
theorem Rewrites.named {text result : List Char} {references : List Reference}
    (h : Rewrites text references result) : ∀ r ∈ references, r.Named := by
  induction h with
  | nil => exact fun r hr => absurd hr List.not_mem_nil
  | keep _ _ ih => exact ih
  | replace hread _ ih =>
    intro r hr
    rcases List.mem_cons.mp hr with rfl | hr
    · obtain ⟨_, _, _, hnamed⟩ := eq_append_of_read hread
      exact hnamed
    · exact ih r hr

end Reference

/-! ### Values -/

namespace Value

/-- **A value that was read from a token.** A calculation is a part of the token with its references
replaced, and it lists the references that were replaced. Any other value is made of parts of the
token as they are written, or is what the theme has for one. -/
inductive ReadFrom (theme : Theme) (token : List Char) : Value → Prop
  /-- A part as it is written. -/
  | verbatim {part : List Char} : part <:+: token →
      ReadFrom theme token (.verbatim (String.ofList part))
  /-- A part that is looked up in the theme. -/
  | named {part : List Char} : part <:+: token →
      ReadFrom theme token (.verbatim (theme.resolve (String.ofList part)))
  /-- Three parts of a clamp. -/
  | clamp {low ideal high : List Char} : low <:+: token → ideal <:+: token → high <:+: token →
      ReadFrom theme token
        (.clamp (String.ofList low) (String.ofList ideal) (String.ofList high))
  /-- Three channels of a colour. -/
  | rgb {red green blue : List Char} : red <:+: token → green <:+: token → blue <:+: token →
      ReadFrom theme token (.rgb (String.ofList red) (String.ofList green) (String.ofList blue))
  /-- A part whose references are replaced. -/
  | calculation {value : Value} {part result : List Char} : part <:+: token →
      Reference.Rewrites (spaceOperators part) value.references result →
      value.text = "calc(" ++ String.ofList result ++ ")" → ReadFrom theme token value

/-- Only a calculation lists references, and those were replaced in it. -/
theorem ReadFrom.named_references {theme : Theme} {token : List Char} {value : Value}
    (h : value.ReadFrom theme token) : ∀ r ∈ value.references, r.Named := by
  cases h with
  | calculation _ hrewrites _ => exact hrewrites.named
  | verbatim _ | named _ | clamp _ _ _ | rgb _ _ _ => exact fun r hr => absurd hr List.not_mem_nil

/-- What is inside parentheses is a stretch of the text. -/
theorem infix_of_unwrap? {text inner : List Char} (h : unwrap? text = some inner) :
    inner <:+: text := by
  unfold unwrap? at h
  split at h
  · next rest =>
    split at h
    · obtain rfl := Option.some.inj h
      refine (infix_trim _).trans ?_
      exact List.infix_cons (List.dropLast_prefix rest).isInfix
    · exact absurd h (by simp)
  · exact absurd h (by simp)

/-- An expression without its outer parentheses is a stretch of the text. -/
theorem infix_expression (text : List Char) : expression text <:+: text := by
  unfold expression
  cases hunwrap : unwrap? (trim text) with
  | none => exact infix_trim text
  | some inner => exact (infix_of_unwrap? hunwrap).trans (infix_trim text)

/-- Each part between commas is a stretch of the text. -/
theorem infix_of_mem_parts {text part : List Char} (h : part ∈ parts text) : part <:+: text := by
  obtain ⟨raw, hraw, rfl⟩ := List.mem_map.mp h
  exact (infix_trim raw).trans (infix_of_mem_cut hraw)

section ReadFrom

variable {theme : Theme} {token text : List Char} (htext : text <:+: token)
include htext

/-- A calculation is read from the text of its expression. -/
theorem readFrom_ofExpression : (ofExpression text).ReadFrom theme token :=
  .calculation ((infix_expression text).trans htext) (Reference.rewrites_pieces _) rfl

/-- The three parts of a clamp are parts of the text. -/
theorem readFrom_clampOf? {value : Value} (h : clampOf? (parts text) = some value) :
    value.ReadFrom theme token := by
  obtain ⟨low, ideal, high, hparts, rfl⟩ := clampOf?_eq_some_iff.mp h
  have hpart : ∀ part ∈ [low, ideal, high], part <:+: token := by
    intro part hpart
    rw [← hparts] at hpart
    exact (infix_of_mem_parts hpart).trans htext
  exact .clamp (hpart low (by simp)) (hpart ideal (by simp)) (hpart high (by simp))

/-- The three channels of a colour are parts of the text. -/
theorem readFrom_rgbOf? {value : Value} (h : rgbOf? text = some value) :
    value.ReadFrom theme token := by
  have hchannel : ∀ {raw : List Char} {channel : String}, raw ∈ cutAt (· == ',') text →
      channel? raw = some channel → ∃ part, part <:+: token ∧ channel = String.ofList part := by
    intro raw channel hraw hsome
    unfold channel? at hsome
    dsimp only at hsome
    split at hsome
    · obtain rfl := Option.some.inj hsome
      exact ⟨_, (infix_trim raw).trans ((infix_of_mem_cut hraw).trans htext), rfl⟩
    · exact absurd hsome (by simp)
  unfold rgbOf? at h
  split at h
  · next rawRed rawGreen rawBlue hcut =>
    -- All three channels are read, or there is no colour.
    simp only [Option.bind_eq_bind, Option.bind_eq_some_iff] at h
    obtain ⟨red, hred, green, hgreen, blue, hblue, hvalue⟩ := h
    obtain ⟨redPart, hredPart, rfl⟩ := hchannel (by simp [hcut]) hred
    obtain ⟨greenPart, hgreenPart, rfl⟩ := hchannel (by simp [hcut]) hgreen
    obtain ⟨bluePart, hbluePart, rfl⟩ := hchannel (by simp [hcut]) hblue
    obtain rfl := Option.some.inj hvalue
    exact .rgb hredPart hgreenPart hbluePart
  · exact absurd h (by simp)

end ReadFrom

end Value

/-! ### Readings -/

namespace Vocabulary

section ReadFrom

variable (v : Vocabulary) {name : String} {token text : List Char} (htext : text <:+: token)
include htext

/-- A plain value is looked up in the theme. -/
theorem readFrom_plainValue : (v.plainValue text).ReadFrom v.theme token := .named htext

/-- A clamp has three parts, and otherwise it is written as it is. -/
theorem readFrom_clampValue : (clampValue name text).value.ReadFrom v.theme token := by
  unfold clampValue
  split
  · next value hvalue => exact Value.readFrom_clampOf? htext hvalue
  · exact .verbatim ((infix_trim text).trans htext)

/-- The value under a breakpoint is a clamp, a calculation or a plain value. -/
theorem readFrom_mediaValue : (v.mediaValue name text).value.ReadFrom v.theme token := by
  unfold mediaValue
  split
  · exact v.readFrom_clampValue htext
  · split
    · exact Value.readFrom_ofExpression htext
    · exact v.readFrom_plainValue htext

/-- A value in parentheses is a clamp, a calculation or a text as it is written. -/
theorem readFrom_bracketedValue : (bracketedValue text).value.ReadFrom v.theme token := by
  unfold bracketedValue
  split
  · next value hvalue => exact Value.readFrom_clampOf? htext hvalue
  · split
    · exact Value.readFrom_ofExpression htext
    · exact .verbatim htext

/-- A single value is of one of the kinds above, or a colour. -/
theorem readFrom_singleValue : (v.singleValue name text).value.ReadFrom v.theme token := by
  unfold singleValue
  split
  · next inner hinner =>
    exact v.readFrom_bracketedValue ((Value.infix_of_unwrap? hinner).trans htext)
  · split
    · exact Value.readFrom_ofExpression htext
    · split
      · next value hvalue => exact Value.readFrom_rgbOf? htext hvalue
      · split
        · exact v.readFrom_clampValue htext
        · exact v.readFrom_plainValue htext

end ReadFrom

/-- **Where a value of a token comes from**: a stretch of the token that is looked up in the theme,
read as a single value, or read as the value under a breakpoint. -/
inductive Origin (v : Vocabulary) (name : String) (token : List Char) : Value → Prop
  /-- A value that may have a name. -/
  | plain {text : List Char} : text <:+: token → Origin v name token (v.plainValue text)
  /-- The value of a content that lists no breakpoints. -/
  | single {text : List Char} : text <:+: token →
      Origin v name token (v.singleValue name text).value
  /-- The value of a part under a breakpoint. -/
  | media {text : List Char} : text <:+: token →
      Origin v name token (v.mediaValue name text).value

/-- Wherever a value comes from, it was read from the token. -/
theorem Origin.readFrom {v : Vocabulary} {name : String} {token : List Char} {value : Value}
    (h : v.Origin name token value) : value.ReadFrom v.theme token := by
  cases h with
  | plain htext => exact v.readFrom_plainValue htext
  | single htext => exact v.readFrom_singleValue htext
  | media htext => exact v.readFrom_mediaValue htext

section Origin

variable (v : Vocabulary) {name : String} {token text : List Char} (htext : text <:+: token)
include htext

/-- The value of a part under a breakpoint is a stretch of the part. -/
theorem infix_of_mediaPart? {breakpoint inner : List Char}
    (h : mediaPart? text = some (breakpoint, inner)) : inner <:+: token := by
  refine List.IsInfix.trans ?_ htext
  unfold mediaPart? at h
  split at h
  · next rest =>
    dsimp only at h
    split at h
    · next tail htail =>
      split at h
      · obtain ⟨-, rfl⟩ := Prod.mk.inj (Option.some.inj h)
        -- What is between the brackets stands behind the name, and that behind the sign.
        have hbehind := List.drop_suffix (rest.takeWhile isNameChar).length rest
        rw [htail] at hbehind
        have hrest : tail <:+: rest := (List.suffix_cons '[' tail).isInfix.trans hbehind.isInfix
        refine (infix_trim _).trans ((List.dropLast_prefix tail).isInfix.trans ?_)
        exact List.infix_cons hrest
      · exact absurd h (by simp)
    · exact absurd h (by simp)
  · exact absurd h (by simp)

/-- A rule under a breakpoint has a value that was read from its part. -/
theorem origin_of_rule_readMediaPart {rule : MediaRule}
    (h : (v.readMediaPart name text).rule = some rule) : v.Origin name token rule.value := by
  unfold readMediaPart at h
  split at h
  · exact absurd h (by simp [PartReading.nothing])
  · next breakpoint inner hpart =>
    -- A part under an unknown breakpoint is dropped, and its references with it.
    dsimp only at h
    split at h
    · exact absurd h (by simp [PartReading.problem])
    · obtain rfl := Option.some.inj h
      exact .media (infix_of_mediaPart? htext hpart)

/-- A value before its breakpoint is a stretch of the part. -/
theorem infix_responsivePart : (responsivePart text).1 <:+: token := by
  refine List.IsInfix.trans ?_ htext
  unfold responsivePart
  split
  · exact List.infix_refl _
  · exact (infix_trim _).trans (List.takeWhile_prefix _).isInfix

/-- A part of a list of breakpoints by value gives a base value or a rule, from the same stretch. -/
theorem origin_of_readResponsivePart :
    (∀ value, (v.readResponsivePart name text).base = some value →
        v.Origin name token value) ∧
      ∀ rule, (v.readResponsivePart name text).rule = some rule →
        v.Origin name token rule.value := by
  unfold readResponsivePart
  -- These values are looked up in the theme and never rewritten.
  have hvalue : v.Origin name token _ := .plain (infix_responsivePart htext)
  dsimp only
  split
  · refine ⟨fun value h => ?_, fun rule h => absurd h (by simp)⟩
    obtain rfl := Option.some.inj h
    exact hvalue
  · split
    · exact ⟨fun value h => absurd h (by simp [PartReading.problem]),
        fun rule h => absurd h (by simp [PartReading.problem])⟩
    · refine ⟨fun value h => absurd h (by simp), fun rule h => ?_⟩
      obtain rfl := Option.some.inj h
      exact hvalue

/-- The values of a list of rules come from its parts. -/
theorem origin_of_mem_readMediaQuery {property : Property} {value : Value}
    (h : value ∈ (v.readMediaQuery name property text).meaning.values) :
    v.Origin name token value := by
  -- From the value back to its rule, the reading of its part, and the part itself.
  obtain ⟨rule, hrule, rfl⟩ := List.mem_map.mp h
  obtain ⟨reading, hreading, hsome⟩ := List.mem_filterMap.mp hrule
  obtain ⟨part, hpart, rfl⟩ := List.mem_map.mp hreading
  exact v.origin_of_rule_readMediaPart ((Value.infix_of_mem_parts hpart).trans htext) hsome

/-- The values of a list of breakpoints by value come from its parts. -/
theorem origin_of_mem_readResponsive {property : Property} {value : Value}
    (h : value ∈ (v.readResponsive name property text).meaning.values) :
    v.Origin name token value := by
  have hpart : ∀ part ∈ Value.parts text, part <:+: token :=
    fun part hpart => (Value.infix_of_mem_parts hpart).trans htext
  rcases List.mem_append.mp h with hbase | hrules
  · -- Of several values without a breakpoint the last one counts.
    have hlast := List.mem_of_getLast? (Option.mem_toList.mp hbase)
    obtain ⟨reading, hreading, hsome⟩ := List.mem_filterMap.mp hlast
    obtain ⟨part, hmem, rfl⟩ := List.mem_map.mp hreading
    exact (v.origin_of_readResponsivePart (hpart part hmem)).1 value hsome
  · -- All rules are kept.
    obtain ⟨rule, hrule, rfl⟩ := List.mem_map.mp hrules
    obtain ⟨reading, hreading, hsome⟩ := List.mem_filterMap.mp hrule
    obtain ⟨part, hmem, rfl⟩ := List.mem_map.mp hreading
    exact (v.origin_of_readResponsivePart (hpart part hmem)).2 rule hsome

end Origin

/-- What is between brackets is a stretch of the text. -/
theorem infix_of_between? {text inner : List Char} (h : Token.between? text = some inner) :
    inner <:+: text := by
  unfold Token.between? at h
  split at h
  · exact absurd h (by simp)
  · next c rest =>
    split at h
    · exact absurd h (by simp)
    · split at h
      · obtain rfl := Option.some.inj h
        exact List.infix_cons (List.dropLast_prefix rest).isInfix
      · exact absurd h (by simp)

/-- The content of a token is a stretch of it. -/
theorem infix_of_shape? {token : List Char} {shape : Token.Shape}
    (h : Token.shape? token = some shape) : shape.content <:+: token := by
  simp only [Token.shape?, Option.bind_eq_bind, Option.bind_eq_some_iff] at h
  obtain ⟨inner, hinner, hshape⟩ := h
  split at hshape
  · exact absurd hshape (by simp)
  · obtain rfl := Option.some.inj hshape
    refine (infix_trim inner).trans ((infix_of_between? hinner).trans ?_)
    exact (List.dropWhile_suffix _).isInfix

/-- **Every value of a token comes from a stretch of it.** -/
theorem origin_of_mem_read (v : Vocabulary) {token : String} {value : Value}
    (h : value ∈ (v.read token).meaning.values) : v.Origin token token.toList value := by
  unfold read at h
  split at h
  · exact absurd h (by simp [Meaning.values])
  · next shape hshape =>
    have hcontent := infix_of_shape? hshape
    dsimp only at h
    split at h
    · exact absurd h (by simp [Meaning.values])
    · unfold readContent at h
      split at h
      · exact v.origin_of_mem_readMediaQuery hcontent h
      · split at h
        · exact v.origin_of_mem_readResponsive hcontent h
        · -- Without breakpoints there is one value.
          rw [List.mem_singleton.mp h]
          exact .single hcontent

/-- **Every value of a token was read from it**, and lists the references that were replaced in
it. -/
theorem readFrom_of_mem_read (v : Vocabulary) {token : String} {value : Value}
    (h : value ∈ (v.read token).meaning.values) : value.ReadFrom v.theme token.toList :=
  (v.origin_of_mem_read h).readFrom

/-! ### What is registered -/

/-- Writing a calculation registers what it replaces. -/
theorem references_calculate (text : List Char) :
    (calculate text).references = (calculate text).value.references := rfl

/-- A clamp holds no reference: its parts are written as they are. -/
theorem references_of_clampOf? {parts : List (List Char)} {value : Value}
    (h : Value.clampOf? parts = some value) : value.references = [] := by
  obtain ⟨low, ideal, high, -, rfl⟩ := Value.clampOf?_eq_some_iff.mp h
  rfl

/-- A colour holds no reference: its channels are numbers. -/
theorem references_of_rgbOf? {text : List Char} {value : Value}
    (h : Value.rgbOf? text = some value) : value.references = [] := by
  unfold Value.rgbOf? at h
  split at h
  · simp only [Option.bind_eq_bind, Option.bind_eq_some_iff] at h
    obtain ⟨red, -, green, -, blue, -, hvalue⟩ := h
    obtain rfl := Option.some.inj hvalue
    rfl
  · exact absurd h (by simp)

/-- A clamp registers nothing. -/
theorem references_clampValue (token : String) (text : List Char) :
    (clampValue token text).references = (clampValue token text).value.references := by
  unfold clampValue
  split
  · next value hvalue => exact (references_of_clampOf? hvalue).symm
  · rfl

section Registered

variable (v : Vocabulary) (token : String)

/-- A value under a breakpoint registers its references. -/
theorem references_mediaValue (text : List Char) :
    (v.mediaValue token text).references = (v.mediaValue token text).value.references := by
  unfold mediaValue
  split
  · exact references_clampValue token text
  · split
    · exact references_calculate text
    · rfl

/-- A value in parentheses registers its references. -/
theorem references_bracketedValue (inner : List Char) :
    (bracketedValue inner).references = (bracketedValue inner).value.references := by
  unfold bracketedValue
  split
  · next value hvalue => exact (references_of_clampOf? hvalue).symm
  · split
    · exact references_calculate inner
    · rfl

/-- A single value registers its references. -/
theorem references_singleValue (content : List Char) :
    (v.singleValue token content).references = (v.singleValue token content).value.references := by
  unfold singleValue
  split
  · -- The branches are those of reading: parentheses, a calculation, a colour, a clamp, a plain
    -- value.
    next inner _ => exact references_bracketedValue inner
  · split
    · exact references_calculate content
    · split
      · next value hvalue => exact (references_of_rgbOf? hvalue).symm
      · split
        · exact references_clampValue token content
        · rfl

/-- A part under a breakpoint registers the references of its rule. Without a rule it registers
none, as the breakpoint is looked up before the value is read. -/
theorem references_readMediaPart (part : List Char) :
    (v.readMediaPart token part).references
      = (v.readMediaPart token part).rule.toList.flatMap fun rule => rule.value.references := by
  unfold readMediaPart
  split
  · rfl
  · next breakpoint inner _ =>
    dsimp only
    split
    · rfl
    · rw [Option.toList_some, List.flatMap_singleton]
      exact v.references_mediaValue token inner

/-- A part of a list of breakpoints by value registers nothing and holds no reference. -/
theorem references_readResponsivePart (part : List Char) :
    (v.readResponsivePart token part).references = [] ∧
      (∀ value ∈ (v.readResponsivePart token part).base, value.references = []) ∧
      ∀ rule ∈ (v.readResponsivePart token part).rule, rule.value.references = [] := by
  unfold readResponsivePart
  dsimp only
  split
  · -- Without a breakpoint the part is a base value, and with one it is a rule or nothing.
    refine ⟨rfl, fun value h => ?_, fun rule h => absurd h (by simp)⟩
    obtain rfl := Option.some.inj h
    rfl
  · split
    · exact ⟨rfl, fun value h => absurd h (by simp [PartReading.problem]),
        fun rule h => absurd h (by simp [PartReading.problem])⟩
    · refine ⟨rfl, fun value h => absurd h (by simp), fun rule h => ?_⟩
      obtain rfl := Option.some.inj h
      rfl

/-- A list of rules registers the references of the rules that it keeps, in their order. -/
theorem references_readMediaQuery (property : Property) (content : List Char) :
    (v.readMediaQuery token property content).references
      = (v.readMediaQuery token property content).meaning.references := by
  show ((Value.parts content).map (v.readMediaPart token)).flatMap PartReading.references
    = (((Value.parts content).map (v.readMediaPart token)).filterMap PartReading.rule
      |>.map MediaRule.value).flatMap Value.references
  induction Value.parts content with
  | nil => rfl
  | cons part parts ih =>
    rw [List.map_cons, List.flatMap_cons, ih, references_readMediaPart, List.filterMap_cons]
    -- The part has a rule, which brings its references along, or it adds nothing to either side.
    cases (v.readMediaPart token part).rule with
    | none => rfl
    | some rule => simp

/-- A list of breakpoints by value registers nothing, and none of its values holds a reference. So
it does not matter that all base values but the last are dropped. -/
theorem references_readResponsive (property : Property) (content : List Char) :
    (v.readResponsive token property content).references
      = (v.readResponsive token property content).meaning.references := by
  have hpart := fun part => v.references_readResponsivePart token part
  have hregistered : (v.readResponsive token property content).references = [] := by
    refine List.flatMap_eq_nil_iff.mpr fun reading hreading => ?_
    obtain ⟨part, -, rfl⟩ := List.mem_map.mp hreading
    exact (hpart part).1
  have hvalues : (v.readResponsive token property content).meaning.references = [] := by
    refine List.flatMap_eq_nil_iff.mpr fun value hvalue => ?_
    rcases List.mem_append.mp hvalue with hbase | hrules
    · have hlast := List.mem_of_getLast? (Option.mem_toList.mp hbase)
      obtain ⟨reading, hreading, hsome⟩ := List.mem_filterMap.mp hlast
      obtain ⟨part, -, rfl⟩ := List.mem_map.mp hreading
      exact (hpart part).2.1 value hsome
    · obtain ⟨rule, hrule, rfl⟩ := List.mem_map.mp hrules
      obtain ⟨reading, hreading, hsome⟩ := List.mem_filterMap.mp hrule
      obtain ⟨part, -, rfl⟩ := List.mem_map.mp hreading
      exact (hpart part).2.2 rule hsome
  rw [hregistered, hvalues]

/-- **What is registered is what is kept.** The references that reading a token registers are those
of the values of its meaning: none was registered for a value that was dropped later, and none was
replaced in a value that is kept without being registered. -/
theorem references_read : (v.read token).references = (v.read token).meaning.references := by
  unfold read
  split
  · rfl
  · next shape _ =>
    dsimp only
    split
    · rfl
    · unfold readContent
      split
      · -- The content is a list of rules, a list of breakpoints by value, or a single value.
        exact v.references_readMediaQuery token _ _
      · split
        · exact v.references_readResponsive token _ _
        · rw [Meaning.references, Meaning.values, List.flatMap_singleton]
          exact v.references_singleValue token _

end Registered

/-- Tokens of one meaning register the same references. -/
theorem references_read_congr {v : Vocabulary} {token token' : String}
    (h : (v.read token).meaning = (v.read token').meaning) :
    (v.read token).references = (v.read token').references := by
  rw [references_read, references_read, h]

end Vocabulary

end UtilityCss
