import UtilityCss.Proofs.Chunks
import UtilityCss.Proofs.ScriptPlan

/-!
# Lines with names in them

A line of a script is a `Template`, that is fixed parts and holes, with names in the holes. Literals
are told from code by cutting a line at the quote marks that open or close a literal, which is
`Text.cut` under the state `Quoting`.

A name is read without a cut and without a change of the state (`Quoting.uncut_of_isName`). So it
makes no difference whether a template is cut before or after its holes are filled
(`Template.segments_fill`), as long as the fixed parts are cut in the same way wherever they stand,
which is decided by evaluation (`Template.isSound`).
-/

namespace UtilityCss

open UtilityCss.Text

/-! ### Cutting a text in two steps -/

namespace Text

/-- Pieces in front of others, where the last one and the first of the others make one piece. -/
def joinPieces {α : Type} : List (List α) → List (List α) → List (List α)
  | [], others => others
  | [last], [] => [last]
  | [last], first :: others => (last ++ first) :: others
  | piece :: next :: pieces, others => piece :: joinPieces (next :: pieces) others

/-- A piece in front of others stays as it is, unless it is the last one. -/
theorem joinPieces_cons {α : Type} (piece : List α) {pieces : List (List α)} (h : pieces ≠ [])
    (others : List (List α)) :
    joinPieces (piece :: pieces) others = piece :: joinPieces pieces others := by
  cases pieces with
  | nil => exact absurd rfl h
  | cons next pieces => rfl

/-- Pieces can be changed before or after they are joined, if two texts can be changed one by
one. -/
theorem map_joinPieces {α β : Type} {g : List α → List β} (hg : ∀ a b, g (a ++ b) = g a ++ g b)
    (pieces others : List (List α)) :
    (joinPieces pieces others).map g = joinPieces (pieces.map g) (others.map g) := by
  induction pieces with
  | nil => rfl
  | cons piece pieces ih =>
    cases pieces with
    | cons next pieces =>
      rw [joinPieces, List.map_cons, ih]
      rfl
    | nil =>
      -- The last piece meets the first of the others here, and nowhere else.
      cases others with
      | nil => rfl
      | cons first others =>
        rw [joinPieces, List.map_cons, hg]
        rfl

/-- A character goes into the first piece before or after joining. -/
theorem joinPieces_consPiece (c : Char) {pieces : List (List Char)} (h : pieces ≠ [])
    (others : List (List Char)) :
    joinPieces (consPiece c pieces) others = consPiece c (joinPieces pieces others) := by
  cases pieces with
  | nil => exact absurd rfl h
  | cons piece pieces =>
    cases pieces with
    -- The only piece is the first and the last one, so it is also the one that is joined.
    | nil => cases others <;> rfl
    | cons next pieces => rfl

section

variable {σ : Type} {separates : σ → Char → Bool} {next : σ → Char → σ} {s t : σ}
  {text : List Char}

/-- **A text can be cut in two steps**, the second one from the state that the first one reaches. -/
theorem cut_append (s : σ) (front back : List Char) :
    cut separates next s (front ++ back)
      = joinPieces (cut separates next s front) (cut separates next (front.foldl next s) back) := by
  induction front generalizing s with
  -- An empty text is one empty piece, and joining it to the first piece changes nothing.
  | nil =>
    obtain ⟨piece, pieces, hcut⟩ := List.exists_cons_of_ne_nil (cut_ne_nil separates next s back)
    rw [List.nil_append, cut_nil, List.foldl_nil, hcut]
    rfl
  | cons c front ih =>
    have hne := cut_ne_nil separates next (next s c) front
    rw [List.cons_append, cut, cut, List.foldl_cons, ih]
    -- A separator ends a piece of the front, and any other character goes into its first piece.
    split
    · rw [joinPieces_cons _ hne]
    · rw [joinPieces_consPiece c hne]

/-- The state behind a text that is not cut. -/
theorem Uncut.foldl_eq (h : Uncut separates next s text t) : text.foldl next s = t := by
  induction h with
  | nil => rfl
  | cons _ _ ih => exact ih

end

end Text

namespace Script

/-! ### String literals -/

inductive QuoteMark where
  | single
  | double
  | grave
deriving DecidableEq, Repr

def QuoteMark.char : QuoteMark → Char
  | single => '\x27'
  | double => '\x22'
  | grave => '\x60'

def QuoteMark.ofChar? (c : Char) : Option QuoteMark :=
  [single, double, grave].find? fun mark => mark.char == c

/-- **Where a position of a script is**: in code, in a string literal, or right behind a backslash
in a string literal. -/
inductive Quoting where
  | code
  | literal (mark : QuoteMark)
  | escaped (mark : QuoteMark)
deriving DecidableEq, Repr

namespace Quoting

def next : Quoting → Char → Quoting
  | code, c => (QuoteMark.ofChar? c).elim code literal
  | literal mark, c =>
    if c = mark.char then code else if c = '\\' then escaped mark else literal mark
  | escaped mark, _ => literal mark

/-- Whether a character opens or closes a string literal. -/
def bounds : Quoting → Char → Bool
  | code, c => (QuoteMark.ofChar? c).isSome
  | literal mark, c => c == mark.char
  | escaped _, _ => false

def isEscaped : Quoting → Bool
  | escaped _ => true
  | _ => false

/-- **A name is read without a cut**, and the state does not change. -/
theorem uncut_of_isName {name : List Char} (h : ∀ c ∈ name, isNameChar c = true) {s : Quoting}
    (hs : s.isEscaped = false) : Uncut bounds next s name s := by
  induction name with
  | nil => exact .nil
  | cons c name ih =>
    obtain ⟨hc, hname⟩ := List.forall_mem_cons.mp h
    -- No quotation mark and no backslash is a name character, so nothing opens, closes or escapes.
    have hmark : ∀ mark : QuoteMark, c ≠ mark.char := by
      intro mark
      cases mark with
      | single => exact ne_of_test hc rfl
      | double => exact ne_of_test hc rfl
      | grave => exact ne_of_test hc rfl
    have hbackslash : c ≠ '\\' := ne_of_test hc rfl
    cases s with
    | code =>
      -- In code only a quotation mark opens a literal.
      have hnone : QuoteMark.ofChar? c = none := by
        rw [QuoteMark.ofChar?, List.find?_eq_none]
        intro mark _ hbeq
        exact hmark mark (beq_iff_eq.mp hbeq).symm
      refine .cons (by rw [bounds, hnone]; rfl) ?_
      rw [next, hnone]
      exact ih hname
    | literal mark =>
      -- In a literal only its own mark ends it, and only a backslash escapes.
      refine .cons (beq_eq_false_iff_ne.mpr (hmark mark)) ?_
      rw [next, if_neg (hmark mark), if_neg hbackslash]
      exact ih hname
    | escaped mark => exact Bool.noConfusion hs

end Quoting

/-- **The segments of a line**: code and string literals in turns, beginning with code. The marks
between them are dropped. -/
def Line.segments (l : Line) : List (List Char) :=
  cut Quoting.bounds Quoting.next .code l.text.toList

/-- The characters that could change how a script is read: those that open or close a literal,
escape a character, end a line, or make a comment. -/
def delimiters : List Char := ['\x27', '\x22', '\x60', '\\', '\n', '\r', '/', '*']

/-- No name holds a character that could change how a script is read. -/
theorem IsName.notMem_of_delimiter {name : String} (h : IsName name) {c : Char}
    (hc : c ∈ delimiters) : c ∉ name.toList := by
  -- None of the delimiters is a name character, which is decided one by one.
  have hnone : delimiters.all (fun c => !isNameChar c) = true := by decide
  have hnot := List.all_eq_true.mp hnone c hc
  rw [Bool.not_eq_true'] at hnot
  exact h.notMem hnot

/-! ### Templates -/

/-- What a hole of a line is filled with. -/
inductive Hole where
  | id
  /-- The id as a part of a variable name. -/
  | identifier
  | property
  /-- The property in camel case. -/
  | style
deriving DecidableEq, Repr

def Hole.name (r : Reference) : Hole → String
  | id => r.element
  | identifier => Script.identifier r.element
  | property => r.property
  | style => camelCase r.property

inductive Part where
  | fixed (text : String)
  | hole (hole : Hole)
deriving DecidableEq, Repr

/-- **A line with holes.** -/
structure Template where
  indent : Nat
  parts : List Part
deriving DecidableEq, Repr

namespace Part

def chars (r : Reference) : Part → List Char
  | fixed text => text.toList
  | hole h => (h.name r).toList

/-- The segments of a part that is read from a state. A hole is one segment. -/
def segments (s : Quoting) : Part → List (List Part)
  | fixed text => (cut Quoting.bounds Quoting.next s text.toList).map fun piece =>
      [fixed (String.ofList piece)]
  | hole h => [[hole h]]

def after (s : Quoting) : Part → Quoting
  | fixed text => text.toList.foldl Quoting.next s
  | hole _ => s

/-- A hole must not stand behind a backslash. -/
def fits (s : Quoting) : Part → Bool
  | fixed _ => true
  | hole _ => !s.isEscaped

end Part

namespace Template

def fillParts (r : Reference) (parts : List Part) : List Char := parts.flatMap (Part.chars r)

/-- **Fill the holes of a template** with the names of a reference. -/
def fill (t : Template) (r : Reference) : Line := ⟨t.indent, String.ofList (fillParts r t.parts)⟩

/-- A line without holes. -/
def ofLine (l : Line) : Template := ⟨l.indent, [.fixed l.text]⟩

def segmentsFrom : Quoting → List Part → List (List Part)
  | _, [] => [[]]
  | s, part :: parts => joinPieces (part.segments s) (segmentsFrom (part.after s) parts)

/-- **The segments of a template.** -/
def segments (t : Template) : List (List Part) := segmentsFrom .code t.parts

def soundFrom : Quoting → List Part → Bool
  | s, [] => s == .code
  | s, part :: parts => part.fits s && soundFrom (part.after s) parts

/-- Whether every part fits where it stands, and all literals are closed at the end. -/
def isSound (t : Template) : Bool := soundFrom .code t.parts

theorem fillParts_append (r : Reference) (front back : List Part) :
    fillParts r (front ++ back) = fillParts r front ++ fillParts r back :=
  List.flatMap_append

/-- What a template is filled to, in characters. -/
theorem fill_eq_iff {t : Template} {r : Reference} {l : Line} :
    t.fill r = l ↔ t.indent = l.indent ∧ fillParts r t.parts = l.text.toList := by
  rw [fill, ← String.ofList_inj, String.ofList_toList]
  constructor
  · rintro rfl
    exact ⟨rfl, rfl⟩
  · rintro ⟨hindent, htext⟩
    rw [hindent, htext]

theorem fill_ofLine (l : Line) (r : Reference) : (ofLine l).fill r = l := by
  simp [fill_eq_iff, fillParts, ofLine, Part.chars]

section Filling

variable {r : Reference} (hr : ∀ h : Hole, IsName (h.name r))
include hr

/-- A part is cut in the same way before and after it is filled, and it leads to the same state. -/
theorem reads_part {part : Part} {s : Quoting} (hfits : part.fits s = true) :
    cut Quoting.bounds Quoting.next s (part.chars r) = (part.segments s).map (fillParts r) ∧
      (part.chars r).foldl Quoting.next s = part.after s := by
  cases part with
  -- A fixed part is not changed by filling, and a hole gets a name, which is not cut.
  | fixed text =>
    have hid : (fillParts r ∘ fun piece => [Part.fixed (String.ofList piece)]) = id := by
      funext piece
      simp [fillParts, Part.chars]
    refine ⟨?_, rfl⟩
    rw [Part.segments, List.map_map, hid, List.map_id]
    rfl
  | hole h =>
    rw [Part.fits, Bool.not_eq_true'] at hfits
    -- The hole is not behind a backslash, so the name in it leaves the state as it is.
    have huncut := Quoting.uncut_of_isName (hr h) hfits
    refine ⟨?_, huncut.foldl_eq⟩
    show cut Quoting.bounds Quoting.next s (h.name r).toList = _
    rw [huncut.cut_eq]
    simp [Part.segments, fillParts, Part.chars]

/-- Parts one after another are cut in the same way before and after they are filled, each from the
state behind the one before, and all literals are closed at the end. -/
theorem reads_fillParts {parts : List Part} {s : Quoting} (hsound : soundFrom s parts = true) :
    cut Quoting.bounds Quoting.next s (fillParts r parts)
        = (segmentsFrom s parts).map (fillParts r) ∧
      (fillParts r parts).foldl Quoting.next s = .code := by
  induction parts generalizing s with
  | nil => exact ⟨rfl, beq_iff_eq.mp hsound⟩
  | cons part parts ih =>
    rw [soundFrom, Bool.and_eq_true] at hsound
    obtain ⟨hcut, hstate⟩ := reads_part hr hsound.1
    -- The rest is read from the state behind the part, which is the same whether it is filled.
    obtain ⟨ihcut, ihstate⟩ := ih hsound.2
    have hparts : fillParts r (part :: parts) = part.chars r ++ fillParts r parts :=
      List.flatMap_cons
    constructor
    · -- Cut the part and the rest one after the other, and join the pieces at the seam.
      rw [hparts, cut_append, hcut, hstate, ihcut, segmentsFrom,
        map_joinPieces (fillParts_append r)]
    · rw [hparts, List.foldl_append, hstate, ihstate]

/-- **Filling the holes leaves the literals where they are.** -/
theorem segments_fill {t : Template} (ht : t.isSound = true) :
    (t.fill r).segments = t.segments.map (fillParts r) := by
  rw [Line.segments, fill, String.toList_ofList]
  exact (reads_fillParts hr ht).1

/-- All literals are closed at the end of the line, so each line can be read for itself. -/
theorem foldl_next_fill {t : Template} (ht : t.isSound = true) :
    (t.fill r).text.toList.foldl Quoting.next .code = .code := by
  rw [fill, String.toList_ofList]
  exact (reads_fillParts hr ht).2

end Filling

end Template

end Script

end UtilityCss
