import UtilityCss.Proofs.Headers
import UtilityCss.Proofs.Parts
import UtilityCss.Proofs.ScriptTemplate

/-!
# Joining the lines of a script

A minified script is made of the trimmed lines of the script, one right behind the other. That is
safe only for scripts of a certain kind: a line end can end a statement, it ends a line comment, and
the removal of block comments looks for two characters wherever they are, in string literals and
regular expressions too. This file shows that every script that is written here is of that kind.

`statements` says what a script is made of as far as line ends matter. It drops line comments, and
in code it cuts behind semicolons and braces and at line ends, so a script that is joined has the
same statements only if no line end was needed. A line is fit to be joined (`IsStatement`) if it
ends in a semicolon or a brace, where no literal is open, and has no line comment; then nothing that
follows is fused with it (`IsStatement.statements_append`).

That all lines are blank, comments or fit is checked on the templates of the script, which are few;
names have no slashes, so filling them in makes no comment (`not_slash_infix_fillParts`).
-/

namespace UtilityCss.Script

open UtilityCss.Text

/-! ### Statements -/

/-- Whether a character ends a statement, or opens or closes a block. -/
def endsStatement (c : Char) : Bool := c == ';' || c == '\x7b' || c == '\x7d'

/-- The pieces of a script, from a state on. Without a state, a line comment is being read. -/
def statementsFrom : Option Quoting → List Char → List (List Char)
  | _, [] => [[]]
  | none, c :: rest =>
    if c = '\n' then [] :: statementsFrom (some .code) rest else statementsFrom none rest
  | some .code, '/' :: '/' :: rest => statementsFrom none rest
  | some s, c :: rest =>
    if s = .code ∧ c = '\n' then [] :: statementsFrom (some .code) rest
    else if s = .code ∧ endsStatement c = true then [c] :: statementsFrom (some .code) rest
    else consPiece c (statementsFrom (some (s.next c)) rest)

/-- **The statements of a script**, where a line end may end a statement too. -/
def statements (script : List Char) : List (List Char) :=
  ((statementsFrom (some .code) script).map trim).filter fun piece => !piece.isEmpty

/-- One step where no line comment starts. -/
theorem statementsFrom_cons {c : Char} {rest : List Char} (h : ¬ ['/', '/'] <+: c :: rest)
    (s : Quoting) :
    statementsFrom (some s) (c :: rest)
      = if s = .code ∧ c = '\n' then [] :: statementsFrom (some .code) rest
        else if s = .code ∧ endsStatement c = true then [c] :: statementsFrom (some .code) rest
        else consPiece c (statementsFrom (some (s.next c)) rest) := by
  rw [statementsFrom]
  rintro rest' rfl rfl rfl
  exact h (List.prefix_append ['/', '/'] rest')

/-- There is a piece, if only an empty one. -/
theorem statementsFrom_ne_nil (s : Option Quoting) (text : List Char) :
    statementsFrom s text ≠ [] := by
  fun_induction statementsFrom s text with
  | case1 => exact List.cons_ne_nil _ _
  | case2 => exact List.cons_ne_nil _ _
  | case3 c rest _ ih => exact ih
  | case4 rest ih => exact ih
  | case5 => exact List.cons_ne_nil _ _
  | case6 => exact List.cons_ne_nil _ _
  | case7 s c rest _ _ _ ih =>
    -- The character goes in front of the first piece, and there is one.
    obtain ⟨piece, pieces, hpieces⟩ := List.exists_cons_of_ne_nil ih
    rw [hpieces]
    exact List.cons_ne_nil _ _

/-- A space at the start of a line is trimmed off. -/
theorem statements_cons_space (rest : List Char) : statements (' ' :: rest) = statements rest := by
  obtain ⟨piece, pieces, hpieces⟩ :=
    List.exists_cons_of_ne_nil (statementsFrom_ne_nil (some .code) rest)
  have hspace : statementsFrom (some .code) (' ' :: rest) = (' ' :: piece) :: pieces := by
    rw [statementsFrom_cons (by simp), if_neg (by decide), if_neg (by decide)]
    show consPiece ' ' (statementsFrom (some .code) rest) = _
    rw [hpieces]
    rfl
  -- The space goes in front of the first piece, and pieces are trimmed.
  rw [statements, statements, hspace, hpieces, List.map_cons, List.map_cons,
    trim_cons_blank (by decide)]

/-- An indent makes no difference. -/
theorem statements_spaces_append (n : Nat) (rest : List Char) :
    statements (List.replicate n ' ' ++ rest) = statements rest := by
  induction n with
  | zero => rfl
  | succ n ih => rw [List.replicate_succ, List.cons_append, statements_cons_space, ih]

/-- An empty line makes no statement. -/
theorem statements_cons_lineEnd (rest : List Char) :
    statements ('\n' :: rest) = statements rest := by
  rw [statements, statementsFrom_cons (by simp), if_pos ⟨rfl, rfl⟩]
  rfl

/-- A line comment leaves nothing. -/
theorem statements_comment {body : List Char} (h : '\n' ∉ body) (rest : List Char) :
    statements ('/' :: '/' :: (body ++ '\n' :: rest)) = statements rest := by
  -- Nothing but its line end ends a comment.
  have hcomment : statementsFrom none (body ++ '\n' :: rest)
      = [] :: statementsFrom (some .code) rest := by
    induction body with
    | nil => rw [List.nil_append, statementsFrom, if_pos rfl]
    | cons c body ih =>
      rw [List.cons_append, statementsFrom, if_neg (List.ne_of_not_mem_cons h).symm,
        ih (List.not_mem_of_not_mem_cons h)]
  rw [statements, statementsFrom, hcomment]
  rfl

/-- What ends a statement is not blank. -/
theorem not_isBlank_of_endsStatement {c : Char} (hc : endsStatement c = true) :
    isBlank c = false := by
  simp only [endsStatement, Bool.or_eq_true, beq_iff_eq] at hc
  rcases hc with (rfl | rfl) | rfl
  · decide
  · decide
  · decide

/-- What ends a statement opens no literal. -/
theorem ne_quoteMark_of_endsStatement {c : Char} (hc : endsStatement c = true)
    (mark : QuoteMark) : c ≠ mark.char := by
  cases mark with
  | single => exact ne_of_test hc (by decide)
  | double => exact ne_of_test hc (by decide)
  | grave => exact ne_of_test hc (by decide)

/-- Behind a line end or the end of a statement in code there is code. -/
theorem Quoting.next_code {c : Char} (hc : c = '\n' ∨ endsStatement c = true) :
    next .code c = .code := by
  -- Neither of them is a quotation mark.
  have hnone : QuoteMark.ofChar? c = none := by
    rw [QuoteMark.ofChar?, List.find?_eq_none]
    intro mark _ hmark
    rcases hc with rfl | hc
    · cases mark <;> exact absurd hmark (by decide)
    · exact ne_quoteMark_of_endsStatement hc mark (beq_iff_eq.mp hmark).symm
  rw [next, hnone]
  rfl

/-- Only code can come before the end of a statement, if code comes behind it. -/
theorem Quoting.eq_code_of_next {s : Quoting} {c : Char} (hc : endsStatement c = true)
    (h : s.next c = .code) : s = .code := by
  cases s with
  | code => rfl
  | literal mark =>
    -- In a literal the character closes nothing, so the literal goes on behind it.
    rw [next, if_neg (ne_quoteMark_of_endsStatement hc mark)] at h
    split at h
    · exact Quoting.noConfusion h
    · exact Quoting.noConfusion h
  | escaped mark => exact Quoting.noConfusion h

/-- **What is written before the end of a statement** is cut there, whatever follows. -/
theorem exists_statementsFrom {front : List Char} {c : Char} (hc : endsStatement c = true)
    (hslash : ¬ ['/', '/'] <:+: front) {s : Quoting}
    (hs : front.foldl Quoting.next s = .code) :
    ∃ piece pieces, ∀ rest, statementsFrom (some s) (front ++ c :: rest)
      = piece :: pieces ++ statementsFrom (some .code) rest := by
  have hne : c ≠ '/' := ne_of_test hc (by decide)
  induction front generalizing s with
  | nil =>
    obtain rfl : s = .code := hs
    -- The last character is a piece of its own, behind which a new one starts.
    refine ⟨[c], [], fun rest => ?_⟩
    have hline : c ≠ '\n' := ne_of_test hc (by decide)
    rw [List.nil_append, statementsFrom_cons, if_neg fun h => hline h.2, if_pos ⟨rfl, hc⟩]
    · rfl
    · exact fun h => hne (List.cons_prefix_cons.mp h).1.symm
  | cons d front ih =>
    have hrest : ¬ ['/', '/'] <:+: front := fun h => hslash (List.infix_cons h)
    -- A line comment would have to start before the end of the statement.
    have hstart : ∀ rest, ¬ ['/', '/'] <+: d :: (front ++ c :: rest) := by
      intro rest h
      obtain ⟨rfl, hsecond⟩ := List.cons_prefix_cons.mp h
      cases front with
      | nil => exact hne (List.cons_prefix_cons.mp hsecond).1.symm
      | cons e front =>
        obtain ⟨rfl, -⟩ := List.cons_prefix_cons.mp hsecond
        exact hslash ⟨[], front, rfl⟩
    obtain ⟨piece, pieces, hpieces⟩ := ih hrest hs
    -- Either a piece ends at this character, or the character belongs to the piece that follows.
    by_cases hcut : s = .code ∧ (d = '\n' ∨ endsStatement d = true)
    · obtain ⟨rfl, hd⟩ := hcut
      rw [Quoting.next_code hd] at hpieces
      refine ⟨if d = '\n' then [] else [d], piece :: pieces, fun rest => ?_⟩
      rw [List.cons_append, statementsFrom_cons (hstart rest), hpieces]
      by_cases hline : d = '\n'
      · rw [if_pos ⟨rfl, hline⟩, if_pos hline]
        rfl
      · rw [if_neg fun h => hline h.2, if_pos ⟨rfl, hd.resolve_left hline⟩, if_neg hline]
        rfl
    · refine ⟨d :: piece, pieces, fun rest => ?_⟩
      rw [List.cons_append, statementsFrom_cons (hstart rest),
        if_neg fun h => hcut ⟨h.1, Or.inl h.2⟩, if_neg fun h => hcut ⟨h.1, Or.inr h.2⟩, hpieces]
      rfl

/-- **A line that can be joined with what follows.** It starts and ends with a character that is not
blank, the last one ends a statement and is not in a literal, and there is no line comment. -/
structure IsStatement (text : List Char) : Prop where
  first : ∀ c ∈ text.head?, isBlank c = false
  last : ∃ c ∈ text.getLast?, endsStatement c = true
  slashes : ¬ ['/', '/'] <:+: text
  closed : text.foldl Quoting.next .code = .code

namespace IsStatement

variable {text : List Char}

/-- A statement is not empty. -/
theorem ne_nil (h : IsStatement text) : text ≠ [] := by
  rintro rfl
  obtain ⟨c, hc, -⟩ := h.last
  exact absurd hc (by simp)

/-- A statement has no blanks at its ends. -/
theorem trim_eq (h : IsStatement text) : trim text = text := by
  refine trim_of_ends h.first fun c hc => ?_
  obtain ⟨d, hd, hends⟩ := h.last
  obtain rfl : c = d := Option.mem_unique hc hd
  exact not_isBlank_of_endsStatement hends

/-- **Nothing is fused with a line that ends a statement.** -/
theorem statements_append (h : IsStatement text) (rest : List Char) :
    statements (text ++ rest) = statements text ++ statements rest := by
  obtain ⟨c, hlast, hc⟩ := h.last
  obtain ⟨front, rfl⟩ := List.getLast?_eq_some_iff.mp hlast
  have hclosed := h.closed
  rw [List.foldl_append] at hclosed
  -- The pieces up to the last character are the same whatever comes behind it.
  obtain ⟨piece, pieces, hpieces⟩ := exists_statementsFrom hc
    (fun hpair => h.slashes (hpair.trans (List.prefix_append front [c]).isInfix))
    (Quoting.eq_code_of_next hc hclosed)
  have hempty : statementsFrom (some .code) [] = [[]] := rfl
  rw [List.append_assoc, List.singleton_append, statements, statements, hpieces, hpieces, hempty,
    List.map_append, List.map_append, List.filter_append, List.filter_append]
  simp [statements]

/-- A line that ends no statement is fused with what follows. -/
example : statements "var a\nvar b;".toList = ["var a".toList, "var b;".toList] ∧
    statements "var avar b;".toList = ["var avar b;".toList] := by decide

end IsStatement

/-! ### Lines -/

/-- **A line of a script that can be minified**: it opens no block comment, and it is blank, a line
comment or a statement. -/
structure Line.Joinable (l : Line) : Prop where
  opening : ¬ commentOpening <:+: l.text.toList
  kind : l.text.toList = [] ∨ (∃ body, l.text.toList = '/' :: '/' :: body) ∨
    IsStatement l.text.toList

/-- Whether a trimmed line is neither blank nor a line comment. -/
def isCode (line : List Char) : Bool := !line.isEmpty && !List.isPrefixOf ['/', '/'] line

/-- The lines of a script that matter, without the blanks around them. -/
def codeLines (script : List Char) : List (List Char) := ((lines script).map trim).filter isCode

/-- Minification keeps the lines that matter. -/
theorem keepsLine_eq_isCode (line : List Char) : keepsLine line = isCode line := by
  -- Both ask whether the line starts with two slashes.
  have hcomment : (strip? ['/', '/'] line).isSome = ['/', '/'].isPrefixOf line := by
    rw [Bool.eq_iff_iff, List.isPrefixOf_iff_prefix, strip?_isSome_iff]
  rw [keepsLine, isCode, ← hcomment, Option.not_isSome]

/-- A statement matters. -/
theorem IsStatement.isCode_eq {text : List Char} (h : IsStatement text) : isCode text = true := by
  have hempty : text.isEmpty = false := List.isEmpty_eq_false_iff.mpr h.ne_nil
  have hcomment : ['/', '/'].isPrefixOf text = false := by
    rw [Bool.eq_false_iff, Ne, List.isPrefixOf_iff_prefix]
    exact fun hstart => h.slashes hstart.isInfix
  rw [isCode, hempty, hcomment]
  rfl

/-- An indent is trimmed off. -/
theorem trim_spaces_append (n : Nat) (text : List Char) :
    trim (List.replicate n ' ' ++ text) = trim text := by
  induction n with
  | zero => rfl
  | succ n ih => rw [List.replicate_succ, List.cons_append, trim_cons_blank (by decide), ih]

/-- A line comment stays one if it is trimmed. -/
theorem exists_trim_comment (body : List Char) :
    ∃ rest, trim ('/' :: '/' :: body) = '/' :: '/' :: rest :=
  ⟨_, trim_append_cons (c := '/') (by decide) ['/'] body⟩

namespace Line

variable {l : Line}

/-- An empty line has no indent. -/
theorem chars_of_nil (h : l.text.toList = []) : l.chars = [] := by
  rw [chars, if_pos (by simpa using h)]

theorem chars_of_ne_nil (h : l.text.toList ≠ []) :
    l.chars = List.replicate (2 * l.indent) ' ' ++ l.text.toList := by
  rw [chars, if_neg (by simpa using h)]

/-- The line of a statement, trimmed, is the statement. -/
theorem trim_chars_of_isStatement (h : IsStatement l.text.toList) :
    trim l.chars = l.text.toList := by
  rw [chars_of_ne_nil h.ne_nil, trim_spaces_append, h.trim_eq]

/-- **What a line that can be joined is after trimming**: nothing that is kept, or a statement. -/
theorem Joinable.isCode_trim (h : l.Joinable) :
    isCode (trim l.chars) = true ↔ IsStatement l.text.toList := by
  rcases h.kind with hblank | ⟨body, hbody⟩ | hstatement
  · rw [chars_of_nil hblank, hblank]
    exact iff_of_false (by decide) fun hnil => hnil.ne_nil rfl
  · -- A comment is not kept, and it is no statement because of its slashes.
    obtain ⟨rest, hrest⟩ := exists_trim_comment body
    have hslashes : ¬IsStatement l.text.toList := by
      rw [hbody]
      exact fun hs => hs.slashes ⟨[], body, rfl⟩
    rw [chars_of_ne_nil (by rw [hbody]; exact List.cons_ne_nil _ _), trim_spaces_append, hbody,
      hrest, ← hbody]
    exact iff_of_false (by simp [isCode]) hslashes
  · -- The indent goes, and a statement has no other blanks at its ends.
    rw [trim_chars_of_isStatement hstatement]
    exact iff_of_true hstatement.isCode_eq hstatement

/-- An indent opens no comment. -/
theorem Joinable.opening_chars (h : l.Joinable) : ¬ commentOpening <:+: l.chars := by
  by_cases hnil : l.text.toList = []
  · rw [chars_of_nil hnil]
    exact fun hpair => List.cons_ne_nil _ _ (List.infix_nil.mp hpair)
  · have hspace : '/' ∉ List.replicate (2 * l.indent) ' ' :=
      fun hmem => absurd (List.eq_of_mem_replicate hmem) (by decide)
    rw [chars_of_ne_nil hnil]
    -- An opening in the line would be in its text or at the seam, and spaces have no slash.
    refine not_pair_infix_append ?_ h.opening ?_
    · exact fun hpair => hspace (hpair.subset (List.mem_cons_self ..))
    · exact fun hlast => absurd (List.mem_of_getLast? hlast) hspace

end Line

/-- The text of some lines. -/
def textOf (ls : List Line) : List Char := (ls.map Line.chars).flatMap (· ++ ['\n'])

/-- The text of the first line and of the others. -/
theorem textOf_cons (l : Line) (ls : List Line) :
    textOf (l :: ls) = l.chars ++ '\n' :: textOf ls := by
  rw [textOf, List.map_cons, List.flatMap_cons, List.append_assoc, List.singleton_append]
  rfl

/-- The lines of the text are the lines that it was made of. -/
theorem lines_textOf {ls : List Line} (h : ∀ l ∈ ls, l.Single) :
    lines (textOf ls) = ls.map Line.chars := by
  rw [textOf, ← toList_join_render, lines_join_render h]

/-- No block comment opens in lines that can be joined, nor where they meet. -/
theorem not_opening_infix_textOf {ls : List Line} (h : ∀ l ∈ ls, l.Joinable) :
    ¬ commentOpening <:+: textOf ls := by
  induction ls with
  | nil => exact fun hpair => List.cons_ne_nil _ _ (List.infix_nil.mp hpair)
  | cons l ls ih =>
    obtain ⟨hl, hls⟩ := List.forall_mem_cons.mp h
    -- The two characters of an opening are on one line or not at all.
    have hrest : ¬ commentOpening <:+: '\n' :: textOf ls := by
      rw [List.infix_cons_iff]
      rintro (hstart | hpair)
      · exact absurd (List.cons_prefix_cons.mp hstart).1 (by decide)
      · exact ih hls hpair
    rw [textOf_cons]
    exact not_pair_infix_append hl.opening_chars hrest fun _ => by simp

/-- **Joining keeps the statements**: those of the lines one behind the other are those of the text
in which every line has its end. -/
theorem statements_join {ls : List Line} (hsingle : ∀ l ∈ ls, l.Single)
    (h : ∀ l ∈ ls, l.Joinable) :
    statements (((ls.map Line.chars).map trim).filter isCode).flatten = statements (textOf ls) := by
  induction ls with
  | nil => rfl
  | cons l ls ih =>
    obtain ⟨hl, hls⟩ := List.forall_mem_cons.mp h
    obtain ⟨hline, hlines⟩ := List.forall_mem_cons.mp hsingle
    have ih := ih hlines hls
    rw [textOf_cons, List.map_cons, List.map_cons]
    rcases hl.kind with hblank | ⟨body, hbody⟩ | hstatement
    · -- A blank line goes, and its end is no statement.
      have hdrop : ¬ isCode (trim l.chars) = true := by
        rw [hl.isCode_trim, hblank]
        exact fun hnil => hnil.ne_nil rfl
      rw [List.filter_cons_of_neg hdrop, ih, Line.chars_of_nil hblank, List.nil_append,
        statements_cons_lineEnd]
    · -- A comment goes, and where the lines have their ends it reaches no further than its line.
      have hdrop : ¬ isCode (trim l.chars) = true := by
        rw [hl.isCode_trim, hbody]
        exact fun hs => hs.slashes ⟨[], body, rfl⟩
      have hend : '\n' ∉ body := by
        intro hmem
        have htext : '\n' ∈ l.text.toList := by
          rw [hbody]
          exact List.mem_cons_of_mem _ (List.mem_cons_of_mem _ hmem)
        exact (hline '\n' htext).1 rfl
      rw [List.filter_cons_of_neg hdrop, ih,
        Line.chars_of_ne_nil (by rw [hbody]; exact List.cons_ne_nil _ _), List.append_assoc,
        statements_spaces_append, hbody]
      exact (statements_comment hend _).symm
    · -- Behind a statement the next one starts, with or without the end of the line.
      rw [List.filter_cons_of_pos (hl.isCode_trim.mpr hstatement),
        Line.trim_chars_of_isStatement hstatement, List.flatten_cons, hstatement.statements_append,
        ih, Line.chars_of_ne_nil hstatement.ne_nil, List.append_assoc, statements_spaces_append,
        hstatement.statements_append, statements_cons_lineEnd]

/-! ### Templates -/

namespace Part

/-- What is known of a part before the holes are filled. -/
def fixedChars : Part → List Char
  | fixed text => text.toList
  | hole _ => []

/-- Whether a slash with `c` behind it is neither in the part nor begins at its end. -/
def avoids (c : Char) : Part → Bool
  | fixed text => !contains ['/', c] text.toList && text.toList.getLast? != some '/'
  | hole _ => true

/-- What is known of a part stands at its start once it is filled. -/
theorem fixedChars_prefix_chars (r : Reference) (part : Part) :
    part.fixedChars <+: part.chars r := by
  cases part with
  | fixed text => exact List.prefix_rfl
  | hole h => exact List.nil_prefix

/-- What is known of a part stands at its end once it is filled. -/
theorem fixedChars_suffix_chars (r : Reference) (part : Part) :
    part.fixedChars <:+ part.chars r := by
  cases part with
  | fixed text => exact List.suffix_rfl
  | hole h => exact List.nil_suffix

end Part

namespace Template

/-- Whether the line is blank. -/
def isBlank (t : Template) : Bool := t.parts == [.fixed ""]

/-- Whether the line is a line comment. -/
def isComment (t : Template) : Bool :=
  t.parts.head?.any fun part => ['/', '/'].isPrefixOf part.fixedChars

/-- Whether the line is a statement that can be joined with what follows. -/
def isStatement (t : Template) : Bool :=
  t.parts.head?.any (fun part => part.fixedChars.head?.any (fun c => !Text.isBlank c)) &&
    t.parts.getLast?.any (fun part => part.fixedChars.getLast?.any endsStatement) &&
    t.parts.all (Part.avoids '/')

/-- Whether the line can be minified, whatever names are filled in. -/
def isJoinable (t : Template) : Bool :=
  t.parts.all (Part.avoids '*') && (t.isBlank || t.isComment || t.isStatement)

/-- The line of every setter can be minified. Which property it reads does not matter. -/
theorem isJoinable_setter (a : Accessor) : (setter a).isJoinable = true := by
  cases a with
  | computedStyle name =>
    show (setter (.computedStyle "")).isJoinable = true
    decide +kernel
  | _ => decide +kernel

/-- **Every line of a script can be minified.** The templates are few, and all of them are
checked. -/
theorem isJoinable_of_mem_skeleton {s : Shape} {t : Template} (ht : t ∈ skeleton s) :
    t.isJoinable = true :=
  forall_mem_skeleton (by decide +kernel) isJoinable_setter ht

theorem fillParts_cons (r : Reference) (part : Part) (parts : List Part) :
    fillParts r (part :: parts) = part.chars r ++ fillParts r parts :=
  List.flatMap_cons

/-- The start of a line is that of its first part. -/
theorem prefix_fillParts {parts : List Part} {part : Part} (h : parts.head? = some part)
    (r : Reference) : part.fixedChars <+: fillParts r parts := by
  obtain ⟨rest, rfl⟩ := List.head?_eq_some_iff.mp h
  rw [fillParts_cons]
  exact (part.fixedChars_prefix_chars r).trans (List.prefix_append _ _)

/-- The end of a line is that of its last part. -/
theorem suffix_fillParts {parts : List Part} {part : Part} (h : parts.getLast? = some part)
    (r : Reference) : part.fixedChars <:+ fillParts r parts := by
  obtain ⟨front, rfl⟩ := List.getLast?_eq_some_iff.mp h
  -- The last part is filled behind all others.
  have hlast : fillParts r [part] = part.chars r := List.flatMap_singleton ..
  rw [fillParts_append, hlast]
  exact (part.fixedChars_suffix_chars r).trans (List.suffix_append _ _)

section Filling

variable {r : Reference} (hr : ∀ h : Hole, IsName (h.name r))
include hr

/-- **Names make no comment**: a slash meets the character behind it in a fixed part only. -/
theorem not_slash_infix_fillParts {c : Char} {parts : List Part}
    (h : parts.all (Part.avoids c) = true) : ¬ ['/', c] <:+: fillParts r parts := by
  induction parts with
  | nil => exact fun hpair => List.cons_ne_nil _ _ (List.infix_nil.mp hpair)
  | cons part parts ih =>
    rw [List.all_cons, Bool.and_eq_true] at h
    rw [fillParts_cons]
    cases part with
    | fixed text =>
      obtain ⟨hpart, hparts⟩ := h
      simp only [Part.avoids, Bool.and_eq_true, Bool.not_eq_true', bne_iff_ne] at hpart
      -- The pair is not in the part, and the part does not end in a slash.
      refine not_pair_infix_append ?_ (ih hparts) fun hlast => absurd hlast hpart.2
      rw [← contains_iff_infix]
      exact Bool.eq_false_iff.mp hpart.1
    -- A name has no slash, so no pair begins in it.
    | hole hole =>
      have hslash : '/' ∉ (hole.name r).toList := (hr hole).notMem rfl
      refine not_pair_infix_append ?_ (ih h.2) ?_
      · exact fun hpair => hslash (hpair.subset (List.mem_cons_self ..))
      · exact fun hlast => absurd (List.mem_of_getLast? hlast) hslash

/-- A template of a statement makes statements. -/
theorem isStatement_fill {t : Template} (hsound : t.isSound = true) (h : t.isStatement = true) :
    IsStatement (t.fill r).text.toList := by
  simp only [isStatement, Bool.and_eq_true, Option.any_eq_true] at h
  obtain ⟨⟨⟨part, hfirst, c, hc, hblank⟩, last, hlast, d, hd, hends⟩, hslash⟩ := h
  -- That all literals are closed is decided on the template.
  have hclosed := foldl_next_fill hr hsound
  rw [fill, String.toList_ofList] at hclosed ⊢
  refine ⟨?_, ⟨d, ?_, hends⟩, not_slash_infix_fillParts hr hslash, hclosed⟩
  · -- The first and the last character are fixed, so no name can take their places.
    have hhead : (fillParts r t.parts).head? = some c := by
      obtain ⟨rest, hrest⟩ := prefix_fillParts hfirst r
      rw [← hrest, List.head?_append, hc]
      rfl
    intro x hx
    obtain rfl : c = x := Option.some.inj (hhead.symm.trans hx)
    simpa using hblank
  · obtain ⟨front, hfront⟩ := suffix_fillParts hlast r
    rw [← hfront, List.getLast?_append, hd]
    rfl

/-- **A template that can be minified makes lines that can be.** -/
theorem joinable_fill {t : Template} (hsound : t.isSound = true) (h : t.isJoinable = true) :
    (t.fill r).Joinable := by
  rw [isJoinable, Bool.and_eq_true, Bool.or_eq_true, Bool.or_eq_true] at h
  obtain ⟨hopening, hkind⟩ := h
  constructor
  · rw [fill, String.toList_ofList]
    exact not_slash_infix_fillParts hr hopening
  · -- Each of the three kinds is recognized by fixed parts, and names do not change it.
    rcases hkind with (hblank | hcomment) | hstatement
    · left
      rw [fill, String.toList_ofList, beq_iff_eq.mp hblank]
      rfl
    · right; left
      simp only [isComment, Option.any_eq_true] at hcomment
      obtain ⟨part, hfirst, hslashes⟩ := hcomment
      have hstart : ['/', '/'] <+: fillParts r t.parts :=
        (List.isPrefixOf_iff_prefix.mp hslashes).trans (prefix_fillParts hfirst r)
      obtain ⟨body, hbody⟩ := hstart
      exact ⟨body, by rw [fill, String.toList_ofList, ← hbody]; rfl⟩
    · exact Or.inr (Or.inr (isStatement_fill hr hsound hstatement))

end Filling

end Template

/-! ### Scripts -/

/-- The lines of a plan are filled templates, so all of them can be minified. -/
theorem Plan.Named.joinable_of_mem_bodyLines {p : Plan} (hp : p.Named) :
    ∀ l ∈ bodyLines p, l.Joinable := by
  intro l hl
  rw [← p.map_line_fillings] at hl
  obtain ⟨f, hf, rfl⟩ := List.mem_map.mp hl
  -- The template is one of the few that were checked.
  have hmem : f.1 ∈ skeleton p.shape := by
    rw [← p.map_fst_fillings]
    exact List.mem_map.mpr ⟨f, hf, rfl⟩
  exact Template.joinable_fill (hp.isName_of_mem_fillings hf) (isSound_of_mem_skeleton hmem)
    (Template.isJoinable_of_mem_skeleton hmem)

/-- The text of a plan, as the text of lines that can be joined. -/
theorem Plan.Named.exists_textOf {p : Plan} (hp : p.Named) :
    ∃ ls, (∀ l ∈ ls, l.Single) ∧ (∀ l ∈ ls, l.Joinable) ∧ (text p none).toList = textOf ls := by
  cases hempty : p.isEmpty with
  | true =>
    refine ⟨[], by simp, by simp, ?_⟩
    rw [text_of_isEmpty hempty]
    rfl
  | false =>
    refine ⟨bodyLines p, single_of_mem_bodyLines hp, hp.joinable_of_mem_bodyLines, ?_⟩
    rw [text_none hempty, toList_join_render]
    rfl

/-- A header that is a comment leaves nothing in a minified script. -/
theorem minify_text_of_no_end (p : Plan) {timestamp : Option String}
    (h : ∀ time ∈ timestamp, ¬ commentEnd <:+: time.toList) :
    minify (text p timestamp) = minify (text p none) := by
  cases timestamp with
  | none => rfl
  | some time => exact minify_text_header p (h time rfl)

/-- **Joining the lines of a script is safe.** The plan of every session has names only. For such a
plan and every time that does not end a comment, the minified script is made of the lines of the
script that are neither blank nor comments, trimmed and one behind the other. Each of these lines
ends in a semicolon or in a brace, none of them has a block comment, and neither has the script. So
the minified script has the same statements, although its line ends are gone. -/
theorem minify_joins_lines :
    (∀ v options steps,
      (Plan.ofRegistry ((Session.after v options ∅ steps).registry v)).Named) ∧
    ∀ (p : Plan) (timestamp : Option String), p.Named →
      (∀ time ∈ timestamp, ¬ commentEnd <:+: time.toList) →
        let plain := (text p none).toList
        let minified := (minify (text p timestamp)).toList
        minified = (codeLines plain).flatten ∧
        (∀ line ∈ codeLines plain,
          (∃ c ∈ [';', '\x7b', '\x7d'], line.getLast? = some c) ∧
            withoutComments line = line) ∧
        withoutComments plain = plain ∧
        statements minified = statements plain := by
  refine ⟨Session.named_plan, fun p timestamp hp htime => ?_⟩
  intro plain minified
  obtain ⟨ls, hsingle, hjoin, htext⟩ : ∃ ls, (∀ l ∈ ls, l.Single) ∧ (∀ l ∈ ls, l.Joinable) ∧
      plain = textOf ls := hp.exists_textOf
  have hplain : withoutComments plain = plain := by
    apply withoutComments_of_no_opening
    rw [htext]
    exact not_opening_infix_textOf hjoin
  -- From here on the script is a list of lines, and minification a filter on it.
  have hcode : codeLines plain = ((ls.map Line.chars).map trim).filter isCode := by
    rw [codeLines, htext, lines_textOf hsingle]
  have hminified : minified = (codeLines plain).flatten := by
    show (minify (text p timestamp)).toList = _
    rw [minify_text_of_no_end p htime, minify, String.toList_ofList, minifyChars, hplain,
      funext keepsLine_eq_isCode, codeLines]
  refine ⟨hminified, fun line hline => ?_, hplain, ?_⟩
  · -- A line that is kept is the statement of a line that can be joined.
    rw [hcode, List.map_map] at hline
    obtain ⟨hmem, hkept⟩ := List.mem_filter.mp hline
    obtain ⟨l, hl, rfl⟩ := List.mem_map.mp hmem
    have hstatement := (hjoin l hl).isCode_trim.mp hkept
    rw [Function.comp_apply, Line.trim_chars_of_isStatement hstatement]
    obtain ⟨c, hlast, hends⟩ := hstatement.last
    refine ⟨⟨c, ?_, hlast⟩, withoutComments_of_no_opening (hjoin l hl).opening⟩
    simpa [endsStatement, or_assoc] using hends
  · rw [hminified, hcode, htext]
    exact statements_join hsingle hjoin

/-- A time that opens a comment, and ids that look like parts of a script. -/
theorem minify_joins_lines_of_odd_names :
    let p : Plan := ⟨[⟨"var", ["width", "margin-top"]⟩, ⟨"--", ["-"]⟩], ["0", "return"]⟩
    p.Named ∧ ¬ commentEnd <:+: "/* noon".toList ∧
      statements (minify (text p (some "/* noon"))).toList = statements (text p none).toList := by
  intro p
  have hp : p.Named := by decide
  have htime : ∀ time ∈ some "/* noon", ¬ commentEnd <:+: time.toList := by
    intro time hmem
    obtain rfl := Option.some.inj hmem
    rw [← contains_iff_infix]
    decide
  exact ⟨hp, htime _ rfl, (minify_joins_lines.2 p (some "/* noon") hp htime).2.2.2⟩

end UtilityCss.Script
