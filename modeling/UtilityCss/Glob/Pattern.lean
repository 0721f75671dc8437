/-!
# Patterns of paths

A pattern describes the paths of files: `?` is a byte, `*` any number of bytes, `[a-z]` a byte of a
class, and none of the first two crosses a slash. `{a,b}` is one of several patterns, `\x` is the
character `x`, and `**` as a whole directory name is any number of directories. A `**` in any other
place is two `*`.

A pattern is read in one pass. What has been read is a list of tokens for each open brace, the
innermost first; a `**` looks at the characters around it and at the token before it.
-/

namespace UtilityCss.Glob

/-- A part of a pattern. -/
inductive Token where
  /-- A character. -/
  | literal (c : Char)
  /-- One byte that is no slash. -/
  | any
  /-- Any number of bytes that are no slash. -/
  | star
  /-- Any number of directories at the start. -/
  | leading
  /-- Any number of directories between two slashes, the slashes included. -/
  | between
  /-- A slash and all that may follow it. -/
  | trailing
  /-- A byte of a class, or, negated, any other byte. -/
  | oneOf (negated : Bool) (ranges : List (Char × Char))
  /-- One of several patterns; without any, the empty text. -/
  | choice (alternatives : List (List Token))

/-- What can be wrong with a pattern. -/
inductive PatternError where
  /-- A class has no end. -/
  | unclosedClass
  /-- A range of a class ends before it starts. -/
  | invalidRange (first last : Char)
  /-- A backslash stands at the end. -/
  | danglingEscape
  /-- A brace closes that was not opened. -/
  | unopenedChoice
  /-- A brace opens that is not closed. -/
  | unclosedChoice
deriving DecidableEq, Repr

/-- The wording of an error. -/
def PatternError.message : PatternError → String
  | unclosedClass => "unclosed character class; missing ']'"
  | invalidRange first last =>
    "invalid range; '" ++ String.singleton first ++ "' > '" ++ String.singleton last ++ "'"
  | danglingEscape => "dangling '\\'"
  | unopenedChoice =>
    "unopened alternate group; missing '\x7b' (maybe escape '\x7d' with '[\x7d]'?)"
  | unclosedChoice =>
    "unclosed alternate group; missing '\x7d' (maybe escape '\x7b' with '[\x7b]'?)"

/-! ### What has been read -/

/-- An open brace: the alternatives that are complete, and the tokens before the brace, both with
the last one first. -/
structure OpenChoice where
  /-- The complete alternatives, the last one first. -/
  alternatives : List (List Token)
  /-- The tokens before the brace, the last one first. -/
  before : List Token

/-- The part of a pattern that has been read. -/
structure Progress where
  /-- The tokens of the current alternative, the last one first. -/
  tokens : List Token
  /-- The open braces, the innermost first. -/
  choices : List OpenChoice

namespace Progress

/-- Nothing has been read. -/
def start : Progress := ⟨[], []⟩

/-- Add a token. -/
def push (p : Progress) (t : Token) : Progress := { p with tokens := t :: p.tokens }

/-- Whether the current place is inside braces. -/
def inChoice (p : Progress) : Bool := !p.choices.isEmpty

/-- A brace opens. -/
def openChoice (p : Progress) : Progress := ⟨[], ⟨[], p.tokens⟩ :: p.choices⟩

/-- An alternative ends and another one starts; outside of braces a comma is a character. -/
def nextAlternative (p : Progress) : Progress :=
  match p.choices with
  | [] => p.push (.literal ',')
  | c :: outer => ⟨[], { c with alternatives := p.tokens.reverse :: c.alternatives } :: outer⟩

/-- Whether a token stands for the empty text only. -/
def isVoid : Token → Bool
  | .choice [] => true
  | _ => false

/-- A brace closes. Alternatives that stand for the empty text only are dropped. -/
def closeChoice (p : Progress) : Except PatternError Progress :=
  match p.choices with
  | [] => .error .unopenedChoice
  | c :: outer =>
    let alternatives :=
      (p.tokens.reverse :: c.alternatives).reverse.filter fun ts => !ts.all isVoid
    .ok ⟨.choice alternatives :: c.before, outer⟩

/-- Two stars that do not stand for directories. -/
def pushStars (p : Progress) : Progress := (p.push .star).push .star

/-- Put a token that stands for directories in place of the slash before it. A token that stands
for directories at the start or at the end already covers it. -/
def absorbSlash (p : Progress) (t : Token) : Progress :=
  match p.tokens with
  | [] => p.push t
  | .leading :: _ => p
  | .trailing :: _ => p
  | _ :: rest => { p with tokens := t :: rest }

end Progress

/-! ### Reading -/

/-- Where in a pattern the next character stands. -/
inductive Place where
  /-- Among the tokens. -/
  | token
  /-- After a backslash. -/
  | escape
  /-- Right after the bracket that opens a class. -/
  | classStart
  /-- In a class: whether it is negated, its ranges with the last one first, whether a member has
  been read, and whether the last range is to be extended. -/
  | inClass (negated : Bool) (ranges : List (Char × Char)) (started : Bool) (extending : Bool)

/-- A character of a class. A range goes from the last member before a dash to the first one after
it. -/
def classMember (negated : Bool) (ranges : List (Char × Char)) (started extending : Bool)
    (c : Char) : Except PatternError Place :=
  -- A dash after a member waits for the end of a range; any other dash is a member.
  if c = '-' && started && !extending then .ok (.inClass negated ranges true true)
  else if extending then
    match ranges with
    | [] => .ok (.inClass negated [(c, c)] true false)
    | (first, _) :: rest =>
      if c < first then .error (.invalidRange first c)
      else .ok (.inClass negated ((first, c) :: rest) true false)
  else .ok (.inClass negated ((c, c) :: ranges) true false)

/-- The token of a class. A dash that waits for the end of its range is a member itself. -/
def classToken (negated : Bool) (ranges : List (Char × Char)) (extending : Bool) : Token :=
  .oneOf negated (if extending then ('-', '-') :: ranges else ranges).reverse

/-- Whether a `**` after a character can stand for directories: it follows a slash, or the start of
an alternative. -/
def startsName (p : Progress) (previous : Option Char) : Bool :=
  previous = some '/' || (p.inChoice && (previous = some ',' || previous = some '\x7b'))

/-- **Read a pattern** from a place on, after a given character. -/
def readFrom : Option Char → Place → Progress → List Char → Except PatternError Progress
  | _, .token, p, [] => if p.inChoice then .error .unclosedChoice else .ok p
  | _, .escape, _, [] => .error .danglingEscape
  | _, .classStart, _, [] => .error .unclosedClass
  | _, .inClass .., _, [] => .error .unclosedClass
  | _, .escape, p, c :: rest => readFrom (some c) .token (p.push (.literal c)) rest
  | _, .classStart, p, c :: rest =>
    if c = '!' || c = '^' then readFrom (some c) (.inClass true [] false false) p rest
    else do readFrom (some c) (← classMember false [] false false c) p rest
  | _, .inClass negated ranges started extending, p, c :: rest =>
    if c = ']' && started then
      readFrom (some c) .token (p.push (classToken negated ranges extending)) rest
    else do readFrom (some c) (← classMember negated ranges started extending c) p rest
  | previous, .token, p, '*' :: '*' :: rest =>
    -- At the start the slash behind the stars belongs to them.
    if p.tokens.isEmpty then
      match rest with
      | [] => readFrom (some '*') .token (p.push .leading) []
      | '/' :: rest => readFrom (some '/') .token (p.push .leading) rest
      | c :: rest => readFrom (some '*') .token p.pushStars (c :: rest)
    -- Later the slash before them does as well, so it is taken back.
    else if startsName p previous then
      match rest with
      | [] => readFrom (some '*') .token (p.absorbSlash .trailing) []
      | '/' :: rest => readFrom (some '/') .token (p.absorbSlash .between) rest
      | c :: rest =>
        if p.inChoice && (c = ',' || c = '\x7d') then
          readFrom (some '*') .token (p.absorbSlash .trailing) (c :: rest)
        else readFrom (some '*') .token p.pushStars (c :: rest)
    else readFrom (some '*') .token p.pushStars rest
  | _, .token, p, c :: rest =>
    match c with
    | '?' => readFrom (some c) .token (p.push .any) rest
    | '*' => readFrom (some c) .token (p.push .star) rest
    | '[' => readFrom (some c) .classStart p rest
    | '\x7b' => readFrom (some c) .token p.openChoice rest
    | '\x7d' => do readFrom (some c) .token (← p.closeChoice) rest
    | ',' => readFrom (some c) .token p.nextAlternative rest
    | '\\' => readFrom (some c) .escape p rest
    | _ => readFrom (some c) .token (p.push (.literal c)) rest

/-- **The tokens of a pattern.** -/
def read (pattern : List Char) : Except PatternError (List Token) :=
  (readFrom none .token .start pattern).map fun p => p.tokens.reverse

end UtilityCss.Glob
