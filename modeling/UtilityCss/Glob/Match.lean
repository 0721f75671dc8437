import UtilityCss.Glob.Pattern

/-!
# Matching paths

A path is matched as a sequence of bytes. A reading of a path stands at some position of it, and as
there may be several ways to read what came before, what is kept is a mark for each position,
whether a reading can stand there. A token moves the marks (`Token.advance`), and a path matches if
a reading of the whole pattern can stand at its end. So the work is the length of the pattern times
the length of the path, whatever the pattern.

Two decisions are made on a pattern as a whole. A `**` alone matches every path. And a path that
ends in `..` leads up and has no file name, so patterns that are decided by the file name do not
match it: these are the ones that end in a dot themselves, unless they say the whole path, from the
start or from some directory on.
-/

namespace UtilityCss.Glob

/-- A text as bytes. -/
abbrev Bytes := List UInt8

/-- The bytes of a text. -/
def bytesOf (text : String) : Bytes := text.toUTF8.data.toList

/-- The bytes of a character. -/
def bytesOfChar (c : Char) : Bytes := bytesOf (String.singleton c)

/-- The byte that separates the names in a path. -/
def slash : UInt8 := 47

/-- The byte of a dot. -/
def dot : UInt8 := 46

/-! ### Marks -/

/-- For each position of a text, from its start to its end, whether a reading can stand there. -/
abbrev Marks := List Bool

namespace Marks

/-- A reading that has not begun. -/
def start (text : Bytes) : Marks := true :: List.replicate text.length false

/-- Whether a reading can stand at the end of the text. -/
def atEnd (marks : Marks) : Bool := marks.getLastD false

/-- The readings of two kinds together. -/
def merge (first second : Marks) : Marks := List.zipWith (· || ·) first second

/-- Every reading goes on by one byte that satisfies a condition. -/
def step (p : UInt8 → Bool) (text : Bytes) (marks : Marks) : Marks :=
  false :: List.zipWith (fun mark b => mark && p b) marks text

/-- Every reading goes on by any number of bytes that satisfy a condition; `arrived` says whether
one comes from before the text. -/
def spread (p : UInt8 → Bool) (arrived : Bool) : Bytes → Marks → Marks
  | _, [] => []
  | [], mark :: _ => [mark || arrived]
  | b :: text, mark :: marks =>
    (mark || arrived) :: spread p ((mark || arrived) && p b) text marks

/-- Every reading goes on by given bytes. -/
def steps (bytes text : Bytes) (marks : Marks) : Marks :=
  bytes.foldl (fun marks b => step (· == b) text marks) marks

/-- Every reading goes on by a slash. -/
def stepSlash : Bytes → Marks → Marks := step (· == slash)

/-- Every reading goes on by any number of bytes. -/
def spreadAll : Bytes → Marks → Marks := spread (fun _ => true) false

end Marks

/-! ### Classes -/

/-- The ranges of bytes that a range of characters stands for. The two ends are written as bytes, so
the range goes from the last byte of the first to the first byte of the last, and the other bytes
stand for themselves. -/
def byteRanges (range : Char × Char) : List (UInt8 × UInt8) :=
  let first := bytesOfChar range.1
  let last := bytesOfChar range.2
  if range.1 = range.2 then first.map fun b => (b, b)
  else
    match first.getLast?, last.head? with
    | some low, some high =>
      first.dropLast.map (fun b => (b, b)) ++ (low, high) :: last.tail.map fun b => (b, b)
    | _, _ => []

/-- Whether a byte is in a class of ranges, or, negated, in none of them. -/
def inClass (negated : Bool) (ranges : List (UInt8 × UInt8)) (b : UInt8) : Bool :=
  ranges.any (fun r => r.1 ≤ b && b ≤ r.2) != negated

/-! ### Tokens -/

mutual

/-- **Where readings can stand after a token**, by where they can stand before it. -/
def Token.advance (text : Bytes) : Token → Marks → Marks
  | .literal c, marks => marks.steps (bytesOfChar c) text
  | .any, marks => marks.step (· != slash) text
  | .star, marks => marks.spread (· != slash) false text
  -- No directory at all, or everything up to one of the slashes.
  | .leading, marks => marks.merge (Marks.stepSlash text (Marks.spreadAll text marks))
  | .between, marks =>
    let marks := Marks.stepSlash text marks
    marks.merge (Marks.stepSlash text (Marks.spreadAll text marks))
  | .trailing, marks => Marks.spreadAll text (Marks.stepSlash text marks)
  | .oneOf negated ranges, marks => marks.step (inClass negated (ranges.flatMap byteRanges)) text
  | .choice [], marks => marks
  | .choice (first :: more), marks =>
    (advanceAll text first marks).merge (advanceAny text more marks)

/-- Where readings can stand after a sequence of tokens. -/
def advanceAll (text : Bytes) : List Token → Marks → Marks
  | [], marks => marks
  | t :: ts, marks => advanceAll text ts (t.advance text marks)

/-- Where readings can stand after one of several sequences. -/
def advanceAny (text : Bytes) : List (List Token) → Marks → Marks
  | [], marks => marks.map fun _ => false
  | ts :: more, marks => (advanceAll text ts marks).merge (advanceAny text more marks)

end

/-- Whether a sequence of tokens describes the whole of a text. -/
def describes (tokens : List Token) (text : Bytes) : Bool :=
  (advanceAll text tokens (Marks.start text)).atEnd

/-! ### Patterns -/

/-- The character that a token stands for. -/
def Token.literal? : Token → Option Char
  | .literal c => some c
  | _ => none

/-- Whether tokens are characters only. -/
def areLiteral (tokens : List Token) : Bool := tokens.all (·.literal?.isSome)

/-- Whether a pattern says a whole path, from the start or from some directory on. -/
def saysPath : List Token → Bool
  | .leading :: rest => areLiteral rest && rest.any (·.literal? == some '/')
  | tokens => areLiteral tokens

/-- Whether a pattern ends in a dot and is decided by the file name. -/
def asksForName (tokens : List Token) : Bool :=
  tokens.getLast?.bind Token.literal? == some '.' && !saysPath tokens

/-- The bytes after the last slash of a path. -/
def lastName (path : Bytes) : Bytes := (path.reverse.takeWhile (· != slash)).reverse

/-- Whether a path has no file name, as it ends in two dots. -/
def leadsUp (path : Bytes) : Bool := lastName path == [dot, dot]

/-- **Whether a path matches a pattern.** -/
def matchesPath (tokens : List Token) (path : String) : Bool :=
  match tokens with
  | [.leading] => true
  | _ =>
    let path := bytesOf path
    !(asksForName tokens && leadsUp path) && describes tokens path

end UtilityCss.Glob
