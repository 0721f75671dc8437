import UtilityCss.Text.Blank
import UtilityCss.Text.Letter

/-!
# The shape of a token

A token is a short name followed by its content, `name[content]` or `name|content|`. The name is a
non-empty run of ASCII letters, and the content is what stands between the delimiters, trimmed, and
not blank. Everything from the first character behind the name to the last character of the token
belongs to the wrapped part, so the content may hold delimiters of its own.
-/

namespace UtilityCss.Token

open UtilityCss.Text

/-- A short name with its content. -/
structure Shape where
  /-- The short name. -/
  name : List Char
  /-- The trimmed text between the delimiters. -/
  content : List Char
deriving DecidableEq, Repr

/-- The delimiter that closes what a delimiter opens. -/
def closer? : Char → Option Char
  | '[' => some ']'
  | '|' => some '|'
  | _ => none

/-- The text between a delimiter at the start and the matching one at the end. -/
def between? : List Char → Option (List Char)
  | [] => none
  | c :: rest =>
    match closer? c with
    | none => none
    | some close => if rest.getLast? = some close then some rest.dropLast else none

/-- **The shape of a token**, if it has one. -/
def shape? (token : List Char) : Option Shape := do
  let name := token.takeWhile isLetter
  let inner ← between? (token.dropWhile isLetter)
  let content := trim inner
  if name.isEmpty || content.isEmpty then none else some ⟨name, content⟩

end UtilityCss.Token
