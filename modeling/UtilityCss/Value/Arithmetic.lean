import UtilityCss.Text.Cut
import UtilityCss.Value.Reference

/-!
# Arithmetic in a value

Whether a value is a calculation is decided character by character, and so is where its operators
get their spaces. Both questions read the same annotation: `sites` gives every character of a value
together with what its neighbourhood says about it.

* `*` and `/` are operators wherever they stand.
* `+` is an operator unless it is a *sign*: nothing but blanks before it, or as the nearest
  character that is not blank an operator, an opening parenthesis, a comma or a hash.
* `-` is an operator unless it is a sign or a hyphen between two letters (`inline-block`).

Two regions hold no operators. A character inside the parentheses of a function call, such as
`rgb(...)`, belongs to the call: a parenthesis opens a call if a name character stands right before
it, and whatever is nested in a call is inside it. And the hash and the id of a reference
`#col-1:width` are covered: an id may hold digits and hyphens in any place.
-/

namespace UtilityCss.Value

open UtilityCss.Text

/-- A character of a value with its neighbourhood. -/
structure Site where
  /-- The character. -/
  char : Char
  /-- The character right before it. -/
  before : Option Char
  /-- The nearest character before it that is not blank. -/
  anchor : Option Char
  /-- The character right behind it. -/
  after : Option Char
  /-- Whether it belongs to the hash and id of a reference. -/
  covered : Bool
  /-- Whether it stands inside a function call. -/
  inCall : Bool
deriving DecidableEq, Repr

namespace Site

/-- Whether a plus or minus here would be a sign. -/
def isSign (s : Site) : Bool :=
  match s.anchor with
  | none => true
  | some c => c ∈ ['+', '-', '*', '/', '(', ',', '#']

/-- Whether a hyphen here joins two letters. -/
def joinsLetters (s : Site) : Bool := s.before.any isLetter && s.after.any isLetter

/-- Whether the character is an operator by its spelling and neighbours. -/
def isOperator (s : Site) : Bool :=
  if s.char = '*' ∨ s.char = '/' then true
  else if s.char = '+' then !s.isSign
  else if s.char = '-' then !s.isSign && !s.joinsLetters
  else false

/-- **Whether the character calculates**: an operator outside calls and references. -/
def calculates (s : Site) : Bool := s.isOperator && !s.covered && !s.inCall

end Site

/-- What is known about a value up to a position. -/
structure Context where
  /-- The character right before. -/
  before : Option Char
  /-- The nearest character before that is not blank. -/
  anchor : Option Char
  /-- The open parentheses, the innermost first: whether each of them opened a call. -/
  calls : List Bool
  /-- How many characters from here on belong to the id of a reference. -/
  idLeft : Nat
deriving DecidableEq, Repr

namespace Context

/-- The context at the start of a value. -/
def start : Context := ⟨none, none, [], 0⟩

/-- The open parentheses behind a character. -/
def callsAfter (x : Context) (c : Char) : List Bool :=
  if c = '(' then x.before.any isNameChar :: x.calls
  else if c = ')' then x.calls.tail
  else x.calls

/-- How much of the id of a reference is left behind a character. -/
def idLeftAfter (x : Context) (c : Char) (rest : List Char) : Nat :=
  if x.idLeft = 0 ∧ c = '#' then Reference.idLength rest else x.idLeft - 1

/-- The context behind a character, with the rest of the value after it. -/
def next (x : Context) (c : Char) (rest : List Char) : Context where
  before := some c
  anchor := if isBlank c then x.anchor else some c
  calls := x.callsAfter c
  idLeft := x.idLeftAfter c rest

/-- A character in its context. A parenthesis is never an operator, so the calls behind the
character describe it as well as those before it. -/
def site (x : Context) (c : Char) (rest : List Char) : Site where
  char := c
  before := x.before
  anchor := x.anchor
  after := rest.head?
  covered := x.idLeft != 0 || (c == '#' && Reference.idLength rest != 0)
  inCall := (x.callsAfter c).any id

end Context

/-- The sites of a value from a context on. -/
def sitesFrom : Context → List Char → List Site
  | _, [] => []
  | x, c :: rest => x.site c rest :: sitesFrom (x.next c rest) rest

/-- **The characters of a value with their neighbourhoods.** -/
def sites (value : List Char) : List Site := sitesFrom Context.start value

/-- **Whether a value is a calculation**: some character of it calculates. -/
def hasCalculation (value : List Char) : Bool := (sites value).any Site.calculates

/-- A character with a space on either side if it is an additive operator. -/
def Site.spaced (s : Site) : List Char :=
  if (s.char = '+' ∨ s.char = '-') ∧ s.calculates then [' ', s.char, ' '] else [s.char]

/-- **Space out the additive operators** of an expression: one space on either side of each, and
one space for every other run of blanks. -/
def spaceOperators (expression : List Char) : List Char :=
  collapse ((sites expression).flatMap Site.spaced)

end UtilityCss.Value
