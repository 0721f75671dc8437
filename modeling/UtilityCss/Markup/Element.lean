import UtilityCss.Markup.Attribute

/-!
# The classes of an element given by its id

An element is looked up by the spelling of its two attributes, inside one tag: between them no `>`
may stand. The id is compared as it is written, between quote marks of either kind.

* If the id comes first, its tag is the one after the leftmost id attribute that has a quoted class
  attribute behind it, and of several class attributes in the tag the last one counts.
* Otherwise the class attribute comes first: the leftmost quoted class attribute that is followed
  by the id in the same tag.

The first order wins over the second one, wherever the two stand.

An id may have any length here. A lookup that goes through a compiled pattern gives up on an id of
hundreds of thousands of characters, where the pattern becomes too large, and reports the element as
not found; that bound is left out.
-/

namespace UtilityCss.Markup

open UtilityCss.Text

/-- What follows an id attribute with the given value at the start of a text. -/
def afterId? (id text : List Char) : Option (List Char) := do
  let body ← strip? "id=".toList text
  let body ← afterChar? isQuote body
  let body ← strip? id body
  afterChar? isQuote body

/-- The value of the last quoted class attribute that starts before the tag ends. -/
def lastClassesInTag? : List Char → Option (List Char)
  | [] => none
  | c :: rest =>
    if c = '>' then none
    else (lastClassesInTag? rest).orElse fun _ => (attribute? .quoted (c :: rest)).map Prod.fst

/-- Whether the id attribute starts before the tag ends. -/
def hasIdInTag (id : List Char) : List Char → Bool
  | [] => false
  | c :: rest => (afterId? id (c :: rest)).isSome || (c != '>' && hasIdInTag id rest)

/-- The classes of an element whose id attribute comes first. -/
def classesAfterId? (id : List Char) : List Char → Option (List Char)
  | [] => none
  | c :: rest =>
    ((afterId? id (c :: rest)).bind lastClassesInTag?).orElse fun _ => classesAfterId? id rest

/-- The classes of an element whose class attribute comes first. -/
def classesBeforeId? (id : List Char) : List Char → Option (List Char)
  | [] => none
  | c :: rest =>
    ((attribute? .quoted (c :: rest)).bind fun (value, after) =>
      if hasIdInTag id after then some value else none).orElse fun _ => classesBeforeId? id rest

/-- **The class attribute of the element with the given id.** -/
def elementClasses? (text id : List Char) : Option (List Char) :=
  (classesAfterId? id text).orElse fun _ => classesBeforeId? id text

end UtilityCss.Markup
