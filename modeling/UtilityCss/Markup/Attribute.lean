import UtilityCss.Text.Find
import UtilityCss.Text.Scan

/-!
# Class attributes in markup

Class attributes are found by their spelling alone; the markup around them is not parsed. There are
three forms, each after `class=` or `className=`:

* *quoted*, `class="..."`, between quote marks of either kind, which need not be the same;
* *template*, with braces and backquotes around the value;
* *braced*, with braces around a quoted value.

A value is never empty and runs up to the first character that could end it: a quote mark of either
kind, or a backquote in a template. If what follows is not the end of the form, there is no
attribute at this place. The values of a text are listed form by form, since a text is scanned once
for each.
-/

namespace UtilityCss.Markup

open UtilityCss.Text

/-- The ways in which a class attribute is written. -/
inductive AttributeForm where
  /-- The value stands between quote marks. -/
  | quoted
  /-- The value stands between backquotes inside braces. -/
  | template
  /-- The value stands between quote marks inside braces. -/
  | braced
deriving DecidableEq, Repr

/-- Whether a character is a quote mark, single or double. -/
def isQuote (c : Char) : Bool := c == '\x22' || c == '\x27'

/-- The backquote. -/
def isBackquote (c : Char) : Bool := c == '\x60'

namespace AttributeForm

/-- Whether a character delimits values of this form. -/
def isDelimiter : AttributeForm → Char → Bool
  | quoted => isQuote
  | template => isBackquote
  | braced => isQuote

/-- Whether the delimited value stands inside braces. -/
def hasBraces : AttributeForm → Bool
  | quoted => false
  | template => true
  | braced => true

/-- What stands before the delimiter that opens a value. -/
def opening (form : AttributeForm) : List Char := if form.hasBraces then ['\x7b'] else []

/-- What stands after the delimiter that ends a value. -/
def closing (form : AttributeForm) : List Char := if form.hasBraces then ['\x7d'] else []

end AttributeForm

/-- What follows the name of a class attribute and its equals sign. -/
def afterAttributeName? (text : List Char) : Option (List Char) :=
  (strip? "className=".toList text).orElse fun _ => strip? "class=".toList text

/-- What follows one character of a class. -/
def afterChar? (isWanted : Char → Bool) : List Char → Option (List Char)
  | [] => none
  | c :: rest => if isWanted c then some rest else none

/-- The value of an attribute of the given form at the start of a text, and what follows it. -/
def attribute? (form : AttributeForm) (text : List Char) : Option (List Char × List Char) := do
  let body ← afterAttributeName? text
  let body ← strip? form.opening body
  let body ← afterChar? form.isDelimiter body
  let value := body.takeWhile fun c => !form.isDelimiter c
  let rest := body.dropWhile fun c => !form.isDelimiter c
  let rest ← afterChar? form.isDelimiter rest
  let rest ← strip? form.closing rest
  if value.isEmpty then none else some (value, rest)

/-- The reader of attributes of one form. -/
def readAttribute (form : AttributeForm) : Reader (List Char) := fun text =>
  (attribute? form text).map fun (value, rest) => (value, text.length - rest.length)

/-- The values of the attributes of one form, from left to right. -/
def valuesOf (form : AttributeForm) (text : List Char) : List (List Char) :=
  found (readAttribute form) text

/-- The order in which the forms are listed. -/
def AttributeForm.all : List AttributeForm := [.quoted, .template, .braced]

/-- **The values of the class attributes of a text**, form by form. -/
def attributeValues (text : List Char) : List (List Char) :=
  AttributeForm.all.flatMap fun form => valuesOf form text

end UtilityCss.Markup
