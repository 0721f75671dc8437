/-!
# Letters and name characters

The names that tokens, breakpoints and element references are made of are ASCII: a *letter* is one
of `a`-`z` and `A`-`Z`, and a *name character* is a letter, a decimal digit, a hyphen or an
underscore. Characters beyond ASCII belong to neither class, whatever their Unicode category.
-/

namespace UtilityCss.Text

/-- Whether a character is an ASCII letter. -/
def isLetter (c : Char) : Bool := c.isAlpha

/-- Whether a character can stand in the name of an element or of a breakpoint. -/
def isNameChar (c : Char) : Bool := c.isAlphanum || c == '-' || c == '_'

/-- Whether a character can stand in the name of a geometry property. -/
def isPropertyChar (c : Char) : Bool := c.isAlpha || c == '-'

end UtilityCss.Text
