/-!
# Reading geometry at run time

A geometry property of a reference is a short name for something that a script can read from an
element: the outer size, the size without borders, the size of the content box, and the distances
to the four sides of the containing element. Any other property is read from the computed style,
under its name in camel case.
-/

namespace UtilityCss.Script

/-- A name in camel case: hyphens go, and the letter behind each becomes upper case. `raised` says
whether a hyphen stands right before. -/
def camelFrom (raised : Bool) : List Char → List Char
  | [] => []
  | c :: rest =>
    if c = '-' then camelFrom true rest
    else (if raised then c.toUpper else c) :: camelFrom false rest

/-- **A property name in camel case**: `margin-top` becomes `marginTop`. -/
def camelCase (name : String) : String := String.ofList (camelFrom false name.toList)

/-- How a geometry property is read from an element. -/
inductive Accessor where
  /-- The outer width. -/
  | offsetWidth
  /-- The outer height. -/
  | offsetHeight
  /-- The width without borders. -/
  | clientWidth
  /-- The height without borders. -/
  | clientHeight
  /-- The width of the content box. -/
  | contentWidth
  /-- The height of the content box. -/
  | contentHeight
  /-- The distance to the top of the containing element. -/
  | offsetTop
  /-- The distance to the left of the containing element. -/
  | offsetLeft
  /-- The distance to the right of the containing element. -/
  | offsetRight
  /-- The distance to the bottom of the containing element. -/
  | offsetBottom
  /-- A property of the computed style, by its name in camel case. -/
  | computedStyle (name : String)
deriving DecidableEq, Repr

namespace Accessor

/-- **How a property is read.** -/
def ofProperty (property : String) : Accessor :=
  if property = "width" then offsetWidth
  else if property = "height" then offsetHeight
  else if property = "innerWidth" then clientWidth
  else if property = "innerHeight" then clientHeight
  else if property = "contentWidth" then contentWidth
  else if property = "contentHeight" then contentHeight
  else if property = "top" then offsetTop
  else if property = "left" then offsetLeft
  else if property = "right" then offsetRight
  else if property = "bottom" then offsetBottom
  else computedStyle (camelCase property)

/-- **The expression that reads the value** from the element in a variable. -/
def expression (a : Accessor) (element : String) : String :=
  match a with
  | offsetWidth => element ++ ".offsetWidth + 'px'"
  | offsetHeight => element ++ ".offsetHeight + 'px'"
  | clientWidth => element ++ ".clientWidth + 'px'"
  | clientHeight => element ++ ".clientHeight + 'px'"
  | contentWidth => "parseFloat(getComputedStyle(" ++ element ++ ").width) + 'px'"
  | contentHeight => "parseFloat(getComputedStyle(" ++ element ++ ").height) + 'px'"
  | offsetTop => element ++ ".offsetTop + 'px'"
  | offsetLeft => element ++ ".offsetLeft + 'px'"
  | offsetRight =>
    "(" ++ element ++ ".offsetParent ? " ++ element ++ ".offsetParent.offsetWidth - " ++ element
      ++ ".offsetLeft - " ++ element ++ ".offsetWidth : 0) + 'px'"
  | offsetBottom =>
    "(" ++ element ++ ".offsetParent ? " ++ element ++ ".offsetParent.offsetHeight - " ++ element
      ++ ".offsetTop - " ++ element ++ ".offsetHeight : 0) + 'px'"
  | computedStyle name => "getComputedStyle(" ++ element ++ ")." ++ name

end Accessor

end UtilityCss.Script
