import UtilityCss.Text.Letter
import UtilityCss.Text.Scan

/-!
# References to the geometry of an element

`#box:width` stands for the width of the element with the id `box`. The style sheet sees it as a
custom property, `var(--box-width)`, and the runtime script keeps that property up to date.
-/

namespace UtilityCss

/-- A property of an element, by the id of the element. -/
structure Reference where
  /-- The id of the element. -/
  element : String
  /-- The name of the property. -/
  property : String
deriving DecidableEq, Repr

namespace Reference

open UtilityCss.Text

/-- The custom property that carries the value, `--id-property`. -/
def variableName (r : Reference) : String := "--" ++ r.element ++ "-" ++ r.property

/-- How a style sheet uses the value. -/
def use (r : Reference) : String := "var(" ++ r.variableName ++ ")"

/-- **Read a reference** at the start of a text: a hash, a run of name characters as long as
possible, a colon, and a run of letters and hyphens as long as possible. -/
def read : Reader Reference := fun text =>
  match text with
  | '#' :: rest =>
    let id := rest.takeWhile isNameChar
    match rest.drop id.length with
    | ':' :: tail =>
      let property := tail.takeWhile isPropertyChar
      if id.isEmpty || property.isEmpty then none
      else some (⟨String.ofList id, String.ofList property⟩, 2 + id.length + property.length)
    | _ => none
  | _ => none

/-- The length of the id of a reference that starts with this hash, that is of a run of name
characters with a colon behind it; zero if there is no such run. -/
def idLength (afterHash : List Char) : Nat :=
  let id := afterHash.takeWhile isNameChar
  if (afterHash.drop id.length).head? = some ':' then id.length else 0

/-- Whether a text holds a hash, an id and a colon somewhere. -/
def occursIn : List Char → Bool
  | [] => false
  | c :: rest => (c == '#' && idLength rest != 0) || occursIn rest

end Reference

end UtilityCss
