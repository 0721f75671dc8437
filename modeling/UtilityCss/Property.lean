/-!
# Style properties

A short name stands for one style property or for several that all get the same value, such as the
left and right padding. The two cases are kept apart even where a list has a single member, since
they are written differently in a configuration.
-/

namespace UtilityCss

/-- The style properties that a short name stands for. -/
inductive Property where
  /-- One property. -/
  | single (name : String)
  /-- Several properties that get the same value. -/
  | several (names : List String)
deriving DecidableEq, Repr

namespace Property

/-- The names of the properties, in order. -/
def names : Property → List String
  | single name => [name]
  | several names => names

/-- The names with commas between them. -/
def display (p : Property) : String := ", ".intercalate p.names

end Property

end UtilityCss
