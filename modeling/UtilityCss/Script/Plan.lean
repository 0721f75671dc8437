import UtilityCss.Registry
import UtilityCss.Table

/-!
# The plan of a runtime script

A plan says what the runtime script does: for each element the geometry properties that are read
from it, and the elements whose classes are copied. The references of a registry are grouped by
element, elements in the order in which they were first seen, and so are the properties of each.
-/

namespace UtilityCss.Script

/-- The geometry properties read from one element. -/
structure Binding where
  /-- The id of the element. -/
  element : String
  /-- The properties. -/
  properties : List String
deriving DecidableEq, Repr

/-- What a runtime script does. -/
structure Plan where
  /-- The geometry that is kept up to date. -/
  geometry : List Binding
  /-- The ids of the elements whose classes are copied. -/
  classCopies : List String
deriving DecidableEq, Repr

/-- Add the property of a reference to the group of its element. -/
def addToGroup (groups : Table String (FirstSeen String)) (r : Reference) :
    Table String (FirstSeen String) :=
  groups.alter r.element fun properties => (properties.getD ∅).insert r.property

/-- References grouped by element. -/
def groupByElement (references : List Reference) : Table String (FirstSeen String) :=
  references.foldl addToGroup ∅

namespace Plan

/-- **The plan that serves a registry.** -/
def ofRegistry (r : Registry) : Plan where
  geometry := (groupByElement r.references.toList).entries.map fun (element, properties) =>
    ⟨element, properties.toList⟩
  classCopies := r.classCopies.toList

/-- Whether there is nothing to do. -/
def isEmpty (p : Plan) : Bool := p.geometry.isEmpty && p.classCopies.isEmpty

end Plan

end UtilityCss.Script
