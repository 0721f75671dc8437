import UtilityCss.FirstSeen
import UtilityCss.Value.Reference

/-!
# What needs support at run time

A style sheet alone cannot follow the geometry of an element or copy the classes of one. The
registry collects what the runtime script has to do: the references that values use, and the
elements whose classes are copied, each once and in first-seen order.
-/

namespace UtilityCss

/-- References and class copies that the runtime script serves. -/
structure Registry where
  /-- The references to element geometry. -/
  references : FirstSeen Reference
  /-- The ids of the elements whose classes are copied. -/
  classCopies : FirstSeen String

namespace Registry

/-- The registry without entries. -/
def empty : Registry := ⟨∅, ∅⟩

instance : EmptyCollection Registry := ⟨empty⟩

instance : Inhabited Registry := ⟨empty⟩

/-- Whether nothing needs support. -/
def isEmpty (r : Registry) : Bool := r.references.isEmpty && r.classCopies.isEmpty

/-- Add a reference. -/
def addReference (r : Registry) (reference : Reference) : Registry :=
  { r with references := r.references.insert reference }

/-- Add the references of a value or of a whole meaning, in order. -/
def addReferences (r : Registry) (references : List Reference) : Registry :=
  { r with references := r.references.insertAll references }

/-- Add an element whose classes are copied. -/
def addClassCopy (r : Registry) (id : String) : Registry :=
  { r with classCopies := r.classCopies.insert id }

end Registry

end UtilityCss
