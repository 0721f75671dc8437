/-!
# Options of a compilation

The settings of a project say whether outputs are minified and whether they get a header comment.
A compilation has in addition the timestamp that the header shows. The timestamp is a text given
from outside, so a compilation is a function of its inputs alone.
-/

namespace UtilityCss

/-- The settings that a configuration can make. -/
structure Settings where
  /-- Whether both outputs are minified. -/
  minify : Bool
  /-- Whether both outputs get a header comment. -/
  comments : Bool
deriving DecidableEq, Repr

/-- The settings of a project that makes none. -/
def Settings.standard : Settings := ⟨false, true⟩

/-- The options of one compilation. -/
structure Options where
  /-- Whether both outputs are minified. -/
  minify : Bool
  /-- Whether both outputs get a header comment. -/
  comments : Bool
  /-- The time that the header comment shows. -/
  timestamp : String
deriving DecidableEq, Repr

/-- The options that settings make at a time. -/
def Settings.options (s : Settings) (timestamp : String) : Options :=
  ⟨s.minify, s.comments, timestamp⟩

/-- The time for the header comment, if there is to be one. -/
def Options.header? (o : Options) : Option String := if o.comments then some o.timestamp else none

end UtilityCss
