import UtilityCss.Property
import UtilityCss.Sheet.Selector
import UtilityCss.Token.Meaning

/-!
# Rules

A rule sets the properties behind a short name to one value, for the elements that carry a token as
their class. Its text is on one line: the selector, then one declaration for every property.
-/

namespace UtilityCss

/-- A rule of a style sheet. -/
structure Rule where
  /-- The token that the rule belongs to. -/
  token : String
  /-- The properties that it sets. -/
  property : Property
  /-- The value that it sets them to. -/
  value : Value
deriving DecidableEq, Repr

namespace Rule

/-- The declaration of one property. -/
def declaration (name value : String) : String := name ++ ": " ++ value ++ ";"

/-- The declarations of several properties with the same value. -/
def declarations (property : Property) (value : String) : String :=
  " ".intercalate (property.names.map fun name => declaration name value)

/-- **The text of a rule** for a token, a property and the text of a value. -/
def format (token : String) (property : Property) (value : String) : String :=
  "." ++ Sheet.escape token ++ " \x7b " ++ declarations property value ++ " \x7d"

/-- The text of a rule. -/
def text (r : Rule) : String := format r.token r.property r.value.text

end Rule

end UtilityCss
