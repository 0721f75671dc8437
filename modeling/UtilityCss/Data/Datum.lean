/-!
# Data of a configuration file

The two formats of configuration files describe the same kind of data: texts, truth values, lists
and tables. `Datum` is that kind. Numbers are data as well, but no setting takes one, so all of them
are the same `Datum.number`.

A JSON text can spell code units that belong to no character. Such a text is harmless in a part of
a file that nobody reads, so it is a datum, whose text is `none`.
-/

namespace UtilityCss.Data

/-- A value in a configuration file. -/
inductive Datum where
  /-- The value that stands for a missing one. -/
  | null
  /-- A truth value. -/
  | boolean (value : Bool)
  /-- A number. -/
  | number
  /-- A text; `none` if it spells no sequence of characters. -/
  | text (value : Option String)
  /-- A list. -/
  | list (items : List Datum)
  /-- Keys with their values, in the order of the file. -/
  | table (entries : List (Option String × Datum))

namespace Datum

/-- The truth value that a datum is. -/
def boolean? : Datum → Option Bool
  | boolean value => some value
  | _ => none

/-- The text that a datum is. -/
def text? : Datum → Option String
  | text value => value
  | _ => none

/-- The members of the list that a datum is. -/
def list? : Datum → Option (List Datum)
  | list items => some items
  | _ => none

/-- The keys and values of the table that a datum is. -/
def table? : Datum → Option (List (String × Datum))
  | table entries => entries.mapM fun (key, value) => key.map fun key => (key, value)
  | _ => none

end Datum

end UtilityCss.Data
