import UtilityCss.Config.Basic
import UtilityCss.Data.Json
import UtilityCss.Data.Toml.Reader

/-!
# Configuration files

A configuration file is an `Overlay` in one of two formats. Both describe the same record of
settings; keys that name no setting are passed over, and a setting of the wrong kind spoils the
file.

A record may also be written as the list of its settings in a fixed order. What such a list may
lack or have in excess differs: the two tables of a theme may be left out from the end, the
settings of the other records may not, and in a TOML file members beyond the last setting are
passed over.
-/

namespace UtilityCss

open UtilityCss.Data

/-- The formats of configuration files. -/
inductive Format where
  /-- Strict JSON. -/
  | json
  /-- TOML 1.0. -/
  | toml
deriving DecidableEq, Repr

namespace Format

/-- The name of a format. -/
def name : Format → String
  | json => "JSON"
  | toml => "TOML"

/-- The format of the files with an extension. -/
def ofExtension? : String → Option Format
  | "json" => some json
  | "toml" => some toml
  | _ => none

/-- The datum that a text describes. -/
def read? : Format → String → Option Datum
  | json => Json.read?
  | toml => Toml.read?

/-- Whether a list of settings may have members beyond the last setting. -/
def allowsExcess : Format → Bool
  | json => false
  | toml => true

end Format

/-! ### Records -/

/-- The settings of a record that are present, by name. -/
abbrev Fields := List (String × Datum)

namespace Fields

/-- **The settings of a record.** Of a table they are the entries with a known name, none of which
may occur twice; of a list they are its members in order. -/
def of? (names : List String) (mayLack mayExceed : Bool) : Datum → Option Fields
  | .list items =>
    if (mayLack || names.length ≤ items.length) && (mayExceed || items.length ≤ names.length) then
      some (names.zip items)
    else none
  | datum => do
    let known := (← datum.table?).filter fun entry => names.contains entry.1
    guard (known.map Prod.fst).Nodup
    return known

/-- A setting that may be missing or null. -/
def optional? {α : Type} (fields : Fields) (name : String) (read : Datum → Option α) :
    Option (Option α) :=
  match fields.lookup name with
  | none => some none
  | some .null => some none
  | some datum => (read datum).map some

/-- A setting that may be missing, and then has a value of its own. -/
def withDefault? {α : Type} (fields : Fields) (name : String) (value : α)
    (read : Datum → Option α) : Option α :=
  match fields.lookup name with
  | none => some value
  | some datum => read datum

end Fields

/-! ### Settings -/

/-- A list of texts. -/
def textsOf? (datum : Datum) : Option (List String) := do (← datum.list?).mapM Datum.text?

/-- A table; a key that is written twice keeps its first place and its last value. -/
def tableOf? {α : Type} (read : Datum → Option α) (datum : Datum) : Option (Table String α) := do
  let entries ← (← datum.table?).mapM fun (key, value) => do return (key, ← read value)
  return .ofList entries

/-- The properties that a short name stands for: one text, or a list of texts. -/
def propertyOf? (datum : Datum) : Option Property :=
  match datum.text? with
  | some name => some (.single name)
  | none => Property.several <$> textsOf? datum

/-- The named values of a project. -/
def themeOf? (format : Format) (datum : Datum) : Option Theme := do
  let fields ← Fields.of? ["colors", "spacing"] true format.allowsExcess datum
  return ⟨← fields.withDefault? "colors" ∅ (tableOf? Datum.text?),
    ← fields.withDefault? "spacing" ∅ (tableOf? Datum.text?)⟩

/-- How the outputs are written: whether they are minified, and whether they get a comment. -/
def switchesOf? (format : Format) (datum : Datum) : Option (Option Bool × Option Bool) := do
  let fields ← Fields.of? ["minify", "comments"] false format.allowsExcess datum
  return (← fields.optional? "minify" Datum.boolean?, ← fields.optional? "comments" Datum.boolean?)

namespace Overlay

/-- The names of the settings, in the order in which a list gives them. -/
def fieldNames : List String :=
  ["content", "output", "script_output", "breakpoints", "properties", "theme", "compiler"]

/-- The overlay that a datum describes. -/
def ofDatum? (format : Format) (datum : Datum) : Option Overlay := do
  let fields ← Fields.of? fieldNames false format.allowsExcess datum
  let content ← fields.optional? "content" textsOf?
  let output ← fields.optional? "output" Datum.text?
  let scriptOutput ← fields.optional? "script_output" Datum.text?
  let breakpoints ← fields.optional? "breakpoints" (tableOf? Datum.text?)
  let properties ← fields.optional? "properties" (tableOf? propertyOf?)
  let theme ← fields.optional? "theme" (themeOf? format)
  let switches ← fields.optional? "compiler" (switchesOf? format)
  return {
    content, output, scriptOutput
    breakpoints := breakpoints.getD ∅
    properties := properties.getD ∅
    theme := theme.getD ∅
    minify := switches.bind Prod.fst
    comments := switches.bind Prod.snd }

/-- **The overlay that a configuration file describes.** -/
def read? (format : Format) (source : String) : Option Overlay :=
  format.read? source >>= ofDatum? format

end Overlay

end UtilityCss
