import UtilityCss.Options
import UtilityCss.Path
import UtilityCss.Text.Blank
import UtilityCss.Token.Vocabulary

/-!
# Configurations

A configuration says which files of a project are read, where the outputs go, what the names in
tokens stand for, and how the outputs are written. It is never written out in full: a project gives
`Overlay`s, in which every part may be left out, and lays them over a configuration that is already
complete. Lists and single values of an overlay replace what was there; its tables are laid over
the tables that were there, key by key, so a project can add a breakpoint without repeating the
others.
-/

namespace UtilityCss

open UtilityCss.Text

/-- The configuration of a project. -/
structure Config where
  /-- Patterns of the files to read, relative to the root of the project. -/
  content : List String
  /-- The path of the style sheet. -/
  output : String
  /-- The path of the runtime script, if it does not go next to the style sheet. -/
  scriptOutput : Option String
  /-- What the names in tokens stand for. -/
  vocabulary : Vocabulary
  /-- How the outputs are written. -/
  settings : Settings

/-- **A partial configuration**, to be laid over a complete one. -/
structure Overlay where
  /-- Patterns that replace those of the configuration. -/
  content : Option (List String) := none
  /-- A path that replaces the one of the style sheet. -/
  output : Option String := none
  /-- A path that replaces the one of the runtime script. -/
  scriptOutput : Option String := none
  /-- Breakpoints to define. -/
  breakpoints : Table String String := ∅
  /-- Short names to define. -/
  properties : Table String Property := ∅
  /-- Named values to define. -/
  theme : Theme := ∅
  /-- Whether both outputs are minified. -/
  minify : Option Bool := none
  /-- Whether both outputs get a header comment. -/
  comments : Option Bool := none

/-- The overlay that leaves everything out. -/
def Overlay.empty : Overlay := {}

instance : EmptyCollection Overlay := ⟨Overlay.empty⟩

/-- Define the names of an overlay on top of a vocabulary. -/
def Vocabulary.overlay (v : Vocabulary) (o : Overlay) : Vocabulary where
  properties := v.properties.overlay o.properties
  breakpoints := v.breakpoints.overlay o.breakpoints
  theme := v.theme.overlay o.theme

/-- Make the settings that an overlay makes. -/
def Settings.overlay (s : Settings) (o : Overlay) : Settings where
  minify := o.minify.getD s.minify
  comments := o.comments.getD s.comments

namespace Config

/-- **Lay an overlay over a configuration.** -/
def overlay (c : Config) (o : Overlay) : Config where
  content := o.content.getD c.content
  output := o.output.getD c.output
  scriptOutput := o.scriptOutput.or c.scriptOutput
  vocabulary := c.vocabulary.overlay o
  settings := c.settings.overlay o

/-- Lay overlays over a configuration one after another. -/
def overlayAll (c : Config) (overlays : List Overlay) : Config := overlays.foldl overlay c

/-- **The path of the style sheet** of a project. -/
def cssPath (c : Config) (root : Path) : Path := root.join ⟨c.output⟩

/-- **The path of the runtime script** of a project: next to the style sheet, unless the
configuration names another place. -/
def scriptPath (c : Config) (root : Path) : Path :=
  match c.scriptOutput with
  | some output => root.join ⟨output⟩
  | none => (c.cssPath root).withExtension "js"

end Config

/-! ### Problems -/

/-- What a configuration can lack. -/
inductive ConfigProblem where
  /-- No pattern names any file. -/
  | noContent
  /-- There is no path for the style sheet. -/
  | noOutput
deriving DecidableEq, Repr

/-- The wording of a problem. -/
def ConfigProblem.message : ConfigProblem → String
  | noContent => "content: at least one file pattern is required"
  | noOutput => "output: a style sheet path is required"

/-- **What a configuration lacks**: a pattern that is not blank, or a path that is not blank. -/
def Config.problems (c : Config) : List ConfigProblem :=
  (if c.content.all (isBlankText ·.toList) then [.noContent] else [])
    ++ (if isBlankText c.output.toList then [.noOutput] else [])

/-- Whether a configuration lacks nothing. -/
def Config.isValid (c : Config) : Bool := c.problems.isEmpty

end UtilityCss
