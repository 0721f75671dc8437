import UtilityCss.CommandLine.Arguments
import UtilityCss.Info

/-!
# Explanations of the command line

The explanation of a subcommand says what it does, how it is called and which options it has; the
explanation of the command as a whole lists the subcommands as well. Lists have two columns, and the
second one starts two blanks behind the widest entry of the first.
-/

namespace UtilityCss.CommandLine

/-! ### Options -/

/-- What stands for the value of an option. -/
def Switch.valueName? : Switch → Option String
  | config => some "FILE"
  | root => some "DIR"
  | format => some "format"
  | _ => none

/-- What an option does. -/
def Switch.about : Switch → String
  | config => "Configuration file path (default: huhm.toml or huhm.json in the root)"
  | root => "Project root [default: .]"
  | verbose => "Increase verbosity (can be used multiple times)"
  | help => "Print help"
  | version => "Print version"
  | minify => "Minify both outputs"
  | noComments => "Omit the header comment"
  | stats => "Show detailed compilation statistics"
  | format => "Statistics output format [default: text] [possible values: text, json]"

/-- An option as it is written, with dots if it may be given more than once. -/
def Switch.form (s : Switch) : String :=
  ((s.short?.map fun letter => String.ofList ['-', letter, ',', ' ']).getD "    ") ++ "--" ++ s.long
    ++ (if s = .verbose then "..." else "")
    ++ ((s.valueName?.map fun name => " <" ++ name ++ ">").getD "")

/-- The options of a level, in the order in which they are explained. -/
def Level.switches : Level → List Switch
  | top => [.config, .root, .verbose, .help, .version]
  | init => [.config, .root, .verbose, .help]
  | build => [.config, .minify, .noComments, .root, .stats, .verbose, .format, .help]
  | watch => [.config, .minify, .noComments, .root, .verbose, .help]

example (level : Level) : ∀ s ∈ level.switches, s.isAllowed level := by
  cases level <;> decide

/-! ### Subcommands -/

/-- What the subcommand that explains the others does. -/
def helpAboutHelp : String := "Print this message or the help of the given subcommand(s)"

/-- What a level is for. -/
def Level.about : Level → String
  | top => Info.description
  | init => "Write a starter huhm.toml"
  | build => "Scan content files and write the style sheet and runtime script"
  | watch => "Build, then rebuild whenever a content file changes"

/-- The subcommands with what they do. -/
def commandEntries : List (String × String) :=
  [("init", Level.about .init), ("build", Level.about .build),
    ("watch", Level.about .watch ++ " [alias: dev]"), (helpName, helpAboutHelp)]

/-! ### Layout -/

/-- A list in two columns. -/
def columns (entries : List (String × String)) : List String :=
  let width := (entries.map fun entry => entry.1.length).foldl max 0
  entries.map fun (first, second) =>
    "  " ++ first ++ String.ofList (List.replicate (width + 2 - first.length) ' ') ++ second

/-- How a level is called. -/
def usage : Level → String
  | .top => "[OPTIONS] [COMMAND]"
  | .init => "init [OPTIONS]"
  | .build => "build [OPTIONS]"
  | .watch => "watch [OPTIONS]"

/-- **What is shown when help is asked for.** -/
def helpLines : Topic → List String
  | .level level =>
    [level.about, "", "Usage: " ++ Info.name ++ " " ++ usage level, ""]
      ++ (if level = .top then "Commands:" :: columns commandEntries ++ [""] else [])
      ++ "Options:" :: columns (level.switches.map fun s => (s.form, s.about))
  | .help =>
    [helpAboutHelp, "", "Usage: " ++ Info.name ++ " " ++ helpName ++ " [COMMAND]...", "",
      "Arguments:"] ++ columns [("[COMMAND]...", "Print help for the subcommand(s)")]

end UtilityCss.CommandLine
