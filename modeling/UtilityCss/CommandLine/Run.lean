import UtilityCss.CommandLine.Help
import UtilityCss.CommandLine.Report

/-!
# The command line

`run` is the whole command line but for the clock, the real files and the waiting: from the
arguments, a timestamp and a file tree it makes the text to print, the exit code and the file tree
afterwards. A subcommand that waits for changes only checks that it can start, and hands over what
has to be done again and again (`Watch`).
-/

namespace UtilityCss.CommandLine

/-- What a finished command leaves on the screen. -/
structure Transcript where
  /-- The exit code. -/
  exit : Nat
  /-- The text on standard output, by the time in milliseconds that a build took. -/
  output : Nat → String
  /-- Why the command failed. -/
  failure : Option Failure := none

/-- A project that is built whenever it changes. -/
structure Watch where
  /-- The configuration. -/
  config : Config
  /-- The root, from the top of the file system. -/
  root : Path
  /-- Whether and how the outputs are minified and commented. -/
  settings : Settings
  /-- The source files. -/
  sources : Sources

/-- What a command comes to. -/
inductive Response where
  /-- It is finished. -/
  | finished (transcript : Transcript)
  /-- It waits for changes. -/
  | waiting (watch : Watch)

namespace Response

/-- A command that succeeded. -/
def success (output : Nat → String) : Response := .finished ⟨0, output, none⟩

/-- A command that failed after it had printed something. -/
def failed (output : String) (failure : Failure) : Response :=
  .finished ⟨1, fun _ => output, some failure⟩

end Response

/-- The settings of a configuration, as options on the command line change them. -/
def settingsOf (config : Config) (minify noComments : Bool) : Settings :=
  ⟨config.settings.minify || minify, config.settings.comments && !noComments⟩

/-- Make a configuration file. -/
def runInit (root : Path) (t : FileTree) : Response × FileTree :=
  let path := root.join ⟨Config.templateName⟩
  match (Config.writeTemplate path).outcome t with
  | (.ok _, t) => (.success fun _ => linesText (createdLines path), t)
  | (.error e, t) => (.failed "" e, t)

/-- What is printed when a build has succeeded. -/
def buildText (root : Path) (stats : Bool) (format : StatsFormat) (report : BuildReport)
    (milliseconds : Nat) : String :=
  match stats, format with
  | false, .text => linesText (startLines root ++ summaryLines report milliseconds)
  | false, .json => linesText (summaryLines report milliseconds)
  | true, .text =>
    linesText (startLines root ++ summaryLines report milliseconds
      ++ statsLines report.stats milliseconds)
  | true, .json => linesText [statsObject report.stats milliseconds]

/-- **Build a project.** -/
def runBuild (invocation : Invocation) (minify noComments stats : Bool) (format : StatsFormat)
    (timestamp : String) (t : FileTree) : Response × FileTree :=
  let root := invocation.root
  match Config.load t invocation.configPath root with
  | .error e => (.failed "" e, t)
  | .ok config =>
    let options := (settingsOf config minify noComments).options timestamp
    match (Project.build config root options).outcome t with
    | (.ok report, t) => (.success (buildText root stats format report), t)
    | (.error e, t) =>
      (.failed (if format = .text then linesText (startLines root) else "") e, t)

/-- The path of a place. -/
def pathOf (place : List String) : Path := ⟨"/" ++ "/".intercalate place⟩

/-- **Check that a project can be watched.** -/
def runWatch (invocation : Invocation) (minify noComments : Bool) (t : FileTree) :
    Except Failure Watch := do
  let config ← Config.load t invocation.configPath invocation.root
  let root := pathOf (← (t.resolve invocation.root).mapError Failure.file)
  let sources ← Sources.ofPatterns root config.content
  return ⟨config, root, settingsOf config minify noComments, sources⟩

/-- The exit code after arguments that make no sense. -/
def usageExit : Nat := 2

/-- What a command that is not run comes to. -/
def refuse : Refusal → Response
  | .version => .success fun _ => linesText [Info.name ++ " " ++ Info.version]
  | .help topic => .success fun _ => linesText (helpLines topic)
  | .usage => .finished ⟨usageExit, fun _ => "", none⟩

/-- **Run a command line** on a file tree. -/
def run (arguments : List String) (timestamp : String) (t : FileTree) : Response × FileTree :=
  match readArguments arguments with
  | .error refusal => (refuse refusal, t)
  | .ok invocation =>
    match invocation.command with
    | .nothing => (.success fun _ => linesText nothingLines, t)
    | .init => runInit invocation.root t
    | .build minify noComments stats format =>
      runBuild invocation minify noComments stats format timestamp t
    | .watch minify noComments =>
      match runWatch invocation minify noComments t with
      | .ok watch => (.waiting watch, t)
      | .error e => (.failed "" e, t)

end UtilityCss.CommandLine
