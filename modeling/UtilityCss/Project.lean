import UtilityCss.Config.Standard
import UtilityCss.FileTree.Action
import UtilityCss.Session
import UtilityCss.Sources

/-!
# Projects

A project is a directory with source files and, usually, a configuration file. Three things are done
with one: its configuration is loaded, a configuration file is made for a new one, and it is built.

A build has two halves. The first (`Project.compile`) only reads: it finds the source files, reads
them and compiles them. Only when all of that has gone well does the second half (`Project.publish`)
change files: it writes the style sheet, and writes the runtime script or removes an old one.
-/

namespace UtilityCss

namespace Config

/-- The overlay that a configuration file describes. -/
def readOverlay (t : FileTree) (path : Path) : Except Failure Overlay :=
  match t.readText path with
  | .error e => .error (.configFile path e)
  | .ok source =>
    match path.extension?.bind Format.ofExtension? with
    | none => .error .unknownFormat
    | some format =>
      match Overlay.read? format source with
      | some overlay => .ok overlay
      | none => .error (.malformed format)

/-- Check that a configuration lacks nothing. -/
def check (c : Config) : Except Failure Config :=
  if c.isValid then .ok c else .error (.incomplete c.problems)

/-- The configuration file of a project: the given one, or the first that exists under one of the
usual names. -/
def filePath? (t : FileTree) (given : Option Path) (root : Path) : Option Path :=
  given.or ((fileNames.map fun name => root.join ⟨name⟩).find? t.contains)

/-- **Load the configuration of a project.** -/
def load (t : FileTree) (given : Option Path) (root : Path) : Except Failure Config :=
  match filePath? t given root with
  | none => standard.check
  | some path => do (standard.overlay (← readOverlay t path)).check

/-- **Write the configuration file of a new project**, unless something is there already. -/
def writeTemplate (path : Path) : FileAction Failure Unit :=
  FileAction.change fun t =>
    if t.contains path then .error (.occupied path)
    else (t.write path template.toUTF8).mapError .file

end Config

/-- What a build did. -/
structure BuildReport where
  /-- The path of the style sheet. -/
  cssPath : Path
  /-- The path of the runtime script, if one was written. -/
  scriptPath : Option Path
  /-- The problems. -/
  diagnostics : List Diagnostic
  /-- The figures. -/
  stats : Stats
deriving DecidableEq, Repr

namespace Project

/-- The text of a source file. -/
def readSource (t : FileTree) (path : Path) : Except Failure String :=
  (t.readText path).mapError (.source path)

/-- **Compile the source files of a project.** -/
def compile (config : Config) (root : Path) (options : Options) (t : FileTree) :
    Except Failure Output := do
  let sources ← Sources.ofPatterns root config.content
  let paths ← sources.discover t
  return Session.run config.vocabulary options (← paths.mapM (readSource t))

/-- Remove a runtime script that is not needed any more. -/
def removeStale (path : Path) : FileAction FileError Unit :=
  FileAction.change fun t => if t.contains path then t.remove path else .ok t

/-- **Write the outputs of a project.** -/
def publish (config : Config) (root : Path) (output : Output) : FileAction FileError Unit := do
  FileTree.saveText (config.cssPath root) output.css
  if output.hasScript then FileTree.saveText (config.scriptPath root) output.script
  else removeStale (config.scriptPath root)

/-- The report on a build with an output. -/
def report (config : Config) (root : Path) (output : Output) : BuildReport where
  cssPath := config.cssPath root
  scriptPath := if output.hasScript then some (config.scriptPath root) else none
  diagnostics := output.diagnostics
  stats := output.stats

/-- **Build a project.** -/
def build (config : Config) (root : Path) (options : Options) :
    FileAction Failure BuildReport := do
  -- Nothing has been written when this fails.
  let output ← FileAction.inspect (compile config root options)
  (publish config root output).mapError .file
  return report config root output

end Project

end UtilityCss
