import UtilityCss.Config.Format
import UtilityCss.FileTree.Basic
import UtilityCss.Glob.Expression

/-!
# Failures

Problems with single tokens are diagnostics and stop nothing. A `Failure` stops a command: a file
cannot be read or written, the configuration is of no use, or a pattern makes no sense. Each cause
is a constructor, and the wording of all of them is in `Failure.message`.
-/

namespace UtilityCss

/-- Why a command was stopped. -/
inductive Failure where
  /-- A file could not be written, made or removed. -/
  | file (error : FileError)
  /-- The root of a project, or a directory below it, could not be entered. -/
  | traversal (directory : Path) (error : FileError)
  /-- A source file could not be read. -/
  | source (path : Path) (error : FileError)
  /-- A configuration file could not be read. -/
  | configFile (path : Path) (error : FileError)
  /-- The name of a configuration file tells no format. -/
  | unknownFormat
  /-- A configuration file is not of its format, or makes no sense. -/
  | malformed (format : Format)
  /-- A configuration lacks something. -/
  | incomplete (problems : List ConfigProblem)
  /-- A new configuration file would replace another file. -/
  | occupied (path : Path)
  /-- A pattern is malformed: as it was given, and as it was read. -/
  | pattern (given read : String) (error : Glob.PatternError)
  /-- One of some patterns, as they were given, is nested too deep. -/
  | patterns (given : List String) (error : Glob.DepthError)
deriving DecidableEq, Repr

namespace Failure

/-- **The wording of a failure.** -/
def message : Failure → String
  | file error => "IO error: " ++ error.message
  | traversal directory error =>
    "IO error: Directory traversal error: IO error for operation on " ++ directory.text ++ ": "
      ++ error.message
  | source path error => "File not found: " ++ path.text ++ ": " ++ error.message
  | configFile path error =>
    "File not found: Config file " ++ path.text ++ ": " ++ error.message
  | unknownFormat => "Invalid format: Config file must be .json or .toml format"
  | malformed format => "Invalid format: Invalid " ++ format.name ++ " config"
  | incomplete problems =>
    "Invalid configuration: " ++ "; ".intercalate (problems.map ConfigProblem.message)
  | occupied path => "Invalid configuration: " ++ path.text ++ " already exists"
  | pattern given read error =>
    "Invalid content pattern '" ++ given ++ "': error parsing glob '" ++ read ++ "': "
      ++ error.message
  | patterns given error =>
    "Invalid content pattern '" ++ ", ".intercalate given ++ "': " ++ error.message

end Failure

end UtilityCss
