import UtilityCss.Failure
import UtilityCss.FileTree.Walk
import UtilityCss.Glob.Match

/-!
# Source files

The patterns of a configuration select the source files of a project. A path is matched by its way
from the root of the project; a path that is not below the root is matched as it is. Whatever the
patterns say, nothing in a directory for packages, outputs or version control is a source file.
-/

namespace UtilityCss

open UtilityCss.Text

/-- A root with the patterns that select source files below it. -/
structure Sources where
  /-- The root of the project. -/
  root : Path
  /-- The patterns. -/
  patterns : List (List Glob.Token)

namespace Sources

/-- The names of directories in which there are no source files. -/
def ignoredNames : List String := ["node_modules", "dist", ".git"]

/-- Drop all steps to the current directory at the start of a pattern. -/
def dropHere : List Char → List Char
  | '.' :: '/' :: rest => dropHere rest
  | pattern => pattern

/-- A pattern without the blanks around it and the steps to the current directory at its start. -/
def normalize (pattern : String) : List Char := dropHere (trim pattern.toList)

/-- Read a pattern; a blank one is passed over. -/
def readPattern (pattern : String) : Except Failure (Option (List Glob.Token)) :=
  let normalized := normalize pattern
  if normalized.isEmpty then .ok none
  else
    match Glob.read normalized with
    | .ok tokens => .ok (some tokens)
    | .error e => .error (.pattern pattern (String.ofList normalized) e)

/-- **The source files that patterns select.** The first malformed pattern is a failure, and if
there is none, so is one that is nested too deep. -/
def ofPatterns (root : Path) (patterns : List String) : Except Failure Sources := do
  let tokens := (← patterns.mapM readPattern).filterMap id
  match Glob.depthError? tokens with
  | some e => throw (.patterns patterns e)
  | none => return ⟨root, tokens⟩

/-- Whether a step leads into an ignored directory, or to a file with such a name. -/
def isIgnoredStep : Path.Step → Bool
  | .down name => ignoredNames.contains name
  | _ => false

/-- **Whether a path is the path of a source file.** -/
def selects (s : Sources) (path : Path) : Bool :=
  let relative := (path.relativeTo? s.root).getD path
  !relative.steps.any isIgnoredStep
    && s.patterns.any fun tokens => Glob.matchesPath tokens relative.text

/-- **The source files below the root**, in the order of the walk. The first directory that cannot
be entered is a failure; files are not opened, so their paths may have any length. -/
def discover (s : Sources) (t : FileTree) : Except Failure (List Path) := do
  let node ← (t.find s.root).mapError (.traversal s.root)
  (node.directoryPaths ignoredNames.contains s.root).forM fun path =>
    (FileTree.checkPath path).mapError (.traversal path)
  return (node.filePaths ignoredNames.contains s.root).filter s.selects

end Sources

end UtilityCss
