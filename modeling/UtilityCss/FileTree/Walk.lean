import UtilityCss.FileTree.Basic

/-!
# Walking through directories

A walk goes through a directory in the order of its members and gives the paths of the files on the
way. The path of a member is the path of its directory with the name behind it. Directories whose
name is to be skipped are not entered, wherever they are, except that the walk may start in one.

A directory is entered by its path from the start of the walk, and before its members. The paths of
the directories that are entered are therefore those at which a walk can fail, in the order in which
it would.
-/

namespace UtilityCss

mutual

/-- **The paths of the files** at and below a node that has a path. -/
def Node.filePaths (skip : String → Bool) (path : Path) : Node → List Path
  | .file _ => [path]
  | .directory members => members.filePaths skip path

/-- The paths of the files below the members of a directory that has a path. -/
def Members.filePaths (skip : String → Bool) (path : Path) : Members → List Path
  | .nil => []
  | .cons name node rest =>
    (if node.isDirectory && skip name then []
      else node.filePaths skip (path.join ⟨name⟩)) ++ rest.filePaths skip path

end

mutual

/-- **The paths of the directories that are entered** at and below a node that has a path. -/
def Node.directoryPaths (skip : String → Bool) (path : Path) : Node → List Path
  | .file _ => []
  | .directory members => path :: members.directoryPaths skip path

/-- The paths of the directories that are entered below the members of a directory that has a
path. -/
def Members.directoryPaths (skip : String → Bool) (path : Path) : Members → List Path
  | .nil => []
  | .cons name node rest =>
    (if skip name then [] else node.directoryPaths skip (path.join ⟨name⟩))
      ++ rest.directoryPaths skip path

end

end UtilityCss
