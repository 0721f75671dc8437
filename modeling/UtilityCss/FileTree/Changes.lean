import UtilityCss.FileTree.Basic

/-!
# Differences between file trees

A command works on a tree that was read from a real file system, and leaves another tree. The
`Change`s between the two are what has to be done to the real files.
-/

namespace UtilityCss

/-- A change to a file system, at a place from its top. -/
inductive Change where
  /-- Make a directory. -/
  | makeDirectory (place : List String)
  /-- Write a file. -/
  | write (place : List String) (content : ByteArray)
  /-- Remove a file. -/
  | remove (place : List String)

/-- The names of the members of a directory. -/
def Members.names : Members → List String
  | .nil => []
  | .cons name _ rest => name :: rest.names

/-- The members of a node; a file has none. -/
def Node.members : Node → Members
  | .file _ => .nil
  | .directory members => members

mutual

/-- **The changes that make a node** out of what is at its place. -/
def Node.changes (place : List String) (old : Option Node) : Node → List Change
  | .file content =>
    match old with
    | some (.file before) => if before = content then [] else [.write place content]
    | _ => [.write place content]
  | .directory members =>
    let before := (old.map Node.members).getD .nil
    (if old.any Node.isDirectory then [] else [.makeDirectory place])
      ++ (before.names.filter fun name => (members.get? name).isNone).map
        (fun name => .remove (place ++ [name]))
      ++ Members.changes place before members

/-- The changes that make members of a directory out of those that were there. -/
def Members.changes (place : List String) (before : Members) : Members → List Change
  | .nil => []
  | .cons name node rest =>
    node.changes (place ++ [name]) (before.get? name) ++ Members.changes place before rest

end

namespace FileTree

/-- The changes from one tree to another. -/
def changes (old new : FileTree) : List Change := new.root.changes [] (some old.root)

/-- The place that a path names if all directories on its way exist. -/
def placeOf (here : List String) (p : Path) : List String :=
  p.steps.foldl
    (fun place step =>
      match step with
      | .root => []
      | .here => place
      | .up => place.dropLast
      | .down name => place ++ [name])
    here

/-- Put a node at a place below another node, with directories on the way. -/
def graft (node : Node) : List String → Node → Node
  | [], _ => node
  | _ :: _, .file content => .file content
  | name :: place, .directory members =>
    let inner := (members.get? name).getD (.directory .nil)
    .directory (members.insert name (graft node place inner))

end FileTree

end UtilityCss
