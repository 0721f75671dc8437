import UtilityCss.FileTree.Node
import UtilityCss.Path

/-!
# File trees

A `FileTree` is all files that a program can reach, and the directory in which it works. Paths are
followed step by step; every step but the last one has to end in a directory. As there are no links,
the place that a path leads to is a list of names from the top.

The operations are those of a file system, with its errors: what a path means for an operation that
makes or removes something depends on how it ends, so these first find the `Target` of the path.
-/

namespace UtilityCss

/-! ### Errors -/

/-- What a file system can refuse. -/
inductive FileError where
  /-- There is nothing at the path. -/
  | notFound
  /-- There is something at the path. -/
  | alreadyExists
  /-- The path goes through a file. -/
  | notDirectory
  /-- The path leads to a directory. -/
  | isDirectory
  /-- The path, or a name on it, is too long. -/
  | nameTooLong
  /-- The path holds a character that no path can hold. -/
  | badName
  /-- The content of the file is no text. -/
  | notText
deriving DecidableEq, Repr

/-- The wording of an error. -/
def FileError.message : FileError → String
  | notFound => "No such file or directory (os error 2)"
  | alreadyExists => "File exists (os error 17)"
  | notDirectory => "Not a directory (os error 20)"
  | isDirectory => "Is a directory (os error 21)"
  | nameTooLong => "File name too long (os error 36)"
  | badName => "file name contained an unexpected NUL byte"
  | notText => "stream did not contain valid UTF-8"

/-! ### Following paths -/

/-- The files that can be reached, and where one stands. -/
structure FileTree where
  /-- The top of the file system. -/
  root : Node
  /-- The place of the working directory, as names from the top. -/
  here : List String
deriving Inhabited

namespace FileTree

/-- The length in bytes that a name may have. -/
def nameLimit : Nat := 255

/-- The length in bytes that a path may have. -/
def pathLimit : Nat := 4095

/-- Check that a name is not too long for a directory. -/
def checkName (name : String) : Except FileError Unit :=
  if nameLimit < name.utf8ByteSize then .error .nameTooLong else .ok ()

/-- Step from a place to a member of the directory there. -/
def enter (t : FileTree) (place : List String) (name : String) : Except FileError (List String) :=
  match t.root.get? place with
  | none => .error .notFound
  | some (.file _) => .error .notDirectory
  | some (.directory members) => do
    checkName name
    if (members.get? name).isSome then return place ++ [name] else throw .notFound

/-- Check that there is a directory at a place. -/
def checkDirectory (t : FileTree) (place : List String) : Except FileError Unit :=
  match t.root.get? place with
  | none => .error .notFound
  | some (.file _) => .error .notDirectory
  | some (.directory _) => .ok ()

/-- **Follow steps** from a place on. -/
def follow (t : FileTree) : List String → List Path.Step → Except FileError (List String)
  | place, [] => .ok place
  | _, .root :: rest => follow t [] rest
  | place, .here :: rest => follow t place rest
  | place, .up :: rest => do
    t.checkDirectory place
    follow t place.dropLast rest
  | place, .down name :: rest => do follow t (← t.enter place name) rest

/-- Check that a text can be a path at all. -/
def checkText (p : Path) : Except FileError Unit :=
  if p.text.toList.contains '\x00' then .error .badName
  else if p.text.isEmpty then .error .notFound
  else .ok ()

/-- Check that a text can be handed over as a path. -/
def checkPath (p : Path) : Except FileError Unit := do
  checkText p
  if pathLimit < p.text.utf8ByteSize then throw .nameTooLong

/-- Whether the way that a path describes ends in a slash or a dot, and so leads to a directory. -/
def leadsToDirectory (p : Path) : Bool := p.pieces.getLast?.any fun piece => piece.step.isNone

/-- The place that the steps of a path lead to. -/
def destination (t : FileTree) (p : Path) : Except FileError (List String) := do
  let place ← t.follow t.here p.steps
  if leadsToDirectory p then t.checkDirectory place
  return place

/-- **The place that a path leads to**, for a path that is handed over as a whole. -/
def locate (t : FileTree) (p : Path) : Except FileError (List String) := do
  checkPath p
  t.destination p

/-- **The place that a path leads to**, for a path that is followed name by name. Such a path may be
longer than one that is handed over as a whole. -/
def resolve (t : FileTree) (p : Path) : Except FileError (List String) := do
  checkText p
  t.destination p

/-- **What is at a path.** -/
def find (t : FileTree) (p : Path) : Except FileError Node := do
  match t.root.get? (← t.locate p) with
  | some node => return node
  | none => throw .notFound

/-- Whether there is anything at a path. -/
def contains (t : FileTree) (p : Path) : Bool := (t.find p).isOk

/-- Whether there is a directory at a path. -/
def hasDirectory (t : FileTree) (p : Path) : Bool :=
  match t.find p with
  | .ok node => node.isDirectory
  | .error _ => false

/-- **The text of the file at a path.** -/
def readText (t : FileTree) (p : Path) : Except FileError String := do
  match ← t.find p with
  | .directory _ => throw .isDirectory
  | .file content =>
    match String.fromUTF8? content with
    | some text => return text
    | none => throw .notText

/-! ### Changes -/

/-- What a path names for an operation that makes or removes something. -/
inductive Target where
  /-- A name in a directory, and whether slashes follow the name. -/
  | member (directory : List String) (name : String) (slash : Bool)
  /-- A directory that exists, by way of a dot or of the top. -/
  | directory (place : List String)

/-- Whether the last name of a path is one that a directory can have, and not a dot or two. -/
def endsInName (p : Path) : Bool :=
  match (p.pieces.filter fun piece => !piece.text.isEmpty).getLast? with
  | some ⟨_, some (.down _)⟩ => true
  | _ => false

/-- The target of a path. -/
def target (t : FileTree) (p : Path) : Except FileError Target := do
  checkPath p
  match p.steps.getLast?, endsInName p with
  -- The last name need not exist, but the directory around it must.
  | some (.down name), true =>
    let directory ← t.follow t.here p.steps.dropLast
    t.checkDirectory directory
    return .member directory name (leadsToDirectory p)
  -- A dot at the end leads to something that exists, and it is a directory.
  | _, _ =>
    let place ← t.follow t.here p.steps
    t.checkDirectory place
    return .directory place

/-- The node at the place of a member of a directory. -/
def member? (t : FileTree) (directory : List String) (name : String) : Option Node :=
  t.root.get? (directory ++ [name])

/-- Put a node into a directory. -/
def put (t : FileTree) (directory : List String) (name : String) (node : Node) : FileTree :=
  { t with root := t.root.modifyMembers (·.insert name node) directory }

/-- Take a member out of a directory. -/
def drop (t : FileTree) (directory : List String) (name : String) : FileTree :=
  { t with root := t.root.modifyMembers (·.erase name) directory }

/-- **Write a file**, in place of the one that is there, if any. -/
def write (t : FileTree) (p : Path) (content : ByteArray) : Except FileError FileTree := do
  match ← t.target p with
  | .directory _ => throw .isDirectory
  | .member directory name slash =>
    -- A name with a slash behind it is never made into a file, whatever the name.
    if slash then throw .isDirectory
    checkName name
    match t.member? directory name with
    | some (.directory _) => throw .isDirectory
    | _ => return t.put directory name (.file content)

/-- **Make a directory** in a directory that exists. -/
def makeDirectory (t : FileTree) (p : Path) : Except FileError FileTree := do
  match ← t.target p with
  | .directory _ => throw .alreadyExists
  | .member directory name _ =>
    checkName name
    match t.member? directory name with
    | some _ => throw .alreadyExists
    | none => return t.put directory name (.directory .nil)

/-- **Remove a file.** -/
def remove (t : FileTree) (p : Path) : Except FileError FileTree := do
  match ← t.target p with
  | .directory _ => throw .isDirectory
  | .member directory name slash =>
    checkName name
    match t.member? directory name with
    | none => throw .notFound
    | some (.directory _) => throw .isDirectory
    | some (.file _) => if slash then throw .notDirectory else return t.drop directory name

end FileTree

end UtilityCss
