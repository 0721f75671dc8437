import UtilityCss.FileTree.Basic

/-!
# Actions on file trees

An action works on a file tree and may fail. A failure does not undo what the action did before it,
so an action gives back a tree in both outcomes.
-/

namespace UtilityCss

/-- **An action on a file tree** that can fail with an error of type `ε`. -/
abbrev FileAction (ε : Type) := ExceptT ε (StateM FileTree)

namespace FileAction

variable {ε α : Type}

/-- Look at the tree without changing it. -/
def inspect (f : FileTree → Except ε α) : FileAction ε α := do
  let t ← get
  liftExcept (f t)
where
  /-- An outcome that does not depend on the tree. -/
  liftExcept : Except ε α → FileAction ε α
    | .ok a => pure a
    | .error e => throw e

/-- Change the tree, or fail and leave it as it is. -/
def change (f : FileTree → Except ε FileTree) : FileAction ε Unit := do
  set (← inspect f)

/-- Give an error another form. -/
def mapError {δ : Type} (f : δ → ε) (action : FileAction δ α) : FileAction ε α :=
  ExceptT.mk do
    match ← action.run with
    | .ok a => return .ok a
    | .error e => return .error (f e)

/-- The outcome of an action, and the tree after it. -/
def outcome (action : FileAction ε α) (t : FileTree) : Except ε α × FileTree :=
  action.run.run t

end FileAction

namespace FileTree

/-- Make a directory, where one that exists is as good. -/
def ensureDirectory (p : Path) : FileAction FileError Unit := do
  match (← get).makeDirectory p with
  | .ok t => set t
  | .error e => if !(← get).hasDirectory p then throw e

/-- Make a directory and those around it, of which at most `depth` may be missing. -/
def makeDirectoriesUpTo : Nat → Path → FileAction FileError Unit
  | 0, p => ensureDirectory p
  | depth + 1, p => do
    if p.text.isEmpty then return
    match (← get).makeDirectory p with
    | .ok t => set t
    -- Only a missing directory on the way is a reason to go up.
    | .error .notFound =>
      match p.parent? with
      | some parent =>
        makeDirectoriesUpTo depth parent
        ensureDirectory p
      | none => throw .notFound
    | .error e => if !(← get).hasDirectory p then throw e

/-- **Make a directory and those around it** that are missing. -/
def makeDirectories (p : Path) : FileAction FileError Unit :=
  makeDirectoriesUpTo (p.pieces.length + 1) p

/-- **Write a file**, and make the directories around it. -/
def save (p : Path) (content : ByteArray) : FileAction FileError Unit := do
  match p.parent? with
  | some parent => makeDirectories parent
  | none => pure ()
  FileAction.change fun t => t.write p content

/-- Write a text to a file, and make the directories around it. -/
def saveText (p : Path) (text : String) : FileAction FileError Unit := save p text.toUTF8

end FileTree

end UtilityCss
