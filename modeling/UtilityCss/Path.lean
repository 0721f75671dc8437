import UtilityCss.Text.Cut

/-!
# Paths

A path is kept as the text that the user wrote, since messages show it that way. What it leads to
depends on its `Step`s only: the pieces between slashes, where empty pieces and inner dots lead
nowhere. Operations that shorten a path therefore work on the pieces, each with the step that it
stands for, and write the pieces that are left as they were.
-/

namespace UtilityCss

open UtilityCss.Text

/-- A path of files and directories, separated by slashes. -/
structure Path where
  /-- The text of the path. -/
  text : String
deriving DecidableEq, Repr, Inhabited

/-- A step on the way that a path describes. -/
inductive Path.Step where
  /-- Start at the root of the file system. -/
  | root
  /-- Start where one is; it says nothing, but two paths differ if one of them says it. -/
  | here
  /-- Go to the directory around the current one. -/
  | up
  /-- Go to the member of the current directory that has a name. -/
  | down (name : String)
deriving DecidableEq, Repr

namespace Path

/-- A piece of a path between two slashes, with the step that it stands for. -/
structure Piece where
  /-- The text of the piece. -/
  text : List Char
  /-- The step, unless the piece leads nowhere. -/
  step : Option Step
deriving DecidableEq, Repr

/-- The step that a piece stands for when it is not the first one. -/
def innerStep? (piece : List Char) : Option Step :=
  if piece.isEmpty || piece = ['.'] then none
  else if piece = ['.', '.'] then some .up
  else some (.down (String.ofList piece))

/-- The step that the first piece stands for. An empty one starts at the root, unless the whole path
is empty. -/
def firstStep? (alone : Bool) (piece : List Char) : Option Step :=
  if piece.isEmpty && !alone then some .root
  else if piece = ['.'] then some .here
  else innerStep? piece

/-- The pieces of a path. -/
def pieces (p : Path) : List Piece :=
  match cutAt (· = '/') p.text.toList with
  | [] => []
  | first :: rest =>
    ⟨first, firstStep? rest.isEmpty first⟩ :: rest.map fun piece => ⟨piece, innerStep? piece⟩

/-- **The steps of a path.** -/
def steps (p : Path) : List Step := p.pieces.filterMap Piece.step

/-- The path that pieces make. The first piece of a path from the root is empty, so a path that has
no other piece is written as a slash. -/
def ofPieces (pieces : List Piece) : Path :=
  if pieces.map Piece.step = [some .root] then ⟨"/"⟩
  else ⟨String.ofList (List.intercalate ['/'] (pieces.map Piece.text))⟩

/-- Whether a path starts at the root of the file system. -/
def isAbsolute (p : Path) : Bool := p.text.toList.head? = some '/'

/-- **Follow a second path from the end of the first.** A path from the root replaces the first one;
any other is put behind it, with a slash in between where there is none. -/
def join (p q : Path) : Path :=
  if q.isAbsolute then q
  else if p.text.isEmpty || p.text.toList.getLast? = some '/' then ⟨p.text ++ q.text⟩
  else ⟨p.text ++ "/" ++ q.text⟩

/-! ### Shortening -/

/-- Drop the pieces at the end that lead nowhere. -/
def trimPieces (pieces : List Piece) : List Piece :=
  (pieces.reverse.dropWhile fun piece => piece.step.isNone).reverse

/-- Drop pieces up to and including a number of steps. -/
def dropSteps : Nat → List Piece → List Piece
  | 0, pieces => pieces
  | _ + 1, [] => []
  | n + 1, piece :: rest => if piece.step.isSome then dropSteps n rest else dropSteps (n + 1) rest

/-- **The way from a base to a path**, if the path starts with the steps of the base. A base without
steps leaves the start of the path as it is. -/
def relativeTo? (p base : Path) : Option Path :=
  -- Without a step of the base there is no slash of it to drop.
  if base.steps.isEmpty then some (ofPieces (trimPieces p.pieces))
  else if base.steps.isPrefixOf p.steps then
    let rest := (dropSteps base.steps.length p.pieces).dropWhile fun piece => piece.step.isNone
    some (ofPieces (trimPieces rest))
  else none

/-- The path without its last step; none if there is no step, or only the one to the root. -/
def parent? (p : Path) : Option Path :=
  match (trimPieces p.pieces).reverse with
  | [] => none
  | last :: before =>
    if last.step = some .root then none else some (ofPieces (trimPieces before.reverse))

/-! ### Extensions -/

/-- The name that a path ends in. -/
def fileName? (p : Path) : Option (List Char) :=
  match (trimPieces p.pieces).getLast? with
  | some ⟨name, some (.down _)⟩ => some name
  | _ => none

/-- The parts of a file name before and after its last dot. A name without a dot, or with a dot at
its start only, has no second part. -/
def splitName (name : List Char) : List Char × Option (List Char) :=
  let after := (name.reverse.takeWhile (· != '.')).reverse
  let stem := name.take (name.length - after.length - 1)
  if after.length = name.length || stem.isEmpty then (name, none) else (stem, some after)

/-- The extension of the file name. -/
def extension? (p : Path) : Option String :=
  (p.fileName?.bind fun name => (splitName name).2).map String.ofList

/-- **The path with another extension**, which is put in place of the one that the file name has, or
behind the file name. A path that ends in no name stays as it is. So does a name that is a dot
followed by an extension, except that the extension is lost: what is left of it is no name. -/
def withExtension (p : Path) (extension : String) : Path :=
  let pieces := trimPieces p.pieces
  match p.fileName? with
  | none => p
  | some name =>
    let (stem, old) := splitName name
    -- Two dots are a step up and no name, so nothing can be put behind them.
    let replaced : List Char :=
      if stem = ['.'] && old.isSome && pieces.length = p.pieces.length then ['.', '.']
      else stem ++ '.' :: extension.toList
    ⟨String.ofList (List.intercalate ['/'] (pieces.dropLast.map Piece.text ++ [replaced]))⟩

end Path

end UtilityCss
