import Std.Time
import UtilityCss.CommandLine.Run
import UtilityCss.FileTree.Changes
import UtilityCss.Timestamp

/-!
# The program

The outer layer: it reads the files that a command concerns into a file tree, runs the command line
on the tree, carries the changes out on the real files, and prints what there is to print. Watching
a project is a loop around this that looks at the source files from time to time.
-/

namespace UtilityCss.Program

open UtilityCss.CommandLine

/-! ### Reading and writing real files -/

/-- The real file at a place. -/
def entryAt (place : List String) : IO.FS.DirEntry := ⟨"/", "/".intercalate place⟩

/-- Read what is at a real path. Links are passed over, and so is what is in the directories that
hold no source files. -/
partial def readNode (entry : IO.FS.DirEntry) : IO (Option Node) := do
  match (← entry.path.symlinkMetadata).type with
  | .file => return some (.file (← IO.FS.readBinFile entry.path))
  | .dir =>
    let mut members := Members.nil
    for inner in ← entry.path.readDir do
      if Sources.ignoredNames.contains inner.fileName then
        members := members.insert inner.fileName (.directory .nil)
      else if let some node ← readNode inner then
        members := members.insert inner.fileName node
    return some (.directory members)
  | _ => return none

/-- Add what is at a place to a tree, if the tree does not hold it. -/
def addPlace (t : FileTree) (place : List String) : IO FileTree := do
  if (t.root.get? place).any fun node => !node.members.names.isEmpty then return t
  try
    let node ← match (← (entryAt place).path.metadata).type with
      | .dir => pure (some (.directory .nil))
      | _ => readNode (entryAt place)
    match node with
    | some node => return { t with root := FileTree.graft node place t.root }
    | none => return t
  catch _ => return t

/-- Read the files below a root into a tree. -/
def readTree (here root : List String) : IO FileTree := do
  let t : FileTree := ⟨FileTree.graft (.directory .nil) here (.directory .nil), here⟩
  try
    match ← readNode (entryAt root) with
    | some node => return { t with root := FileTree.graft node root t.root }
    | none => return t
  catch _ => return t

/-- Carry out a change. -/
def apply : Change → IO Unit
  | .makeDirectory place => IO.FS.createDirAll (entryAt place).path
  | .write place content => IO.FS.writeBinFile (entryAt place).path content
  | .remove place => IO.FS.removeFile (entryAt place).path

/-! ### Commands -/

/-- The time, as header comments show it. -/
def now : IO String := do
  let t ← Std.Time.Timestamp.now
  return Timestamp.ofMilliseconds t.toMillisecondsSinceUnixEpoch.val.toNat

/-- The tree that an invocation concerns: the files below its root, its configuration file, and what
is at the paths of its outputs. -/
def treeFor (invocation : Invocation) : IO FileTree := do
  let here := FileTree.placeOf [] ⟨(← IO.currentDir).toString⟩
  let mut t ← readTree here (FileTree.placeOf here invocation.root)
  if let some path := invocation.configPath then
    t ← addPlace t (FileTree.placeOf here path)
  if let .ok config := Config.load t invocation.configPath invocation.root then
    t ← addPlace t (FileTree.placeOf here (config.cssPath invocation.root))
    t ← addPlace t (FileTree.placeOf here (config.scriptPath invocation.root))
  return t

/-- The texts of the source files of a project that is watched. -/
def watchedTexts (w : Watch) (t : FileTree) : List (String × String) :=
  match w.sources.discover t with
  | .error _ => []
  | .ok paths => paths.map fun p => (p.text, ((t.readText p).toOption).getD "")

/-- Build a project that is watched. -/
def rebuild (w : Watch) : IO Unit := do
  let start ← IO.monoMsNow
  let place := FileTree.placeOf [] w.root
  let mut t ← readTree [] place
  t ← addPlace t (FileTree.placeOf [] (w.config.cssPath w.root))
  t ← addPlace t (FileTree.placeOf [] (w.config.scriptPath w.root))
  match (Project.build w.config w.root (w.settings.options (← now))).outcome t with
  | (.ok report, after) =>
    (t.changes after).forM apply
    IO.print (linesText (summaryLines report ((← IO.monoMsNow) - start)))
  | (.error e, after) =>
    (t.changes after).forM apply
    IO.eprintln ("❌ Build failed: " ++ e.message)

/-- Build a project whenever its source files change. -/
partial def watchFrom (w : Watch) (before : List (String × String)) : IO Unit := do
  IO.sleep 200
  let after := watchedTexts w (← readTree [] (FileTree.placeOf [] w.root))
  let changed := (after.filter fun file => !before.contains file).map Prod.fst
  let gone := (before.map Prod.fst).filter fun name => (after.lookup name).isNone
  let count := changed.length + gone.length
  if count != 0 then
    IO.println ("🔄 " ++ toString count ++ " file(s) changed, rebuilding...")
    rebuild w
  watchFrom w after

/-- Run the command line on the real files. -/
def runReal (arguments : List String) : IO UInt32 := do
  let start ← IO.monoMsNow
  let t ← match readArguments arguments with
    | .ok invocation => treeFor invocation
    | .error _ => pure default
  let (response, after) := CommandLine.run arguments (← now) t
  (t.changes after).forM apply
  match response with
  | .finished transcript =>
    IO.print (transcript.output ((← IO.monoMsNow) - start))
    if let some failure := transcript.failure then IO.eprintln ("❌ " ++ failure.message)
    if transcript.exit = usageExit then IO.eprintln "error: invalid arguments; see --help"
    return transcript.exit.toUInt32
  | .waiting w =>
    rebuild w
    IO.println ("👀 Watching " ++ w.root.text ++ " for changes...")
    watchFrom w (watchedTexts w (← readTree [] (FileTree.placeOf [] w.root)))
    return 0

end UtilityCss.Program

/-- The entry point of the program. -/
def main (arguments : List String) : IO UInt32 := UtilityCss.Program.runReal arguments
