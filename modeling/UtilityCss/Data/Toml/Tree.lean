import UtilityCss.Data.Datum

/-!
# The tables of a TOML file

A file builds its tables piece by piece: a pair `a.b = 1` makes a table `a`, a header `[a.b]` makes
`a` and `b`, a header `[[a]]` adds a table to the list `a`. A table that was only implied by a
longer path may still be written out once; one that was written out may not be extended by a dotted
key, and a value may never be extended. `Node` keeps what these rules ask about, the `Origin` of a
table, and forgets it in the end (`Node.datum`).
-/

namespace UtilityCss.Data.Toml

/-- A key with the tables that lead to it. -/
structure KeyPath where
  /-- The keys of the tables around it, from the outside in. -/
  lead : List String
  /-- The key itself. -/
  last : String
deriving DecidableEq, Repr

/-- The number of keys on a path. -/
def KeyPath.length (p : KeyPath) : Nat := p.lead.length + 1

/-- A key with its value. -/
structure Pair where
  /-- The key. -/
  path : KeyPath
  /-- The value. -/
  value : Datum

/-- How a part of a file starts. -/
inductive Header where
  /-- A table is written out. -/
  | table (path : KeyPath)
  /-- A table is added to a list of tables. -/
  | member (path : KeyPath)

/-- A header with the pairs below it. -/
structure Section where
  /-- The header. -/
  header : Header
  /-- The pairs, in the order of the file. -/
  pairs : List Pair

/-- How a table came about. -/
inductive Origin where
  /-- Some header names a table within it. -/
  | implied
  /-- Some dotted key names a value within it. -/
  | dotted
  /-- It was written out. -/
  | written
deriving DecidableEq, Repr

/-- A part of a file while the file is read. -/
inductive Node where
  /-- A value, which is complete. -/
  | value (datum : Datum)
  /-- A table. -/
  | table (origin : Origin) (entries : List (String × Node))
  /-- A list of tables; only the last of them can still grow. -/
  | tables (earlier : List (List (String × Node))) (last : List (String × Node))

/-- The keys of a table with what they stand for. -/
abbrev Entries := List (String × Node)

/-- Change what a key stands for, or define it at the end. -/
def Entries.alter? (key : String) (f : Option Node → Option Node) : Entries → Option Entries
  | [] => (f none).map fun node => [(key, node)]
  | (k, node) :: rest =>
    if k = key then (f (some node)).map fun node => (k, node) :: rest
    else (alter? key f rest).map ((k, node) :: ·)

/-- **Change the table at the end of a path.** The change gets the origin of that table and its
entries. Tables on the way that do not exist are made, with the given origin; a dotted key does not
lead into a table that was written out. -/
def Entries.within? (made : Origin) (change : Origin → Entries → Option Entries) :
    Origin → List String → Entries → Option Entries
  | origin, [], entries => change origin entries
  | _, key :: path, entries =>
    Entries.alter? key
      (fun
        | none => (within? made change made path []).map (.table made)
        | some (.value _) => none
        | some (.table origin inner) =>
          if made = .dotted && origin = .written then none
          else (within? made change origin path inner).map (.table origin)
        -- Further keys belong to the table that was added last.
        | some (.tables earlier last) =>
          (within? made change .written path last).map (.tables earlier))
      entries

/-- Define a key that is not defined yet. -/
def Entries.define? (key : String) (value : Datum) : Entries → Option Entries :=
  Entries.alter? key fun
    | none => some (.value value)
    | some _ => none

/-- Add a pair to a table. A dotted key ends in a table that dotted keys made. -/
def Entries.add? (entries : Entries) (pair : Pair) : Option Entries :=
  Entries.within? .dotted
    (fun origin inner =>
      if pair.path.lead.isEmpty || origin = .dotted then
        Entries.define? pair.path.last pair.value inner
      else none)
    .written pair.path.lead entries

/-- Add pairs to a table one after another. -/
def Entries.addAll? (entries : Entries) (pairs : List Pair) : Option Entries :=
  pairs.foldlM Entries.add? entries

/-- Add a part of a file to the tables before it. -/
def Entries.extend? (root : Entries) (part : Section) : Option Entries :=
  match part.header with
  | .table path =>
    Entries.within? .implied
      (fun _ => Entries.alter? path.last fun
        | none => (Entries.addAll? [] part.pairs).map (.table .written)
        -- A table that was only implied is written out now, and keeps what it has.
        | some (.table .implied inner) =>
          (Entries.addAll? inner part.pairs).map (.table .written)
        | some _ => none)
      .written path.lead root
  | .member path =>
    Entries.within? .implied
      (fun _ => Entries.alter? path.last fun
        | none => (Entries.addAll? [] part.pairs).map (.tables [])
        | some (.tables earlier last) =>
          (Entries.addAll? [] part.pairs).map (.tables (earlier ++ [last]))
        | some _ => none)
      .written path.lead root

mutual

/-- The datum that a part of a file describes. -/
def Node.datum : Node → Datum
  | .value datum => datum
  | .table _ entries => .table (entryData entries)
  | .tables earlier last => .list (tableData earlier ++ [.table (entryData last)])

/-- The data of the entries of a table. -/
def entryData : List (String × Node) → List (Option String × Datum)
  | [] => []
  | (key, node) :: rest => (some key, node.datum) :: entryData rest

/-- The data of a list of tables. -/
def tableData : List (List (String × Node)) → List Datum
  | [] => []
  | entries :: rest => .table (entryData entries) :: tableData rest

end

/-- The table that the pairs between two braces make. -/
def inlineTable? (pairs : List Pair) : Option Datum :=
  (Entries.addAll? [] pairs).map fun entries => .table (entryData entries)

/-- **The table that a file makes**: the pairs before the first header, then the parts. -/
def document? (pairs : List Pair) (parts : List Section) : Option Datum := do
  let root ← Entries.addAll? [] pairs
  let root ← parts.foldlM Entries.extend? root
  return .table (entryData root)

end UtilityCss.Data.Toml
