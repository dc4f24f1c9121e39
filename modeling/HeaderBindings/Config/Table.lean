import HeaderBindings.Text.Basic

/-!
The values of a configuration document and the tables they are put into. A table remembers how it
came about, because that decides whether a later line may extend it: headers extend tables that a
longer header implied, dotted keys extend tables that dotted keys made.
-/

namespace HeaderBindings

namespace Config

inductive Scalar where
  | string (text : Text)
  | integer
  | float
  | boolean
  | dateTime
  deriving DecidableEq, Repr

/-- How a table came about: by its header, as part of a longer header, by a dotted key, or written
in one line. -/
inductive Origin where
  | header
  | implied
  | dotted
  | inline
  deriving DecidableEq, Repr

inductive Node where
  | scalar (value : Scalar)
  | array (items : List Node)
  | table (origin : Origin) (entries : List (Text × Node))
  | tables (elements : List (List (Text × Node)))
  deriving Repr

structure Table where
  origin : Origin
  entries : List (Text × Node)
  deriving Repr

namespace Table

def get? (table : Table) (key : Text) : Option Node :=
  (table.entries.find? (·.1 == key)).map (·.2)

def add (table : Table) (key : Text) (node : Node) : Table :=
  { table with entries := table.entries ++ [(key, node)] }

def replace (table : Table) (key : Text) (node : Node) : Table :=
  { table with
    entries := table.entries.map fun entry => if entry.1 = key then (key, node) else entry }

def remove (table : Table) (key : Text) : Table :=
  { table with entries := table.entries.filter (·.1 != key) }

def node (table : Table) : Node := .table table.origin table.entries

/-- The table that a key on a path leads to, and how to put a changed one back. A missing table is
made; of several tables under one key the last is meant. Dotted keys do not lead into tables that a
header has opened, and nothing leads into an inline table. -/
def child? (table : Table) (dotted : Bool) (key : Text) : Option (Table × (Table → Table)) :=
  match table.get? key with
  | none => some (⟨if dotted then .dotted else .implied, []⟩, fun child => table.add key child.node)
  | some (.table origin entries) =>
    if origin = .inline || (dotted && origin = .header) then none
    else some (⟨origin, entries⟩, fun child => table.replace key child.node)
  | some (.tables elements) => match elements.reverse with
    | last :: before => some (⟨.header, last⟩, fun child =>
        table.replace key (.tables (before.reverse ++ [child.entries])))
    | [] => none
  | some _ => none

/-- Changes the table at the end of a path. -/
def alter {α : Type} (dotted : Bool) (change : Table → Option (α × Table)) :
    List Text → Table → Option (α × Table)
  | [], table => change table
  | key :: path, table => match table.child? dotted key with
    | none => none
    | some (child, putBack) =>
      (alter dotted change path child).map fun changed => (changed.1, putBack changed.2)

/-- Adds a value under a path of keys. A dotted path may only end in a table made by dotted keys,
and a plain key only in a table that is not. -/
def addValue (table : Table) (path : List Text) (key : Text) (value : Node) : Option Table :=
  (alter true (fun owner =>
      if (owner.origin == .dotted) == path.isEmpty || (owner.get? key).isSome then none
      else some ((), owner.add key value))
    path table).map (·.2)

/-- Takes the entries of a table that is about to get its header: none if it is new, those that
longer headers implied if there are any. -/
def takeImplied (table : Table) (key : Text) : Option (List (Text × Node) × Table) :=
  match table.get? key with
  | none => some ([], table)
  | some (.table .implied entries) => some (entries, table.remove key)
  | some _ => none

def appendElement (table : Table) (key : Text) (entries : List (Text × Node)) :
    Option (Unit × Table) :=
  match table.get? key with
  | none => some ((), table.add key (.tables [entries]))
  | some (.tables elements) => some ((), table.replace key (.tables (elements ++ [entries])))
  | some _ => none

end Table

inductive Line where
  | value (path : List Text) (key : Text) (value : Node)
  | header (path : List Text) (key : Text)
  | elementHeader (path : List Text) (key : Text)
  deriving Repr

/-- A document being read: what is complete, and the table that lines go into. -/
structure Draft where
  root : Table
  path : List Text
  key : Option Text
  isElement : Bool
  current : Table
  deriving Repr

namespace Draft

def start : Draft := ⟨⟨.header, []⟩, [], none, false, ⟨.header, []⟩⟩

/-- The document with the current table put in its place. -/
def finish (draft : Draft) : Option Table :=
  match draft.key with
  | none => some draft.current
  | some key =>
    let place := if draft.isElement then (Table.appendElement · key draft.current.entries)
      else fun parent => match parent.get? key with
        | none => some ((), parent.add key draft.current.node)
        | some _ => none
    (Table.alter false place draft.path draft.root).map (·.2)

def read (draft : Draft) : Line → Option Draft
  | .value path key value =>
    (draft.current.addValue path key value).map fun current => { draft with current := current }
  | .header path key => do
    let root ← draft.finish
    let taken ← Table.alter false (Table.takeImplied · key) path root
    return ⟨taken.2, path, some key, false, ⟨.header, taken.1⟩⟩
  | .elementHeader path key => do
    let root ← draft.finish
    return ⟨root, path, some key, true, ⟨.header, []⟩⟩

end Draft

/-- The document that lines make up, if no two of them contradict each other. -/
def ofLines (lines : List Line) : Option Table :=
  (lines.foldlM Draft.read Draft.start).bind Draft.finish

end Config

end HeaderBindings
