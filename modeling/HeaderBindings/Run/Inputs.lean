import HeaderBindings.Files.System
import HeaderBindings.Header.Note

/-!
The headers of a run. An input that is a directory stands for the headers below it, depth first,
with the entries of each directory in the order of their names; any other input stands for itself.
What ends a run is an input that cannot be read, an output that cannot be written, an invalid
configuration, or a strategy that is not available.
-/

namespace HeaderBindings

inductive RunFailure where
  | unreadable (path : Text)
  | unwritable (path : Text)
  | invalidConfiguration (path : Text)
  | noSyntaxTrees
  deriving DecidableEq, Repr

namespace RunFailure

def message : RunFailure → Text
  | unreadable path => "cannot read `".toList ++ path ++ ['`']
  | unwritable path => "cannot write `".toList ++ path ++ ['`']
  | invalidConfiguration path => "invalid configuration in `".toList ++ path ++ ['`']
  | noSyntaxTrees => "could not load libclang".toList

end RunFailure

namespace Run

variable {m : Type → Type} [Monad m] [FileSystem m]

abbrev Action (m : Type → Type) (α : Type) := ExceptT RunFailure m α

def sorted (entries : List (Text × FileKind)) : List (Text × FileKind) :=
  entries.mergeSort fun first second => Path.nameLe first.1 second.1

/-- The headers among a directory's entries, given those below each directory. -/
def headersAmong (headersIn : Text → Action m (List Text)) (directory : Text) :
    List (Text × FileKind) → Action m (List Text)
  | [] => pure []
  | (name, kind) :: entries => do
    let path := Path.join directory name
    let found ← match kind with
      | .directory => headersIn path
      | .file => pure (if Path.isHeaderName name then [path] else [])
      | .other => pure []
    return found ++ (← headersAmong headersIn directory entries)

/-- The headers below a directory, at most so many directories deep. -/
def headersBelow : Nat → Text → Action m (List Text)
  | 0, directory => throw (.unreadable directory)
  | depth + 1, directory => do
    match ← (FileSystem.entries? directory : m _) with
    | none => throw (.unreadable directory)
    | some entries => headersAmong (headersBelow depth) directory (sorted entries)

/-- No path has as many steps as this, so that depth never ends a search. -/
def depthLimit : Nat := Path.longestPath + 1

def headersOf (input : Text) : Action m (List Text) := do
  match ← (FileSystem.kind? input : m _) with
  | none => throw (.unreadable input)
  | some .directory => headersBelow depthLimit input
  | some _ => return [input]

def collectInputs : List Text → Action m (List Text)
  | [] => pure []
  | input :: inputs => do
    let headers ← headersOf input
    return headers ++ (← collectInputs inputs)

def readUnit (path : Text) : Action m SourceUnit := do
  match ← (FileSystem.readText? path : m _) with
  | none => throw (.unreadable path)
  | some content => return ⟨path, content⟩

def readUnits : List Text → Action m (List SourceUnit)
  | [] => pure []
  | path :: paths => do
    let unit ← readUnit path
    return unit :: (← readUnits paths)

end Run

end HeaderBindings
