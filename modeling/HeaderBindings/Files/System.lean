import HeaderBindings.Files.Path
import HeaderBindings.Event

/-!
What a run needs from the world: looking at files and directories, writing, and reporting. A run
is written against these operations, so that it can be carried out on real files as well as on a
tree of files held as a value.
-/

namespace HeaderBindings

inductive FileKind where
  | file
  | directory
  | other
  deriving DecidableEq, Repr

/-- The operations on files; those that may fail answer with nothing or with false. Entries of a
directory come in any order. -/
class FileSystem (m : Type → Type) where
  kind? : Text → m (Option FileKind)
  entries? : Text → m (Option (List (Text × FileKind)))
  readText? : Text → m (Option Text)
  makeDirectories : Text → m Bool
  writeText : Text → Text → m Bool
  report : Event → m Unit

namespace FileSystem

variable {m : Type → Type} [Monad m] [FileSystem m]

def reportAll : List Event → m Unit
  | [] => pure ()
  | event :: events => do
    report event
    reportAll events

end FileSystem

end HeaderBindings
