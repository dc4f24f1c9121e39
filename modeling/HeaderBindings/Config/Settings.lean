import HeaderBindings.Config.Document

/-!
The settings of a run and reading them from a configuration document. Unknown keys are ignored and
missing ones have defaults; a key of the wrong type makes the document invalid. A group of settings
is a table, or an array that gives them by position.
-/

namespace HeaderBindings

inductive Strategy where
  | text
  | clang
  deriving DecidableEq, Repr

namespace Strategy

def name : Strategy → Text
  | text => "text".toList
  | clang => "clang".toList

def ofName? (name : Text) : Option Strategy :=
  if name = "text".toList then some text
  else if name = "clang".toList then some clang
  else none

/-- What is said of a name that is no strategy. -/
def unknownMessage (name : Text) : Text :=
  "unknown strategy `".toList ++ name ++ "` (expected `text` or `clang`)".toList

end Strategy

structure Settings where
  outputDir : Text := "generated".toList
  bridge : Text := "../bridge".toList
  strategy : Strategy := .text
  libclangPath : Option Text := none
  sdkRoot : Option Text := none
  clangArgs : List Text := []
  deriving DecidableEq, Repr

namespace Config

namespace Node

/-- The settings of a group by name, or by position in an array. A date stands for a table without
settings. -/
def fields? (node : Node) (names : List Text) : Option (List (Option Node)) :=
  match node with
  | .table origin entries => some (names.map (Table.get? ⟨origin, entries⟩))
  | .array items => some ((List.range names.length).map (items[·]?))
  | .tables elements =>
    some ((List.range names.length).map fun i => elements[i]?.map (Node.table .header))
  | .scalar .dateTime => some (names.map fun _ => none)
  | .scalar _ => none

def string? : Node → Option Text
  | .scalar (.string text) => some text
  | _ => none

def strings? : Node → Option (List Text)
  | .array items => items.mapM string?
  | _ => none

/-- Whether a node is a table or an array without anything in it. -/
def isEmpty : Node → Bool
  | .table _ entries => entries.isEmpty
  | .array items => items.isEmpty
  | .tables elements => elements.isEmpty
  | .scalar _ => false

/-- A strategy by its name, or as the only key of a table, with nothing under it. -/
def strategy? : Node → Option Strategy
  | .scalar (.string name) => Strategy.ofName? name
  | .table _ [(name, value)] => if value.isEmpty then Strategy.ofName? name else none
  | _ => none

end Node

/-- A setting that may be missing. -/
def optional {α : Type} (read : Node → Option α) : Option Node → Option (Option α)
  | none => some none
  | some node => (read node).map some

def withOutput (settings : Settings) (node : Node) : Option Settings := do
  match ← node.fields? ["dir".toList, "bridge_module".toList] with
  | [dir, bridge] =>
    let dir ← optional Node.string? dir
    let bridge ← optional Node.string? bridge
    return { settings with
             outputDir := dir.getD settings.outputDir
             bridge := bridge.getD settings.bridge }
  | _ => none

def withExtract (settings : Settings) (node : Node) : Option Settings := do
  match ← node.fields?
      ["strategy".toList, "libclang_path".toList, "sdk_root".toList, "clang_args".toList] with
  | [strategy, libclangPath, sdkRoot, clangArgs] =>
    let strategy ← optional Node.strategy? strategy
    let libclangPath ← optional Node.string? libclangPath
    let sdkRoot ← optional Node.string? sdkRoot
    let clangArgs ← optional Node.strings? clangArgs
    return { settings with
             strategy := strategy.getD settings.strategy
             libclangPath := libclangPath
             sdkRoot := sdkRoot
             clangArgs := clangArgs.getD [] }
  | _ => none

def settingsOf (table : Table) : Option Settings := do
  let settings ← match table.get? "output".toList with
    | some node => withOutput {} node
    | none => some {}
  match table.get? "extract".toList with
  | some node => withExtract settings node
  | none => some settings

end Config

/-- The settings that a configuration document gives, if it is a valid one. -/
def Settings.parse? (document : Text) : Option Settings :=
  (Config.document? document).bind Config.settingsOf

end HeaderBindings
