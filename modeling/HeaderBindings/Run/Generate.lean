import HeaderBindings.Config.Settings
import HeaderBindings.Header.Scanner
import HeaderBindings.Run.Inputs
import HeaderBindings.Script.Reflow
import HeaderBindings.Tree.Declarations

/-!
A run: the settings are loaded, all headers are read before any is extracted, the modules of all
classes are made before any is written, and they are written in the order of the class set until
one cannot be. Syntax trees come from a compiler's library, which a run is given or lacks.
-/

namespace HeaderBindings

namespace Run

variable {m : Type → Type} [Monad m] [FileSystem m]

/-! Settings. -/

def settingsFileName : Text := "veneer.toml".toList

def settingsFrom (path : Text) : Action m Settings := do
  match ← (FileSystem.readText? path : m _) with
  | none => throw (.unreadable path)
  | some document => match Settings.parse? document with
    | some settings => return settings
    | none => throw (.invalidConfiguration path)

def loading (path : Text) : Event :=
  { level := .debug
    message := "loading configuration".toList
    fields := [("path".toList, .plain path)] }

/-- The settings of a directory's own file, or the default ones if it has none. -/
def settingsIn (directory : Text) : Action m Settings := do
  let path := Path.join directory settingsFileName
  match ← (FileSystem.kind? path : m _) with
  | some .file => do
    (FileSystem.report (loading path) : m _)
    settingsFrom path
  | _ => return {}

/-! Extraction and generation, without the world. -/

def readingHeader (unit : SourceUnit) : Event :=
  { level := .debug
    message := "reading header".toList
    fields := [("path".toList, .plain unit.path)] }

/-- The classes of units added to those already known, and what that reports. -/
def extractUnits (classes : ClassSet) : List SourceUnit → ClassSet × List Event
  | [] => (classes, [])
  | unit :: units =>
    let read := unit.extract classes
    let later := extractUnits read.classes units
    (later.1, readingHeader unit :: read.events ++ later.2)

/-- A compiler's library: the nodes at the top of a header's syntax tree, or why there are none. -/
abbrev TreeLibrary := SourceUnit → Except RunFailure (List Node)

/-- The classes of units read from their syntax trees, unless one has none, and what that reports. -/
def extractTrees (trees : TreeLibrary) (classes : ClassSet) :
    List SourceUnit → Except RunFailure ClassSet × List Event
  | [] => (.ok classes, [])
  | unit :: units => match trees unit with
    | .error failure => (.error failure, [readingHeader unit])
    | .ok nodes =>
      let read := Node.extract unit.path nodes classes
      let later := extractTrees trees read.classes units
      (later.1, readingHeader unit :: read.events ++ later.2)

/-- What making the module of a class reports. -/
def moduleEvents (bridge : Text) (classes : ClassSet) (decl : ClassDecl) : List Event :=
  (MemberPlan.ofClass decl).events decl.name
    ++ reflowEvents (GeneratedFile.ofClass bridge classes decl).source

structure Summary where
  classes : Nat
  files : Nat
  warnings : Nat
  deriving DecidableEq, Repr

namespace Summary

def of (classes : ClassSet) (files : List GeneratedFile) : Summary :=
  { classes := classes.size
    files := files.length
    warnings := classes.diagnostics.length + (files.flatMap (·.diagnostics)).length }

def text (summary : Summary) : Text :=
  "extracted ".toList ++ Text.ofNat summary.classes ++ " classes, wrote ".toList
    ++ Text.ofNat summary.files ++ " files, ".toList ++ Text.ofNat summary.warnings
    ++ " warnings".toList

end Summary

/-! The run. -/

def extracting (strategy : Strategy) : Event :=
  { level := .debug
    message := "extracting".toList
    fields := [("strategy".toList, .quoted strategy.name)] }

/-- The headers of a run, and inline declarations after them. -/
def unitsOf (inputs : List Text) (inline : Option Text) : Action m (List SourceUnit) := do
  let units ← readUnits (← collectInputs inputs)
  return units ++ (inline.map SourceUnit.inline).toList

/-- The classes of all units of a run. Where syntax trees are asked for and there is no library, a
run ends before any input is looked at. -/
def extractWith (trees? : Option TreeLibrary) (settings : Settings) (inputs : List Text)
    (inline : Option Text) : Action m ClassSet := do
  match settings.strategy, trees? with
  | .clang, none => throw .noSyntaxTrees
  | .clang, some trees => do
    (FileSystem.report (extracting .clang) : m _)
    let result := extractTrees trees .empty (← unitsOf inputs inline)
    (FileSystem.reportAll result.2 : m _)
    match result.1 with
    | .ok classes => return classes
    | .error failure => throw failure
  | .text, _ => do
    (FileSystem.report (extracting .text) : m _)
    let result := extractUnits .empty (← unitsOf inputs inline)
    (FileSystem.reportAll result.2 : m _)
    return result.1

/-- The classes of a run without a compiler's library. -/
def extract (settings : Settings) (inputs : List Text) (inline : Option Text) : Action m ClassSet :=
  extractWith none settings inputs inline

def wroteModule (path : Text) : Event :=
  { level := .debug
    message := "wrote module".toList
    fields := [("path".toList, .plain path)] }

def writeFiles (directory : Text) : List GeneratedFile → Action m Unit
  | [] => pure ()
  | file :: files => do
    let path := Path.join directory file.fileName
    if ← (FileSystem.writeText path file.source : m _) then
      (FileSystem.report (wroteModule path) : m _)
      writeFiles directory files
    else throw (.unwritable path)

def write (directory : Text) (files : List GeneratedFile) : Action m Unit := do
  if ← (FileSystem.makeDirectories directory : m _) then writeFiles directory files
  else throw (.unwritable directory)

def finished (summary : Summary) : Event := { level := .info, message := summary.text }

/-- Makes the modules of a class set and writes them. -/
def produce (settings : Settings) (classes : ClassSet) : Action m Summary := do
  (FileSystem.reportAll (classes.classes.flatMap (moduleEvents settings.bridge classes)) : m _)
  let files := generatedFiles settings.bridge classes
  write settings.outputDir files
  let summary := Summary.of classes files
  (FileSystem.report (finished summary) : m _)
  return summary

/-- Extracts all headers, makes the modules and writes them. -/
def generateWith (trees? : Option TreeLibrary) (settings : Settings) (inputs : List Text)
    (inline : Option Text) : Action m Summary := do
  produce settings (← extractWith trees? settings inputs inline)

/-- A run without a compiler's library. -/
def generate (settings : Settings) (inputs : List Text) (inline : Option Text) : Action m Summary :=
  generateWith none settings inputs inline

end Run

end HeaderBindings
