import HeaderBindings.CommandLine.Execute

/-!
The program on real files. Messages go to standard error, up to the level that the environment
names or that the command line asks for. A directory cannot be listed here, so that headers are
named one by one.
-/

namespace HeaderBindings

namespace CommandLine

/-- Real files, with the most detailed level of the messages that are shown. -/
abbrev Shell := ReaderT Level IO

namespace Shell

/-- The result of an operation, or nothing if it fails. -/
def attempt? {α : Type} (action : IO α) : IO (Option α) := do
  try return some (← action)
  catch _ => return none

def succeeds (action : IO Unit) : IO Bool := return (← attempt? action).isSome

/-- Only a directory has a node of this name below it. -/
def here : Text := "/.".toList

def exists? (path : Text) : IO Bool :=
  return (← attempt? (IO.FS.realPath (String.ofList path))).isSome

def kind? (path : Text) : IO (Option FileKind) := do
  if ← exists? (path ++ here) then return some .directory
  else if ← exists? path then return some .file
  else return none

instance : FileSystem Shell where
  kind? path := kind? path
  entries? _ := return none
  readText? path := return (← attempt? (IO.FS.readFile (String.ofList path))).map String.toList
  makeDirectories path := succeeds (IO.FS.createDirAll (String.ofList path))
  writeText path content :=
    succeeds (IO.FS.writeFile (String.ofList path) (String.ofList content))
  report event := do
    if event.shownAt (← read) then IO.eprintln (String.ofList event.line)

end Shell

def levelVariable : String := "VENEER_LOG"

def levelOf (arguments : List Text) : IO Level := do
  let named := ((← IO.getEnv levelVariable).map String.toList).bind Level.ofName?
  return named.getD (((Request.parse? arguments).map (·.level)).getD .warn)

def program (arguments : List String) : IO UInt32 := do
  let arguments := arguments.map String.toList
  let outcome ← (execute arguments : Shell Outcome).run (← levelOf arguments)
  IO.print (String.ofList outcome.output)
  if outcome.exitCode != 0 then IO.eprintln (String.ofList outcome.complaint)
  return outcome.exitCode.toUInt32

end CommandLine

end HeaderBindings

def main (arguments : List String) : IO UInt32 := HeaderBindings.CommandLine.program arguments
