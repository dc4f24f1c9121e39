import HeaderBindings.CommandLine.Layout
import HeaderBindings.CommandLine.Request
import HeaderBindings.Declaration.Method
import HeaderBindings.Run.Generate

/-!
Carrying out a command line. It ends with an exit code and with what goes to standard output, which
is nothing unless all went well, and with a complaint otherwise.
-/

namespace HeaderBindings

namespace CommandLine

variable {m : Type → Type} [Monad m] [FileSystem m]

inductive Failure where
  | nothingToGenerate
  | run (failure : RunFailure)
  | declaration (error : DeclarationError)
  deriving DecidableEq, Repr

namespace Failure

def message : Failure → Text
  | nothingToGenerate => "nothing to generate: pass header paths or --source".toList
  | run failure => failure.message
  | declaration error => error.message

end Failure

abbrev Action (m : Type → Type) (α : Type) := ExceptT Failure m α

def running {α : Type} (action : Run.Action m α) : Action m α := action.adapt .run

/-- The settings that a command works with. -/
def Overrides.settings (overrides : Overrides) : Run.Action m Settings := do
  let settings ← match overrides.config with
    | some path => Run.settingsFrom path
    | none => Run.settingsIn ['.']
  return overrides.apply settings

def withOutputIn (output : Option Text) (settings : Settings) : Settings :=
  { settings with outputDir := output.getD settings.outputDir }

/-- A method on its own and the member that is made of it. -/
structure MethodBinding where
  method : Method
  member : Text
  deriving DecidableEq, Repr

/-- Reads a single declaration and makes its member. -/
def bindMethod (declaration : Text) : Except DeclarationError MethodBinding :=
  (Method.parse declaration).map fun method => ⟨method, method.inlineMember⟩

namespace MethodBinding

/-- What making the member reports. -/
def events (binding : MethodBinding) : List Event :=
  (MemberPlan.ofClass binding.method.inlineClass).events binding.method.inlineClass.name

/-- What a single method is shown as: its model and, after a blank line, its member. -/
def text (binding : MethodBinding) : Text :=
  Layout.text (Layout.ofMethod binding.method) ++ ['\n'] ++ binding.member

end MethodBinding

def Command.output : Command → Action m Text
  | .generate inputs source output overrides => do
    if inputs.isEmpty && source.isNone then throw .nothingToGenerate
    running do
      let settings ← overrides.settings
      let summary ← Run.generate (withOutputIn output settings) inputs source
      return summary.text ++ ['\n']
  | .method declaration => match bindMethod declaration with
    | .ok binding => do
      (FileSystem.reportAll binding.events : m _)
      return binding.text
    | .error error => throw (.declaration error)
  | .dump header overrides => running do
    let classes ← Run.extract (← overrides.settings) [header] none
    return Layout.text (Layout.ofClassSet classes)

def versionText : Text := "veneer 0.1.0\n".toList

/-- How a program ends. -/
inductive Outcome where
  | printed (output : Text)
  | failed (failure : Failure)
  | misused
  deriving DecidableEq, Repr

namespace Outcome

def exitCode : Outcome → Nat
  | printed _ => 0
  | failed _ => 1
  | misused => 2

def output : Outcome → Text
  | printed output => output
  | failed _ => []
  | misused => []

def complaint : Outcome → Text
  | printed _ => []
  | failed failure => failure.message
  | misused => "usage: veneer [-v] generate | method | dump ...".toList

end Outcome

/-- The most detailed level of messages that a request asks for. -/
def Request.level : Request → Level
  | .run true _ => .info
  | _ => .warn

def Request.execute : Request → m Outcome
  | .version => return .printed versionText
  | .run _ command => do
    match ← command.output.run with
    | .ok output => return .printed output
    | .error failure => return .failed failure

def execute (arguments : List Text) : m Outcome :=
  match Request.parse? arguments with
  | some request => request.execute
  | none => return .misused

end CommandLine

end HeaderBindings
