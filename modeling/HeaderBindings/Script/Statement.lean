import HeaderBindings.Script.Type

/-!
The statements of generated members. Each makes one call through the bridge: on the instance's
handle, on a class by its name, or on a fresh instance.
-/

namespace HeaderBindings

inductive Receiver where
  | handle
  | classNamed (name : Text)
  | fresh (className : Text)
  deriving DecidableEq, Repr

namespace Receiver

def text : Receiver → Text
  | handle => "this.handle".toList
  | classNamed name => ['"'] ++ name ++ ['"']
  | fresh className => "allocate(\"".toList ++ className ++ "\")".toList

/-- The receiver on the instance's or on the class's side. -/
def ofSide (className : Text) (isStatic : Bool) : Receiver :=
  if isStatic then classNamed className else handle

end Receiver

/-- Arguments passed on by name, or all that the member was called with. -/
inductive CallArguments where
  | named (names : List Text)
  | all
  deriving DecidableEq, Repr

namespace CallArguments

def text : CallArguments → Text
  | named names => names.flatMap fun name => ", ".toList ++ name
  | all => ", ...args".toList

end CallArguments

structure Call where
  receiver : Receiver
  selector : Text
  arguments : CallArguments
  deriving DecidableEq, Repr

namespace Call

def text (call : Call) : Text :=
  "invoke(".toList ++ call.receiver.text ++ ", \"".toList ++ call.selector ++ ['"']
    ++ call.arguments.text ++ [')']

end Call

inductive Statement where
  | perform (call : Call)
  | giveBack (call : Call) (type : ScriptType)
  | construct (className : Text) (call : Call)
  deriving DecidableEq, Repr

namespace Statement

def call : Statement → Call
  | perform call | giveBack call _ | construct _ call => call

def text : Statement → Text
  | perform call => call.text ++ [';']
  | giveBack call type =>
    "return ".toList ++ call.text ++ " as ".toList ++ type.text ++ [';']
  | construct className call =>
    "return new ".toList ++ className ++ ['('] ++ call.text ++ [')', ';']

/-- Whether control leaves the member with the statement. -/
def leaves : Statement → Bool
  | perform _ => false
  | giveBack _ _ | construct _ _ => true

end Statement

end HeaderBindings
