import HeaderBindings.Proofs.Reading.Syntax

/-!
Running generated code. A call of a method binds its parameters and executes its body; the bridge
answers what it is asked, by the history of the run. A run leaves a trace: each test with its
outcome, each allocation, each invocation.
-/

namespace HeaderBindings

namespace Reading

inductive Value where
  | undefined
  | boolean (holds : Bool)
  | number (value : Nat)
  | text (content : Text)
  | message (template : Text)
  | array (elements : List Value)
  | object (identity : Nat)
  | invoker
  | allocator
  | errorClass
  | error (message : Value)
  | classNamed (name : Text)
  | instanceOf (className : Text) (handle : Value)

inductive Effect where
  | tested (holds : Bool)
  | allocated (className : Text)
  | invoked (target : Value) (selector : Text) (arguments : List Value)

/-- Why a run ends without a value: code that throws, or code that has no meaning. -/
inductive Stop where
  | thrown (value : Value)
  | failed

abbrev Run := ExceptT Stop (StateM (List Effect))

/-- The other side of the bridge: its answer to the last effect of a history. -/
structure Bridge where
  answer : List Effect → Value

namespace Bridge

def ask (bridge : Bridge) (effect : Effect) : Run Value := do
  modify (· ++ [effect])
  return bridge.answer (← get)

end Bridge

/-- What names mean inside a member of a class. -/
structure Scope where
  className : Text
  this : Value
  arguments : List Value
  locals : List (Text × Value)

namespace Scope

/-- What a module sees around its class. -/
def imported (name : Text) : Option Value :=
  if name = "invoke".toList then some .invoker
  else if name = "allocate".toList then some .allocator
  else if name = "Error".toList then some .errorClass
  else none

/-- The meaning of a name: a local one, the class or what the module sees. A keyword has none, but
for the word that stands for all arguments. -/
def find? (scope : Scope) (name : Text) : Option Value :=
  if name = "arguments".toList then some (.array scope.arguments)
  else if keywords.contains name then none
  else match scope.locals.lookup name with
    | some value => some value
    | none => if name = scope.className then some (.classNamed name) else imported name

def bind (scope : Scope) (name : Text) (value : Value) : Scope :=
  { scope with locals := (name, value) :: scope.locals }

end Scope

def propertyOf : Value → Text → Run Value
  | .array elements, name =>
    if name = "length".toList then return .number elements.length else throw .failed
  | .instanceOf _ handle, name =>
    if name = "handle".toList then return handle else throw .failed
  | _, _ => throw .failed

def send : Value → Text → List Value → Run Value
  | .array elements, name, [.number first, .number last] =>
    if name = "slice".toList then return .array ((elements.take last).drop first)
    else throw .failed
  | _, _, _ => throw .failed

def apply (bridge : Bridge) : Value → List Value → Run Value
  | .invoker, target :: .text selector :: arguments =>
    bridge.ask (.invoked target selector arguments)
  | .allocator, [.text className] => bridge.ask (.allocated className)
  | _, _ => throw .failed

def construct : Value → List Value → Run Value
  | .classNamed className, [handle] => return .instanceOf className handle
  | .errorClass, [message] => return .error message
  | _, _ => throw .failed

def elementsOf : Value → Run (List Value)
  | .array elements => return elements
  | _ => throw .failed

def equal : Value → Value → Run Value
  | .number left, .number right => return .boolean (left == right)
  | _, _ => throw .failed

def resolved : Option Value → Run Value
  | some value => return value
  | none => throw .failed

mutual

def evaluate (bridge : Bridge) (scope : Scope) : Expression → Run Value
  | .name name => resolved (scope.find? name)
  | .this => return scope.this
  | .text content => return .text content
  | .template content => return .message content
  | .number value => return .number value
  | .property object name => do propertyOf (← evaluate bridge scope object) name
  | .array items => return .array (← evaluateItems bridge scope items)
  | .call (.property object name) items => do
    let object ← evaluate bridge scope object
    let arguments ← evaluateItems bridge scope items
    send object name arguments
  | .call callee items => do
    let callee ← evaluate bridge scope callee
    let arguments ← evaluateItems bridge scope items
    apply bridge callee arguments
  | .construct className items => do
    let callee ← resolved (scope.find? className)
    let arguments ← evaluateItems bridge scope items
    construct callee arguments
  | .equal left right => do
    let left ← evaluate bridge scope left
    let right ← evaluate bridge scope right
    equal left right

def evaluateItems (bridge : Bridge) (scope : Scope) : Items → Run (List Value)
  | .nil => return []
  | .item value later => do
    let first ← evaluate bridge scope value
    let later ← evaluateItems bridge scope later
    return first :: later
  | .spread list later => do
    let list ← evaluate bridge scope list
    let first ← elementsOf list
    let later ← evaluateItems bridge scope later
    return first ++ later

end

/-- How an instruction ends: the next one goes on in a scope, or the method is left. -/
inductive Completion where
  | next (scope : Scope)
  | left (value : Value)

/-- The outcome of a test goes into the trace. -/
def tested : Value → Run Bool
  | .boolean holds => do
    modify (· ++ [.tested holds])
    return holds
  | _ => throw .failed

mutual

def execute (bridge : Bridge) (scope : Scope) : Instruction → Run Completion
  | .declare name value => do
    let value ← evaluate bridge scope value
    if (scope.locals.lookup name).isSome then throw .failed
    else return .next (scope.bind name value)
  | .perform value => do
    let _ ← evaluate bridge scope value
    return .next scope
  | .leave => return .left .undefined
  | .giveBack value => return .left (← evaluate bridge scope value)
  | .throw value => do throw (.thrown (← evaluate bridge scope value))
  | .branch test body => do
    let test ← evaluate bridge scope test
    if ← tested test then
      match ← executeAll bridge scope body with
      | .next _ => return .next scope
      | .left value => return .left value
    else return .next scope

def executeAll (bridge : Bridge) (scope : Scope) : List Instruction → Run Completion
  | [] => return .next scope
  | instruction :: later => do
    match ← execute bridge scope instruction with
    | .next scope => executeAll bridge scope later
    | .left value => return .left value

end

/-- The values of parameters: an argument each, or nothing if there is none, and all that are left
for a rest parameter. -/
def bindFormals : List Formal → List Value → List (Text × Value)
  | [], _ => []
  | formal :: later, arguments =>
    if formal.rest then [(formal.name, .array arguments)]
    else (formal.name, arguments.headD .undefined) :: bindFormals later arguments.tail

namespace Definition

def scopeOf (definition : Definition) (className : Text) (this : Value) (arguments : List Value) :
    Scope :=
  { className := className
    this := this
    arguments := arguments
    locals := bindFormals definition.formals arguments }

/-- A call of a method in its class; a method that is not left gives nothing back. -/
def call (definition : Definition) (bridge : Bridge) (className : Text) (this : Value)
    (arguments : List Value) : Run Value := do
  match ← executeAll bridge (definition.scopeOf className this arguments)
      (definition.body.getD []) with
  | .next _ => return .undefined
  | .left value => return value

/-- The outcome of a call and the trace it leaves. -/
def outcome (definition : Definition) (bridge : Bridge) (className : Text) (this : Value)
    (arguments : List Value) : Except Stop Value × List Effect :=
  (definition.call bridge className this arguments).run.run []

end Definition

end Reading

end HeaderBindings
