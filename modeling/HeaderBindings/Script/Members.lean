import HeaderBindings.Script.Member
import HeaderBindings.Script.Plan
import HeaderBindings.Model.ClassSet
import HeaderBindings.Event

/-!
The members generated for a class: accessors of its properties, setters, one member per group of
overloads, and marks for what cannot be generated. Methods that are left out are named in
warnings, unless they only repeat an accessor.
-/

namespace HeaderBindings

namespace Property

def scriptType (property : Property) : ScriptType :=
  .ofNativeOrNull property.type property.nullable

def docBlock (property : Property) : DocBlock :=
  (if property.doc.isEmpty then [] else [property.doc])
    ++ (property.availability.map ("@since ".toList ++ ·)).toList

/-- The accessors of a property: none without a name, only a getter if it is readonly. -/
def members (property : Property) (className : Text) : List ScriptMember :=
  if property.name.isEmpty then []
  else
    let name := Identifier.sanitize property.name
    let receiver := Receiver.ofSide className property.isClass
    let getter := ScriptMember.getter property.docBlock property.isClass name property.scriptType
      ⟨receiver, property.getterSelector, .named []⟩
    let setter := ScriptMember.setter [] property.isClass name property.scriptType
      ⟨receiver, property.setterSelector, .named ["value".toList]⟩
    if property.readonly then [getter] else [getter, setter]

end Property

namespace Parameter

def scriptType (param : Parameter) : ScriptType := .ofNativeOrNull param.type param.nullable

def wishedName (param : Parameter) (index : Nat) : Text :=
  if param.name.isEmpty then "arg".toList ++ Text.ofNat index
  else Identifier.sanitize param.name

end Parameter

namespace Method

/-- The names of a method's parameters in generated code, one each and none twice. -/
def paramNames (method : Method) : List Text :=
  Identifier.distinct [] (method.params.zipIdx.map fun param => param.1.wishedName param.2)

def scriptParams (method : Method) : List ScriptParam :=
  List.zipWith (fun name param => ⟨name, param.scriptType⟩) method.paramNames method.params

def paramEntry (name : Text) (param : Parameter) : Option Text :=
  if param.doc.isEmpty then none
  else some ("@param ".toList ++ name ++ ' ' :: param.doc)

def docBlock (method : Method) : DocBlock :=
  (if method.doc.isEmpty then [] else [method.doc])
    ++ (List.zipWith paramEntry method.paramNames method.params).filterMap id
    ++ (if method.returnDoc.isEmpty then [] else ["@returns ".toList ++ method.returnDoc])
    ++ (method.availability.map ("@since ".toList ++ ·)).toList

def scriptReturn (method : Method) : ScriptType :=
  .ofNativeOrNull method.returnType method.returnNullable

end Method

namespace SetterAccessor

def member (setter : SetterAccessor) : ScriptMember :=
  let method := setter.entry.method
  let type := (method.params.head?.map Parameter.scriptType).getD .anyObject
  .setter method.docBlock false (Identifier.sanitize setter.name) type
    ⟨.handle, method.selector, .named ["value".toList]⟩

end SetterAccessor

namespace OverloadGroup

variable (className : Text) (group : OverloadGroup)

def returnType (method : Method) : ReturnType :=
  if group.isConstructor then .instanceOf className else .script method.scriptReturn

/-- The statement that calls one method of the group. -/
def statement (method : Method) (arguments : CallArguments) : Statement :=
  if group.isConstructor then
    .construct className ⟨.fresh className, method.selector, arguments⟩
  else
    let call : Call := ⟨.ofSide className method.isStatic, method.selector, arguments⟩
    if method.scriptReturn.isVoid then .perform call else .giveBack call method.scriptReturn

def signatureOf (method : Method) : Signature :=
  { isStatic := group.emitsStatic
    name := Identifier.sanitize group.base
    params := method.scriptParams
    returns := group.returnType className method }

def overloadOf (method : Method) : Overload :=
  { doc := method.docBlock
    signature := group.signatureOf className method
    body := group.statement className method .all }

def methods : List Method := group.entries.map (·.method)

def width : Nat := (group.methods.map Method.arity).foldl Nat.max 0

/-- The name that the first method with a parameter at a position gives it. -/
def nameAt (position : Nat) : Text :=
  (group.methods.findSome? (·.paramNames[position]?)).getD ("arg".toList ++ Text.ofNat position)

/-- The types that the methods have at a position, each once. -/
def typesAt (position : Nat) : List Text :=
  adopt [] (group.methods.filterMap fun method =>
    method.params[position]?.map fun param => param.scriptType.text)

/-- The parameters of the implementation; `args` and `rest` are names of its own. -/
def unionParams : List UnionParam :=
  let positions := List.range group.width
  let names := Identifier.distinct ["args".toList, "rest".toList] (positions.map group.nameAt)
  List.zipWith (fun name position => ⟨name, group.typesAt position⟩) names positions

def dispatch : Dispatch :=
  { isStatic := group.emitsStatic
    name := Identifier.sanitize group.base
    base := group.base
    params := group.unionParams
    overloads := group.methods.map (group.overloadOf className) }

/-- The member of a group with one method. -/
def function (method : Method) : ScriptMember :=
  .function method.docBlock (group.signatureOf className method)
    (group.statement className method (.named method.paramNames))

def member : ScriptMember :=
  match group.methods with
  | [method] => group.function className method
  | _ => .overloaded (group.dispatch className)

end OverloadGroup

namespace MemberPlan

def members (plan : MemberPlan) (className : Text) : List ScriptMember :=
  plan.setters.map SetterAccessor.member
    ++ plan.groups.map (OverloadGroup.member className)
    ++ plan.incomplete.map fun entry =>
      .incomplete entry.method.isStatic (Identifier.sanitize entry.method.baseName)

/-- What is said of a method that is left out. -/
def dropMessage (className : Text) (drop : Entry × DropReason) : Text :=
  className ++ ": no binding for `".toList ++ drop.1.method.signed ++ "`: ".toList ++ drop.2.text

def dropEvent (className : Text) (drop : Entry × DropReason) : Event :=
  { level := if drop.2.isWarning then .warn else .debug
    message := dropMessage className drop }

def diagnostics (plan : MemberPlan) (className : Text) : List Diagnostic :=
  (plan.dropped.filter (·.2.isWarning)).map fun drop => { message := dropMessage className drop }

def events (plan : MemberPlan) (className : Text) : List Event :=
  plan.dropped.map (dropEvent className)

end MemberPlan

namespace ClassDecl

def scriptMembers (decl : ClassDecl) : List ScriptMember :=
  decl.properties.flatMap (·.members decl.name) ++ (MemberPlan.ofClass decl).members decl.name

end ClassDecl

end HeaderBindings
