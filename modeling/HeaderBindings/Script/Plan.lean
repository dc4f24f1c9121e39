import HeaderBindings.Model.ClassDecl
import HeaderBindings.Script.Identifier

/-!
How the methods of a class become members: setters of derived properties, groups of overloads
that share a side and a base name, marks for malformed methods, and methods that are left out,
each for a reason. Every method keeps its position in the class and is put in exactly one place.
-/

namespace HeaderBindings

/-- A method with its position in its class. -/
structure Entry where
  position : Nat
  method : Method
  deriving DecidableEq, Repr

inductive DropReason where
  | propertyGetter
  | propertySetter
  | duplicateSetter
  | duplicateSelector
  | emptySelector
  | malformedOverload
  | duplicateMalformed
  deriving DecidableEq, Repr

namespace DropReason

/-- Accessors of a declared property may be declared again; any other drop loses a binding. -/
def isWarning : DropReason → Bool
  | propertyGetter | propertySetter => false
  | _ => true

def text : DropReason → Text
  | propertyGetter => "duplicates a property getter".toList
  | propertySetter => "duplicates a property setter".toList
  | duplicateSetter => "duplicate setter".toList
  | duplicateSelector => "selector declared twice".toList
  | emptySelector => "empty selector".toList
  | malformedOverload => "selector colons do not match its parameters".toList
  | duplicateMalformed => "duplicate malformed declaration".toList

end DropReason

/-- A method `setName:` that becomes a setter of a property that is not declared. -/
structure SetterAccessor where
  name : Text
  entry : Entry
  deriving DecidableEq, Repr

/-- Methods of one side and one base name, in the order of their declaration. -/
structure OverloadGroup where
  isStatic : Bool
  base : Text
  isConstructor : Bool
  entries : List Entry
  deriving DecidableEq, Repr

/-- No method of a group takes a number of arguments. -/
structure UnresolvedOverload where
  base : Text
  count : Nat
  deriving DecidableEq, Repr

def UnresolvedOverload.message (error : UnresolvedOverload) : Text :=
  "no overload of `".toList ++ error.base ++ "` takes ".toList ++ Text.ofNat error.count
    ++ " argument(s)".toList

namespace OverloadGroup

def start (entry : Entry) : OverloadGroup :=
  { isStatic := entry.method.isStatic
    base := entry.method.baseName
    isConstructor := entry.method.isInitializer
    entries := [entry] }

def owns (group : OverloadGroup) (method : Method) : Bool :=
  group.isStatic == method.isStatic && group.base == method.baseName

def declares (group : OverloadGroup) (method : Method) : Bool :=
  group.entries.any (·.method.selector == method.selector)

def add (group : OverloadGroup) (entry : Entry) : OverloadGroup :=
  { group with entries := group.entries ++ [entry] }

/-- The first method that takes a number of arguments. -/
def resolve (group : OverloadGroup) (count : Nat) : Except UnresolvedOverload Entry :=
  match group.entries.find? (·.method.arity == count) with
  | some entry => .ok entry
  | none => .error ⟨group.base, count⟩

def isOverloaded (group : OverloadGroup) : Bool := group.entries.length > 1

/-- Whether the member is static: initializers become factories of the class. -/
def emitsStatic (group : OverloadGroup) : Bool := group.isStatic || group.isConstructor

end OverloadGroup

structure MemberPlan where
  setters : List SetterAccessor := []
  groups : List OverloadGroup := []
  incomplete : List Entry := []
  dropped : List (Entry × DropReason) := []
  deriving DecidableEq, Repr

namespace MemberPlan

/-- Where one method goes. -/
inductive Placement where
  | setter (name : Text)
  | grouped
  | incomplete
  | dropped (reason : DropReason)
  deriving DecidableEq, Repr

def addToGroup (entry : Entry) : List OverloadGroup → List OverloadGroup
  | [] => [OverloadGroup.start entry]
  | group :: later =>
    if group.owns entry.method then group.add entry :: later
    else group :: addToGroup entry later

def put (plan : MemberPlan) (entry : Entry) : Placement → MemberPlan
  | .setter name => { plan with setters := plan.setters ++ [⟨name, entry⟩] }
  | .grouped => { plan with groups := addToGroup entry plan.groups }
  | .incomplete => { plan with incomplete := plan.incomplete ++ [entry] }
  | .dropped reason => { plan with dropped := plan.dropped ++ [(entry, reason)] }

/-- The property that an instance method `setName:` of one parameter would set. -/
def setterProperty? (method : Method) : Option Text :=
  if method.isStatic || method.arity != 1 || method.colonCount != 1 then none
  else match Text.after? "set".toList method.baseName with
    | some (c :: rest) =>
      if c.isUpper then some (Identifier.lowerLeadingCapitals (c :: rest)) else none
    | _ => none

/-- Whether a method without parameters is the getter of a property on its side. -/
def redeclaresGetter (decl : ClassDecl) (method : Method) : Bool :=
  method.arity == 0 && decl.properties.any fun property =>
    property.isClass == method.isStatic && property.getterSelector == method.selector

def instanceBases (decl : ClassDecl) : List Text :=
  (decl.methods.filter (!·.isStatic)).map (·.baseName)

def placeInGroup (plan : MemberPlan) (method : Method) : Placement :=
  if plan.groups.any fun group => group.owns method && group.declares method then
    .dropped .duplicateSelector
  else .grouped

/-- A setter-like method sets a declared property, a property that it makes, or is an ordinary
method where the name is taken. -/
def placeSetter (decl : ClassDecl) (plan : MemberPlan) (method : Method) (name : Text) :
    Placement :=
  match decl.property? name with
  | some property =>
    if !property.readonly && !property.isClass then .dropped .propertySetter
    else placeInGroup plan method
  | none =>
    if (instanceBases decl).contains name then placeInGroup plan method
    else if plan.setters.any (·.name == name) then .dropped .duplicateSetter
    else .setter name

def placeWellFormed (decl : ClassDecl) (plan : MemberPlan) (method : Method) : Placement :=
  if redeclaresGetter decl method then .dropped .propertyGetter
  else match setterProperty? method with
    | some name => placeSetter decl plan method name
    | none => placeInGroup plan method

def placeMalformed (plan : MemberPlan) (method : Method) : Placement :=
  if method.baseName.isEmpty then .dropped .emptySelector
  else if plan.groups.any (·.owns method) then .dropped .malformedOverload
  else if plan.incomplete.any fun entry =>
      entry.method.isStatic == method.isStatic && entry.method.baseName == method.baseName then
    .dropped .duplicateMalformed
  else .incomplete

/-- The methods of a class with their positions. -/
def entries (decl : ClassDecl) : List Entry :=
  decl.methods.zipIdx.map fun placed => ⟨placed.2, placed.1⟩

/-- Well-formed methods are placed first, so that a malformed one never takes a group's name. -/
def ofClass (decl : ClassDecl) : MemberPlan :=
  let sides := (entries decl).partition (·.method.wellFormed)
  let planned := sides.1.foldl
    (fun plan entry => plan.put entry (placeWellFormed decl plan entry.method)) {}
  sides.2.foldl (fun plan entry => plan.put entry (placeMalformed plan entry.method)) planned

end MemberPlan

end HeaderBindings
