import HeaderBindings.Tree.Node
import HeaderBindings.Declaration.Comment
import HeaderBindings.Model.Finding
import HeaderBindings.NativeType

/-!
Reading a header's syntax tree. Nodes of included files are passed over at both levels; interfaces
and categories with a class become classes, and their usable children members. Superclasses,
protocols and availability are not part of the tree.
-/

namespace HeaderBindings

namespace SpelledType

def native (type : SpelledType) : NativeType := .ofText type.spelling

/-- An annotation decides; without one the spelling does. -/
def isNullable (type : SpelledType) : Bool :=
  match type.nullability with
  | .nullable => true
  | .nonnull => false
  | .unspecified => type.native.nullable

/-- An object of whose nullability nothing is said may be null. -/
def isBareObject (type : SpelledType) : Bool :=
  type.nullability == .unspecified && type.native.isObject && !type.native.nonnull

end SpelledType

namespace MethodNode

/-- A parameter without a name is named by its position. -/
def param (index : Nat) (name : Text) (type : SpelledType) : Parameter :=
  { name := if name.isEmpty then "arg".toList ++ Text.ofNat index else name
    type := type.native.name
    nullable := type.isNullable }

def toMethod (node : MethodNode) (isStatic : Bool) : Method :=
  { selector := node.selector
    params := node.params.zipIdx.map fun entry => param entry.2 entry.1.1 entry.1.2
    returnType := node.returnType.native.name
    returnNullable := node.returnType.isNullable
    isStatic := isStatic }

end MethodNode

namespace PropertyNode

def toProperty (node : PropertyNode) : Property :=
  { name := node.name
    type := node.type.native.name
    readonly := node.attributes.has .readonly
    nullable := node.type.isNullable || node.type.isBareObject
    attributes := node.attributes.names
    isClass := node.attributes.has .classLevel
    getter := if node.attributes.has .getter then some node.getter else none
    setter := if node.attributes.has .setter then some node.setter else none }

end PropertyNode

namespace Node

/-- What one child adds to a class. -/
inductive Member where
  | method (method : Method)
  | property (property : Property)
  | unusable (message : Text)
  | none
  deriving DecidableEq, Repr

def doc? (node : Node) : Option DocComment := node.comment.map DocComment.parse

def member (node : Node) : Member :=
  match node.kind with
  | .method isStatic decl =>
    if decl.selector.isEmpty then .unusable "method with an empty selector".toList
    else
      let method := decl.toMethod isStatic
      .method ((node.doc?.map method.withDoc).getD method)
  | .property decl =>
    if decl.name.isEmpty then .unusable "property without a name".toList
    else
      let property := decl.toProperty
      .property ((node.doc?.map property.withDoc).getD property)
  | _ => .none

def addMember (decl : ClassDecl) : Member → ClassDecl
  | .method method => decl.addMethod method
  | .property property => decl.addProperty property
  | _ => decl

/-- The warning that a child without a selector or a name leaves. -/
def complaint? (path : Text) (node : Node) : Option Diagnostic :=
  match node.member with
  | .unusable message => some (Diagnostic.atLine message path node.line)
  | _ => none

def ownChildren (node : Node) : List Node := node.children.filter (·.inMainFile)

def toClass (node : Node) (name : Text) : ClassDecl :=
  let doc := (node.doc?.map (·.description)).getD []
  (node.ownChildren.map member).foldl addMember { name := name, doc := doc }

def extracted (decl : ClassDecl) : Event :=
  { level := .trace
    message := "extracted class".toList
    fields :=
      [("class".toList, .plain decl.name),
       ("members".toList, .plain (Text.ofNat decl.memberCount))] }

/-- What an interface or a category with a class yields: its children's warnings, then the
class. -/
def classFindings (path : Text) (node : Node) (name : Text) : List Finding :=
  let decl := node.toClass name
  (node.ownChildren.filterMap (complaint? path)).map Finding.warned
    ++ [.noted (extracted decl), .declared decl]

def findings (path : Text) (node : Node) : List Finding :=
  if node.inMainFile then
    match node.kind with
    | .interface name => node.classFindings path name
    | .category className category =>
      if className.isEmpty then
        let message := "category `".toList ++ category ++ "` has no class".toList
        [.warned (Diagnostic.atLine message path node.line)]
      else node.classFindings path className
    | _ => []
  else []

/-- What the nodes at the top of a header's tree yield. -/
def findingsOf (path : Text) (nodes : List Node) : List Finding :=
  nodes.flatMap fun node => node.findings path

/-! The same with a class set at hand, which takes a warning at its child and a class behind its
children. -/

def addChild (path : Text) (state : ClassDecl × ClassLog) (node : Node) : ClassDecl × ClassLog :=
  match node.member with
  | .unusable message =>
    (state.1, state.2.take (.warned (Diagnostic.atLine message path node.line)))
  | member => (addMember state.1 member, state.2)

def extractClass (path : Text) (log : ClassLog) (node : Node) (name : Text) : ClassLog :=
  let doc := (node.doc?.map (·.description)).getD []
  let (decl, log) := node.ownChildren.foldl (addChild path) ({ name := name, doc := doc }, log)
  (log.take (.noted (extracted decl))).take (.declared decl)

def extractNode (path : Text) (log : ClassLog) (node : Node) : ClassLog :=
  if node.inMainFile then
    match node.kind with
    | .interface name => extractClass path log node name
    | .category className category =>
      if className.isEmpty then
        let message := "category `".toList ++ category ++ "` has no class".toList
        log.take (.warned (Diagnostic.atLine message path node.line))
      else extractClass path log node className
    | _ => log
  else log

/-- A class set with what the nodes at the top of a header's tree add to it. -/
def extract (path : Text) (nodes : List Node) (classes : ClassSet) : ClassLog :=
  nodes.foldl (extractNode path) ⟨classes, []⟩

end Node

end HeaderBindings
