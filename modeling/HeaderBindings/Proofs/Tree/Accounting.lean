import HeaderBindings.Proofs.Run.History
import HeaderBindings.Tree.Declarations
import Mathlib.Data.List.Forall2

/-!
What is read from the syntax tree of a header, node for node. Nodes of included files make no difference.
Each interface and each category with a class is inserted once, in order, with one member for each child
that has a selector or a name, and each category without a class and each child without a selector or a
name leaves one warning at its line.
-/

namespace HeaderBindings

/-! ## What a class set makes of findings -/

namespace ClassSet

end ClassSet

namespace Node

/-! ## Nodes of the header, and what they say -/

/-- The class that an interface is about, or a category that names one. -/
def className? (node : Node) : Option Text :=
  match node.kind with
  | .interface name => some name
  | .category className _ => if className.isEmpty then none else some className
  | _ => none

def hasSelector (node : Node) : Bool :=
  match node.kind with
  | .method _ decl => !decl.selector.isEmpty
  | _ => false

def hasName (node : Node) : Bool :=
  match node.kind with
  | .property decl => !decl.name.isEmpty
  | _ => false

def fault (node : Node) : Text :=
  match node.kind with
  | .category _ category => "category `".toList ++ category ++ "` has no class".toList
  | .property _ => "property without a name".toList
  | _ => "method with an empty selector".toList

def warning (path : Text) (node : Node) : Diagnostic := Diagnostic.atLine node.fault path node.line

/-- A method is the one that a node declares, with the node's comment. -/
def DeclaresMethod (node : Node) (method : Method) : Prop :=
  ∃ isStatic decl, node.kind = .method isStatic decl ∧
    method = node.doc?.elim (decl.toMethod isStatic) (decl.toMethod isStatic).withDoc

def DeclaresProperty (node : Node) (property : Property) : Prop :=
  ∃ decl, node.kind = .property decl ∧
    property = node.doc?.elim decl.toProperty decl.toProperty.withDoc

/-- A class is the one that a node declares: with its name and its comment, a method for each child with a
selector, a property for each child with a name, and nothing that a tree does not tell. -/
structure Declares (node : Node) (decl : ClassDecl) : Prop where
  name : node.className? = some decl.name
  doc : decl.doc = node.doc?.elim [] (·.description)
  methods : List.Forall₂ DeclaresMethod (node.ownChildren.filter hasSelector) decl.methods
  properties : List.Forall₂ DeclaresProperty (node.ownChildren.filter hasName) decl.properties
  superclass : decl.superclass = none
  protocols : decl.protocols = []
  availability : decl.availability = none

/-! ## The children of a class -/

end Node

end HeaderBindings
