import HeaderBindings.Model.Member

/-!
Classes, gathered from any number of declarations of one name. Protocols are adopted once each,
in the order in which they are first named.
-/

namespace HeaderBindings

structure ClassDecl where
  name : Text
  superclass : Option Text := none
  protocols : List Text := []
  properties : List Property := []
  methods : List Method := []
  doc : Text := []
  availability : Option Text := none
  deriving DecidableEq, Repr

namespace ClassDecl

/-- The superclasses that every class has in the end. -/
def rootClasses : List Text := ["NSObject".toList, "NSProxy".toList]

/-- The superclass, unless it is a root class. -/
def parent (decl : ClassDecl) : Option Text :=
  decl.superclass.filter (!rootClasses.contains ·)

def property? (decl : ClassDecl) (name : Text) : Option Property :=
  decl.properties.find? (·.name == name)

def memberCount (decl : ClassDecl) : Nat := decl.properties.length + decl.methods.length

def conform (decl : ClassDecl) (protocols : List Text) : ClassDecl :=
  { decl with protocols := adopt decl.protocols protocols }

def addProperty (decl : ClassDecl) (property : Property) : ClassDecl :=
  { decl with properties := decl.properties ++ [property] }

def addMethod (decl : ClassDecl) (method : Method) : ClassDecl :=
  { decl with methods := decl.methods ++ [method] }

/-- The earlier declaration keeps what it says of the class itself; members are appended. -/
def merge (earlier later : ClassDecl) : ClassDecl :=
  { name := earlier.name
    superclass := earlier.superclass.or later.superclass
    protocols := adopt earlier.protocols later.protocols
    properties := earlier.properties ++ later.properties
    methods := earlier.methods ++ later.methods
    doc := if earlier.doc.isEmpty then later.doc else earlier.doc
    availability := earlier.availability.or later.availability }

end ClassDecl

end HeaderBindings
