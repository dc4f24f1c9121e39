import HeaderBindings.Text.Basic

/-!
The members of classes and what their documentation says. A selector is a base name or a sequence of
labels with a colon after each; a method is well formed if its base name is not empty and it has one
parameter per colon. A property has accessors, whose selectors attributes may override.
-/

namespace HeaderBindings

/-- What a documentation comment says: a description, a text per parameter in the order in which the
parameters are first named, and what is returned. -/
structure DocComment where
  description : Text := []
  params : List (Text × Text) := []
  returns : Text := []
  deriving DecidableEq, Repr

namespace DocComment

def param? (doc : DocComment) (name : Text) : Option Text :=
  (doc.params.find? (·.1 == name)).map (·.2)

end DocComment

structure Parameter where
  name : Text
  type : Text
  nullable : Bool := false
  doc : Text := []
  deriving DecidableEq, Repr

structure Method where
  selector : Text
  params : List Parameter := []
  returnType : Text
  returnNullable : Bool := false
  isStatic : Bool
  availability : Option Text := none
  doc : Text := []
  returnDoc : Text := []
  deriving DecidableEq, Repr

namespace Method

/-- The part of the selector before its first colon. -/
def baseName (method : Method) : Text := method.selector.takeWhile (· != ':')

def colonCount (method : Method) : Nat := method.selector.count ':'

def arity (method : Method) : Nat := method.params.length

def wellFormed (method : Method) : Bool :=
  !method.baseName.isEmpty && method.colonCount == method.arity

/-- An instance method whose base name is `init`, alone or before a capital. -/
def isInitializer (method : Method) : Bool :=
  !method.isStatic && match Text.after? "init".toList method.baseName with
    | some [] => true
    | some (c :: _) => c.isUpper
    | none => false

def describe (doc : DocComment) (param : Parameter) : Parameter :=
  match doc.param? param.name with
  | some text => { param with doc := text }
  | none => param

def withDoc (method : Method) (doc : DocComment) : Method :=
  { method with
    doc := doc.description
    returnDoc := doc.returns
    params := method.params.map (describe doc) }

/-- How a message for people names a method. -/
def signed (method : Method) : Text := (if method.isStatic then '+' else '-') :: method.selector

end Method

structure Property where
  name : Text
  type : Text
  readonly : Bool := false
  nullable : Bool := false
  attributes : List Text := []
  isClass : Bool := false
  getter : Option Text := none
  setter : Option Text := none
  availability : Option Text := none
  doc : Text := []
  deriving DecidableEq, Repr

namespace Property

/-- What stands in for a property that cannot be read. -/
def placeholder : Property := { name := [], type := "id".toList }

def getterSelector (property : Property) : Text := property.getter.getD property.name

def conventionalSetter : Text → Text
  | [] => []
  | c :: name => "set".toList ++ c.toUpper :: name ++ [':']

def setterSelector (property : Property) : Text :=
  property.setter.getD (conventionalSetter property.name)

def withDoc (property : Property) (doc : DocComment) : Property :=
  { property with doc := doc.description }

end Property

end HeaderBindings
