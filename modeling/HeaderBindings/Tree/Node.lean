import HeaderBindings.Text.Basic

/-!
The part of a header's syntax tree that declarations are read from. A node knows its line and
whether it stands in the header itself or in a file that the header includes.
-/

namespace HeaderBindings

inductive Nullability where
  | unspecified
  | nullable
  | nonnull
  deriving DecidableEq, Repr

/-- A type as it is spelled, with the nullability that an annotation gives it. -/
structure SpelledType where
  spelling : Text
  nullability : Nullability := .unspecified
  deriving DecidableEq, Repr

/-- The attributes of a property, each a bit of one word. -/
inductive Attribute where
  | readonly | getter | assign | readwrite | retain | copy | nonatomic
  | setter | atomic | weak | strong | unsafeUnretained | classLevel
  deriving DecidableEq, Repr

namespace Attribute

def bit : Attribute → Nat
  | readonly => 0
  | getter => 1
  | assign => 2
  | readwrite => 3
  | retain => 4
  | copy => 5
  | nonatomic => 6
  | setter => 7
  | atomic => 8
  | weak => 9
  | strong => 10
  | unsafeUnretained => 11
  | classLevel => 12

/-- The attributes that are listed by name, in the order in which they are listed. -/
def named : List (Attribute × Text) :=
  [(classLevel, "class".toList), (nonatomic, "nonatomic".toList), (atomic, "atomic".toList),
   (readonly, "readonly".toList), (readwrite, "readwrite".toList), (assign, "assign".toList),
   (retain, "retain".toList), (strong, "strong".toList), (weak, "weak".toList),
   (copy, "copy".toList), (unsafeUnretained, "unsafe_unretained".toList)]

end Attribute

structure AttributeWord where
  word : Nat
  deriving DecidableEq, Repr

namespace AttributeWord

def has (attributes : AttributeWord) (wanted : Attribute) : Bool :=
  attributes.word.testBit wanted.bit

def names (attributes : AttributeWord) : List Text :=
  (Attribute.named.filter (attributes.has ·.1)).map (·.2)

end AttributeWord

structure MethodNode where
  selector : Text
  returnType : SpelledType
  params : List (Text × SpelledType)
  deriving DecidableEq, Repr

structure PropertyNode where
  name : Text
  type : SpelledType
  attributes : AttributeWord
  getter : Text
  setter : Text
  deriving DecidableEq, Repr

inductive NodeKind where
  | interface (name : Text)
  | category (className category : Text)
  | classRef (name : Text)
  | method (isStatic : Bool) (decl : MethodNode)
  | property (decl : PropertyNode)
  | other
  deriving DecidableEq, Repr

structure Node where
  kind : NodeKind
  line : Nat
  inMainFile : Bool
  comment : Option Text
  children : List Node

end HeaderBindings
