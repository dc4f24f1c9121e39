import HeaderBindings.Model.ClassDecl

/-!
Classes by name, in the order in which they are first inserted, beside the warnings met on the
way. Inserting a known name merges. A warning is about input that was skipped, with the place that
it speaks of in front of its text.
-/

namespace HeaderBindings

structure Diagnostic where
  message : Text
  path : Option Text := none
  line : Option Nat := none
  help : Option Text := none
  deriving DecidableEq, Repr

namespace Diagnostic

def atLine (message path : Text) (line : Nat) : Diagnostic :=
  { message := message, path := some path, line := some line }

def location (diagnostic : Diagnostic) : Text :=
  match diagnostic.path, diagnostic.line with
  | some path, some line => path ++ [':'] ++ Text.ofNat line ++ ": ".toList
  | some path, none => path ++ ": ".toList
  | none, _ => []

def text (diagnostic : Diagnostic) : Text := diagnostic.location ++ diagnostic.message

end Diagnostic

structure ClassSet where
  classes : List ClassDecl := []
  diagnostics : List Diagnostic := []
  deriving DecidableEq, Repr

namespace ClassSet

def empty : ClassSet := {}

def insertInto (decl : ClassDecl) : List ClassDecl → List ClassDecl
  | [] => [decl]
  | known :: later =>
    if known.name = decl.name then known.merge decl :: later
    else known :: insertInto decl later

def insert (set : ClassSet) (decl : ClassDecl) : ClassSet :=
  { set with classes := insertInto decl set.classes }

def warn (set : ClassSet) (diagnostic : Diagnostic) : ClassSet :=
  { set with diagnostics := set.diagnostics ++ [diagnostic] }

def get? (set : ClassSet) (name : Text) : Option ClassDecl :=
  set.classes.find? (·.name == name)

def contains (set : ClassSet) (name : Text) : Bool := (set.get? name).isSome

def names (set : ClassSet) : List Text := set.classes.map (·.name)

def size (set : ClassSet) : Nat := set.classes.length

end ClassSet

end HeaderBindings
