import HeaderBindings.Script.Writer
import HeaderBindings.Model.ClassSet
import HeaderBindings.Event

/-!
The module generated for a class: imports of the bridge and of the parent's module, the class and
its members. A class extends its parent where the parent is another class of the same set.
-/

namespace HeaderBindings

structure ScriptModule where
  className : Text
  bridge : Text
  parent : Option Text
  doc : DocBlock
  members : List ScriptMember
  deriving DecidableEq, Repr

namespace ScriptModule

def importLine (names source : Text) : ScriptLine :=
  ⟨0, "import \x7b ".toList ++ names ++ " \x7d from \"".toList ++ source ++ "\";".toList⟩

def headLines (module : ScriptModule) : List ScriptLine :=
  [⟨0, "// Generated by veneer from `".toList ++ module.className ++ "`. Do not edit.".toList⟩,
   importLine "NativeObject, allocate, invoke".toList module.bridge]
    ++ (module.parent.map fun parent => importLine parent ("./".toList ++ parent)).toList
    ++ [⟨0, []⟩]

def classLine (module : ScriptModule) : ScriptLine :=
  ⟨0, "export class ".toList ++ module.className ++ " extends ".toList
    ++ module.parent.getD "NativeObject".toList ++ " \x7b".toList⟩

def lines (module : ScriptModule) : List ScriptLine :=
  module.headLines ++ module.doc.lines 0 ++ [module.classLine]
    ++ ScriptMember.allLines module.members ++ [⟨0, ['\x7d']⟩]

def write (lines : List ScriptLine) : Text := lines.flatMap ScriptLine.written

def source (module : ScriptModule) : Text := write module.lines

def fileNameOf (className : Text) : Text := className ++ ".ts".toList

def defaultBridge : Text := "../bridge".toList

end ScriptModule

namespace ClassDecl

def docBlock (decl : ClassDecl) : DocBlock :=
  (if decl.doc.isEmpty then [] else [decl.doc])
    ++ (decl.availability.map ("@since ".toList ++ ·)).toList

/-- The parent, if it is another class of a set. -/
def parentIn (decl : ClassDecl) (classes : ClassSet) : Option Text :=
  decl.parent.filter fun parent => parent != decl.name && classes.contains parent

def scriptModule (decl : ClassDecl) (bridge : Text) (classes : ClassSet) : ScriptModule :=
  { className := decl.name
    bridge := bridge
    parent := decl.parentIn classes
    doc := decl.docBlock
    members := decl.scriptMembers }

/-- The members of a class without the module around them. -/
def membersText (decl : ClassDecl) : Text :=
  (({ indent := 1 } : ClassWriter).writeMembers decl).output

end ClassDecl

/-- A module as it goes into a file, with warnings about methods that were left out. -/
structure GeneratedFile where
  className : Text
  fileName : Text
  source : Text
  diagnostics : List Diagnostic
  deriving DecidableEq, Repr

namespace GeneratedFile

/-- The module of a class, written from its first line to its last one. -/
def ofClass (bridge : Text) (classes : ClassSet) (decl : ClassDecl) : GeneratedFile :=
  let module := decl.scriptModule bridge classes
  let top := module.headLines.foldl (fun writer line => writer.writeLine line.text) ({} : ClassWriter)
  let head := (top.writeDoc decl.docBlock).writeLine module.classLine.text
  let whole := (head.indented (·.writeMembers decl)).writeLine ['\x7d']
  { className := decl.name
    fileName := ScriptModule.fileNameOf decl.name
    source := whole.output
    diagnostics := whole.diagnostics }

end GeneratedFile

namespace Method

/-- The class that a method on its own is taken to be a member of. -/
def inlineClass (method : Method) : ClassDecl := { name := "Inline".toList, methods := [method] }

def inlineMember (method : Method) : Text := method.inlineClass.membersText

end Method

end HeaderBindings
