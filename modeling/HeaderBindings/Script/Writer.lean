import HeaderBindings.Model.ClassSet
import HeaderBindings.Script.Members

/-!
Writing the members of a class. A writer goes along with the text so far, the depth that it writes at and
whether it has written a member: an empty line stands before every member but the first one. It does not
look at what stands above the members.
-/

namespace HeaderBindings

structure ClassWriter where
  output : Text := []
  indent : Nat := 0
  wroteMember : Bool := false
  diagnostics : List Diagnostic := []
  deriving DecidableEq, Repr

namespace ClassWriter

def writeLine (writer : ClassWriter) (line : Text) : ClassWriter :=
  { writer with output := writer.output ++ ScriptLine.written ⟨writer.indent, line⟩ }

/-- What is written inside stands one step deeper. -/
def indented (writer : ClassWriter) (write : ClassWriter → ClassWriter) : ClassWriter :=
  let inside := write { writer with indent := writer.indent + 1 }
  { inside with indent := inside.indent - 1 }

def braced (writer : ClassWriter) (head : Text) (write : ClassWriter → ClassWriter) : ClassWriter :=
  ((writer.writeLine (head ++ " \x7b".toList)).indented write).writeLine ['\x7d']

def writeEntry (writer : ClassWriter) (entry : Text) : ClassWriter :=
  writer.writeLine (" * ".toList ++ DocBlock.escape entry)

def writeDoc (writer : ClassWriter) (block : DocBlock) : ClassWriter :=
  if block.isEmpty then writer
  else (block.foldl writeEntry (writer.writeLine "/**".toList)).writeLine " */".toList

/-! One member. -/

def writeSignature (writer : ClassWriter) (overload : Overload) : ClassWriter :=
  (writer.writeDoc overload.doc).writeLine (overload.signature.text ++ [';'])

def writeBranch (writer : ClassWriter) (overload : Overload) : ClassWriter :=
  let head := "if (args.length === ".toList ++ Text.ofNat overload.arity ++ [')']
  writer.braced head fun writer =>
    let writer := writer.writeLine overload.body.text
    if overload.body.leaves then writer else writer.writeLine "return;".toList

def writeDispatch (writer : ClassWriter) (dispatch : Dispatch) : ClassWriter :=
  (dispatch.overloads.foldl writeSignature writer).braced dispatch.head fun writer =>
    (dispatch.overloads.foldl writeBranch (writer.writeLine dispatch.gathering)).writeLine
      dispatch.failure

def writeBlock (writer : ClassWriter) (doc : DocBlock) (head : Text) (body : Statement) : ClassWriter :=
  (writer.writeDoc doc).braced head (·.writeLine body.text)

def writeMember (writer : ClassWriter) : ScriptMember → ClassWriter
  | .getter doc isStatic name type call =>
    writer.writeBlock doc (staticPart isStatic ++ "get ".toList ++ name ++ "(): ".toList ++ type.text)
      (.giveBack call type)
  | .setter doc isStatic name type call =>
    writer.writeBlock doc
      (staticPart isStatic ++ "set ".toList ++ name ++ "(value: ".toList ++ type.text ++ [')'])
      (.perform call)
  | .function doc signature body => writer.writeBlock doc signature.text body
  | .overloaded dispatch => writer.writeDispatch dispatch
  | .incomplete isStatic name =>
    writer.writeLine (ScriptMember.marker ++ [' '] ++ staticPart isStatic ++ name)

/-! All members. -/

def beginMember (writer : ClassWriter) : ClassWriter :=
  { (if writer.wroteMember then writer.writeLine [] else writer) with wroteMember := true }

def writeNext (writer : ClassWriter) (member : ScriptMember) : ClassWriter :=
  writer.beginMember.writeMember member

/-- The setter of a property stands below its getter, whatever has been written before. -/
def writeProperty (className : Text) (writer : ClassWriter) (property : Property) : ClassWriter :=
  match property.members className with
  | [] => writer
  | getter :: setter? =>
    setter?.foldl (fun writer setter => (writer.writeLine []).writeMember setter)
      (writer.writeNext getter)

def warnOfDrop (className : Text) (writer : ClassWriter) (drop : Entry × DropReason) : ClassWriter :=
  if drop.2.isWarning then
    { writer with
      diagnostics := writer.diagnostics ++ [{ message := MemberPlan.dropMessage className drop }] }
  else writer

def writeMembers (writer : ClassWriter) (decl : ClassDecl) : ClassWriter :=
  let plan := MemberPlan.ofClass decl
  let writer := decl.properties.foldl (writeProperty decl.name) writer
  let writer := plan.dropped.foldl (warnOfDrop decl.name) writer
  let writer := plan.setters.foldl (fun writer setter => writer.writeNext setter.member) writer
  let writer :=
    plan.groups.foldl (fun writer group => writer.writeNext (group.member decl.name)) writer
  plan.incomplete.foldl (fun writer entry => writer.writeNext
    (.incomplete entry.method.isStatic (Identifier.sanitize entry.method.baseName))) writer

end ClassWriter

end HeaderBindings
