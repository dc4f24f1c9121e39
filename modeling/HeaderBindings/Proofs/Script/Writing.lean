import HeaderBindings.Script.Module

/-!
What a writer adds to its text. A step of it adds lines at its depth, members add their lines with an empty
line before each but the first one, and neither depends on what has been written above. So a module is the
lines of its head, its members and its end, and the same members stand on their own.
-/

namespace HeaderBindings

namespace ClassWriter

section Lines

/-- A step of a writer that adds lines and nothing else. -/
structure Adds (before after : ClassWriter) (lines : List ScriptLine) : Prop where
  output : after.output = before.output ++ ScriptModule.write lines
  indent : after.indent = before.indent
  wroteMember : after.wroteMember = before.wroteMember
  diagnostics : after.diagnostics = before.diagnostics

variable {before between after writer : ClassWriter}

theorem Adds.nothing (writer : ClassWriter) : Adds writer writer [] :=
  ⟨by simp [ScriptModule.write], rfl, rfl, rfl⟩

theorem Adds.andThen {first later : List ScriptLine} (one : Adds before between first)
    (two : Adds between after later) : Adds before after (first ++ later) where
  output := by
    rw [two.output, one.output, ScriptModule.write, ScriptModule.write, ScriptModule.write,
      List.flatMap_append, List.append_assoc]
  indent := two.indent.trans one.indent
  wroteMember := two.wroteMember.trans one.wroteMember
  diagnostics := two.diagnostics.trans one.diagnostics

theorem adds_writeLine (writer : ClassWriter) (text : Text) :
    Adds writer (writer.writeLine text) [⟨writer.indent, text⟩] :=
  ⟨by simp [writeLine, ScriptModule.write], rfl, rfl, rfl⟩

/-- Steps at one depth, one after another. -/
theorem adds_foldl {α : Type} (step : ClassWriter → α → ClassWriter) (lines : α → List ScriptLine)
    (depth : Nat)
    (adds : ∀ writer : ClassWriter, writer.indent = depth → ∀ item, Adds writer (step writer item) (lines item))
    (items : List α) (writer : ClassWriter) (here : writer.indent = depth) :
    Adds writer (items.foldl step writer) (items.flatMap lines) := by
  induction items generalizing writer with
  | nil => exact Adds.nothing writer
  | cons item items ih =>
    have first := adds writer here item
    exact first.andThen (ih (step writer item) (first.indent.trans here))

theorem adds_indented (write : ClassWriter → ClassWriter) {lines : List ScriptLine}
    (adds : Adds { writer with indent := writer.indent + 1 }
      (write { writer with indent := writer.indent + 1 }) lines) :
    Adds writer (writer.indented write) lines where
  output := adds.output
  indent := by simp [indented, adds.indent]
  wroteMember := adds.wroteMember
  diagnostics := adds.diagnostics

theorem adds_braced (writer : ClassWriter) (head : Text) (write : ClassWriter → ClassWriter) {lines : List ScriptLine}
    (adds : ∀ inside : ClassWriter, inside.indent = writer.indent + 1 → Adds inside (write inside) lines) :
    Adds writer (writer.braced head write)
      ([⟨writer.indent, head ++ " \x7b".toList⟩] ++ lines ++ [⟨writer.indent, ['\x7d']⟩]) := by
  have opened := adds_writeLine writer (head ++ " \x7b".toList)
  have inner : Adds (writer.writeLine (head ++ " \x7b".toList)) _ lines :=
    adds_indented write (adds _ rfl)
  have both := opened.andThen inner
  have closed := adds_writeLine ((writer.writeLine (head ++ " \x7b".toList)).indented write) ['\x7d']
  rw [both.indent] at closed
  exact both.andThen closed

theorem adds_writeDoc (writer : ClassWriter) (block : DocBlock) :
    Adds writer (writer.writeDoc block) (block.lines writer.indent) := by
  unfold writeDoc DocBlock.lines
  split
  · exact Adds.nothing writer
  · have opened := adds_writeLine writer "/**".toList
    have entries := adds_foldl writeEntry (fun entry => [⟨writer.indent, " * ".toList ++ DocBlock.escape entry⟩])
      writer.indent (fun inside here entry => here ▸ adds_writeLine inside _) block
      (writer.writeLine "/**".toList) rfl
    have both := opened.andThen entries
    have closed := adds_writeLine (block.foldl writeEntry (writer.writeLine "/**".toList)) " */".toList
    rw [both.indent] at closed
    rw [List.map_eq_flatMap]
    exact both.andThen closed

end Lines

section Members

variable {writer : ClassWriter}

theorem adds_writeBlock (inside : writer.indent = 1) (doc : DocBlock) (head : Text) (body : Statement) :
    Adds writer (writer.writeBlock doc head body) (ScriptMember.block doc head body) := by
  have documented := adds_writeDoc writer doc
  have braced := adds_braced (writer.writeDoc doc) head (·.writeLine body.text) fun inside here =>
    here ▸ adds_writeLine inside body.text
  rw [documented.indent] at braced
  have whole := documented.andThen braced
  rw [inside] at whole
  exact whole

theorem adds_writeSignature (inside : writer.indent = 1) (overload : Overload) :
    Adds writer (writer.writeSignature overload) overload.signatureLines := by
  have documented := adds_writeDoc writer overload.doc
  have signature := adds_writeLine (writer.writeDoc overload.doc) (overload.signature.text ++ [';'])
  rw [documented.indent] at signature
  have both := documented.andThen signature
  rw [inside] at both
  exact both

theorem adds_writeBranch (inside : writer.indent = 2) (overload : Overload) :
    Adds writer (writer.writeBranch overload) overload.branchLines := by
  have body (writer : ClassWriter) (here : writer.indent = 3) : Adds writer
      (if overload.body.leaves then writer.writeLine overload.body.text
        else (writer.writeLine overload.body.text).writeLine "return;".toList)
      ([⟨3, overload.body.text⟩] ++ if overload.body.leaves then [] else [⟨3, "return;".toList⟩]) := by
    have first := adds_writeLine writer overload.body.text
    rw [here] at first
    split
    · simpa using first
    · have last := adds_writeLine (writer.writeLine overload.body.text) "return;".toList
      rw [first.indent, here] at last
      exact first.andThen last
  have braced := adds_braced writer ("if (args.length === ".toList ++ Text.ofNat overload.arity ++ [')'])
    _ fun deeper here => body deeper (here.trans (congrArg (· + 1) inside))
  rw [inside, List.append_assoc _ [')'] _] at braced
  exact braced

theorem adds_writeDispatch (inside : writer.indent = 1) (dispatch : Dispatch) :
    Adds writer (writer.writeDispatch dispatch) dispatch.lines := by
  have signatures := adds_foldl writeSignature Overload.signatureLines 1
    (fun _ here overload => adds_writeSignature here overload) dispatch.overloads writer inside
  have here := signatures.indent.trans inside
  have body (writer : ClassWriter) (deep : writer.indent = 2) : Adds writer
      ((dispatch.overloads.foldl writeBranch (writer.writeLine dispatch.gathering)).writeLine
        dispatch.failure)
      ([⟨2, dispatch.gathering⟩] ++ dispatch.overloads.flatMap Overload.branchLines ++
        [⟨2, dispatch.failure⟩]) := by
    have gathers := adds_writeLine writer dispatch.gathering
    have branches := adds_foldl writeBranch Overload.branchLines 2
      (fun _ deep overload => adds_writeBranch deep overload) dispatch.overloads
      (writer.writeLine dispatch.gathering) deep
    have both := gathers.andThen branches
    have fails := adds_writeLine
      (dispatch.overloads.foldl writeBranch (writer.writeLine dispatch.gathering)) dispatch.failure
    rw [both.indent] at fails
    have whole := both.andThen fails
    rwa [deep] at whole
  have braced := adds_braced (dispatch.overloads.foldl writeSignature writer) dispatch.head _
    fun inside deeper => body inside (deeper.trans (congrArg (· + 1) here))
  have whole := signatures.andThen braced
  rw [here] at whole
  simpa [writeDispatch, Dispatch.lines, Dispatch.implementationLines] using whole

/-- A member is written as its lines. -/
theorem adds_writeMember (inside : writer.indent = 1) (member : ScriptMember) :
    Adds writer (writer.writeMember member) member.lines := by
  cases member with
  | getter doc isStatic name type call => exact adds_writeBlock inside doc _ _
  | setter doc isStatic name type call => exact adds_writeBlock inside doc _ _
  | function doc signature body => exact adds_writeBlock inside doc _ _
  | overloaded dispatch => exact adds_writeDispatch inside dispatch
  | incomplete isStatic name =>
    have line := adds_writeLine writer (ScriptMember.marker ++ [' '] ++ staticPart isStatic ++ name)
    rwa [inside] at line

end Members

section Bodies

/-- The lines of members below others, if there are any: an empty line stands before each but the first. -/
def linesBelow (wrote : Bool) : List ScriptMember → List ScriptLine
  | [] => []
  | member :: members =>
    (if wrote then [⟨1, []⟩] else []) ++ member.lines ++ linesBelow true members

theorem linesBelow_append (wrote : Bool) (first later : List ScriptMember) :
    linesBelow wrote (first ++ later) =
      linesBelow wrote first ++ linesBelow (wrote || !first.isEmpty) later := by
  induction first generalizing wrote with
  | nil => simp [linesBelow]
  | cons member first ih => simp [linesBelow, ih]

theorem linesBelow_false (members : List ScriptMember) :
    linesBelow false members = ScriptMember.allLines members := by
  induction members using ScriptMember.allLines.induct with
  | case1 => rfl
  | case2 member => simp [linesBelow, ScriptMember.allLines]
  | case3 member next later ih =>
    rw [ScriptMember.allLines, ← ih]
    simp [linesBelow]

/-- A step of a writer that adds members and nothing else. -/
structure AddsMembers (before after : ClassWriter) (members : List ScriptMember) : Prop where
  output : after.output =
    before.output ++ ScriptModule.write (linesBelow before.wroteMember members)
  indent : after.indent = before.indent
  wroteMember : after.wroteMember = (before.wroteMember || !members.isEmpty)
  diagnostics : after.diagnostics = before.diagnostics

variable {before between after writer : ClassWriter}

theorem AddsMembers.nothing (writer : ClassWriter) : AddsMembers writer writer [] :=
  ⟨by simp [linesBelow, ScriptModule.write], rfl, by simp, rfl⟩

theorem AddsMembers.andThen {first later : List ScriptMember} (one : AddsMembers before between first)
    (two : AddsMembers between after later) : AddsMembers before after (first ++ later) where
  output := by
    rw [two.output, one.output, one.wroteMember, linesBelow_append, ScriptModule.write,
      ScriptModule.write, ScriptModule.write, List.flatMap_append, List.append_assoc]
  indent := two.indent.trans one.indent
  wroteMember := by
    rw [two.wroteMember, one.wroteMember]
    cases first <;> simp
  diagnostics := two.diagnostics.trans one.diagnostics

theorem beginMember_eq (inside : writer.indent = 1) : writer.beginMember =
    { writer with
      output := writer.output ++ ScriptModule.write (if writer.wroteMember then [⟨1, []⟩] else [])
      wroteMember := true } := by
  unfold beginMember
  cases writer.wroteMember <;> simp [writeLine, ScriptModule.write, inside]

theorem addsMembers_writeNext (inside : writer.indent = 1) (member : ScriptMember) :
    AddsMembers writer (writer.writeNext member) [member] := by
  have begun := beginMember_eq inside
  have depth : writer.beginMember.indent = 1 := by rw [begun, inside]
  have adds := adds_writeMember depth member
  rw [begun] at adds
  constructor
  · rw [writeNext, begun, adds.output]
    simp [linesBelow, ScriptModule.write]
  · rw [writeNext, begun, adds.indent]
  · rw [writeNext, begun, adds.wroteMember]
    simp
  · rw [writeNext, begun, adds.diagnostics]

/-- Below a member that has been written an empty line is written by hand as well. -/
theorem addsMembers_below (inside : writer.indent = 1) (wrote : writer.wroteMember = true)
    (members : List ScriptMember) :
    AddsMembers writer
      (members.foldl (fun writer member => (writer.writeLine []).writeMember member) writer) members := by
  induction members generalizing writer with
  | nil => exact AddsMembers.nothing writer
  | cons member members ih =>
    have same : (writer.writeLine []).writeMember member = writer.writeNext member := by
      simp [writeNext, beginMember, wrote, writeLine]
    have first := addsMembers_writeNext inside member
    have later := ih (first.indent.trans inside) (by simp [first.wroteMember])
    rw [List.foldl_cons, same]
    exact first.andThen later

theorem addsMembers_foldl {α : Type} (step : ClassWriter → α → ClassWriter)
    (members : α → List ScriptMember)
    (adds : ∀ writer : ClassWriter, writer.indent = 1 → ∀ item,
      AddsMembers writer (step writer item) (members item))
    (items : List α) (writer : ClassWriter) (inside : writer.indent = 1) :
    AddsMembers writer (items.foldl step writer) (items.flatMap members) := by
  induction items generalizing writer with
  | nil => exact AddsMembers.nothing writer
  | cons item items ih =>
    have first := adds writer inside item
    exact first.andThen (ih (step writer item) (first.indent.trans inside))

theorem addsMembers_writeProperty (inside : writer.indent = 1) (className : Text) (property : Property) :
    AddsMembers writer (writeProperty className writer property) (property.members className) := by
  unfold writeProperty
  cases property.members className with
  | nil => exact AddsMembers.nothing writer
  | cons getter setter? =>
    have first := addsMembers_writeNext inside getter
    exact first.andThen
      (addsMembers_below (first.indent.trans inside) (by simp [first.wroteMember]) setter?)

/-- Warnings leave the text as it is. -/
theorem foldl_warnOfDrop (className : Text) (drops : List (Entry × DropReason))
    (writer : ClassWriter) : drops.foldl (warnOfDrop className) writer =
      { writer with
        diagnostics := writer.diagnostics ++ (drops.filter (·.2.isWarning)).map fun drop =>
          { message := MemberPlan.dropMessage className drop } } := by
  induction drops generalizing writer with
  | nil => simp
  | cons drop drops ih =>
    rw [List.foldl_cons, ih]
    cases warns : drop.2.isWarning <;> simp [warnOfDrop, warns]

/-- All members of a class are added, whatever has been written above, and the methods that are left out are
warned of. -/
theorem writeMembers_adds (inside : writer.indent = 1) (decl : ClassDecl) :
    AddsMembers
      { writer with
        diagnostics := writer.diagnostics ++ (MemberPlan.ofClass decl).diagnostics decl.name }
      (writer.writeMembers decl) decl.scriptMembers := by
  let plan := MemberPlan.ofClass decl
  let drops := plan.diagnostics decl.name
  have properties := addsMembers_foldl (writeProperty decl.name) (·.members decl.name)
    (fun _ inside property => addsMembers_writeProperty inside decl.name property) decl.properties
    writer inside
  generalize written : decl.properties.foldl (writeProperty decl.name) writer = first at properties
  -- The warnings come behind the properties and say nothing of them.
  have warned : AddsMembers { writer with diagnostics := writer.diagnostics ++ drops }
      (plan.dropped.foldl (warnOfDrop decl.name) first)
      (decl.properties.flatMap (·.members decl.name)) := by
    rw [foldl_warnOfDrop]
    exact ⟨properties.output, properties.indent, properties.wroteMember,
      congrArg (· ++ drops) properties.diagnostics⟩
  have each {α : Type} (member : α → ScriptMember) (items : List α) {before : ClassWriter}
      (inside : before.indent = 1) : AddsMembers before
        (items.foldl (fun writer item => writer.writeNext (member item)) before) (items.map member) := by
    rw [List.map_eq_flatMap]
    exact addsMembers_foldl _ (fun item => [member item])
      (fun _ inside item => addsMembers_writeNext inside (member item)) items before inside
  have setters := warned.andThen (each SetterAccessor.member plan.setters (warned.indent.trans inside))
  have groups := setters.andThen
    (each (OverloadGroup.member decl.name) plan.groups (setters.indent.trans inside))
  have whole := groups.andThen (each (fun entry : Entry =>
    .incomplete entry.method.isStatic (Identifier.sanitize entry.method.baseName)) plan.incomplete
    (groups.indent.trans inside))
  simpa only [writeMembers, written, ClassDecl.scriptMembers, MemberPlan.members, List.append_assoc]
    using whole

end Bodies

end ClassWriter

/-! ## Both ways in -/

theorem ClassDecl.membersText_eq (decl : ClassDecl) :
    decl.membersText = ScriptModule.write (ScriptMember.allLines decl.scriptMembers) := by
  have adds : ClassWriter.AddsMembers _ (({ indent := 1 } : ClassWriter).writeMembers decl) _ :=
    ClassWriter.writeMembers_adds rfl decl
  rw [ClassDecl.membersText, adds.output, ClassWriter.linesBelow_false]
  rfl

/-- The members of a class inside of its module are the members on their own. -/
theorem ClassWriter.body_eq (top : ClassWriter) (margin : top.indent = 0)
    (fresh : top.wroteMember = false) (decl : ClassDecl) :
    let whole := (top.indented (·.writeMembers decl)).writeLine ['\x7d']
    whole.output = top.output ++ decl.membersText ++ ScriptModule.write [⟨0, ['\x7d']⟩] ∧
      whole.diagnostics = top.diagnostics ++ (MemberPlan.ofClass decl).diagnostics decl.name := by
  intro whole
  have deeper : ({ top with indent := top.indent + 1 } : ClassWriter).indent = 1 := by rw [margin]
  have members := writeMembers_adds deeper decl
  have back : (top.indented (·.writeMembers decl)).indent = 0 := by
    rw [indented, members.indent, deeper]
  constructor
  · rw [decl.membersText_eq, ← linesBelow_false, ← fresh]
    simp only [whole, writeLine, back]
    rw [indented, members.output]
    simp [ScriptModule.write]
  · exact members.diagnostics

namespace GeneratedFile

open ClassWriter

/-- What stands above the members of a class is written at the margin. -/
theorem adds_head (module : ScriptModule) (doc : DocBlock) :
    let top := module.headLines.foldl (fun writer line => writer.writeLine line.text) ({} : ClassWriter)
    Adds {} ((top.writeDoc doc).writeLine module.classLine.text)
      (module.headLines ++ doc.lines 0 ++ [module.classLine]) := by
  intro top
  have margin : module.headLines.flatMap (fun line => [⟨0, line.text⟩]) = module.headLines := by
    cases parent : module.parent <;> simp [ScriptModule.headLines, ScriptModule.importLine, parent]
  have lines : Adds {} top (module.headLines.flatMap fun line => [⟨0, line.text⟩]) :=
    adds_foldl _ _ 0 (fun writer here line => here ▸ adds_writeLine writer line.text) _ _ rfl
  rw [margin] at lines
  have documented := adds_writeDoc top doc
  rw [lines.indent] at documented
  have both := lines.andThen documented
  have opened := adds_writeLine (top.writeDoc doc) module.classLine.text
  rw [both.indent] at opened
  exact both.andThen opened

/-- Between the lines above them and the end of the class stand the members as they stand on their own. -/
theorem source_of_members (bridge : Text) (classes : ClassSet) (decl : ClassDecl) :
    let module := decl.scriptModule bridge classes
    (ofClass bridge classes decl).source =
      ScriptModule.write (module.headLines ++ decl.docBlock.lines 0 ++ [module.classLine])
        ++ decl.membersText ++ ScriptModule.write [⟨0, ['\x7d']⟩] := by
  intro module
  have head := adds_head module decl.docBlock
  have body := (body_eq _ head.indent head.wroteMember decl).1
  rw [head.output] at body
  exact body

theorem source_ofClass (bridge : Text) (classes : ClassSet) (decl : ClassDecl) :
    (ofClass bridge classes decl).source = (decl.scriptModule bridge classes).source := by
  rw [source_of_members, decl.membersText_eq, ScriptModule.source, ScriptModule.lines]
  simp [ScriptModule.write, ClassDecl.scriptModule]

theorem diagnostics_ofClass (bridge : Text) (classes : ClassSet) (decl : ClassDecl) :
    (ofClass bridge classes decl).diagnostics = (MemberPlan.ofClass decl).diagnostics decl.name := by
  have head := adds_head (decl.scriptModule bridge classes) decl.docBlock
  have body := (body_eq _ head.indent head.wroteMember decl).2
  rw [head.diagnostics] at body
  exact body

end GeneratedFile

end HeaderBindings
