import HeaderBindings.Proofs.Script.Spelling
import HeaderBindings.Proofs.Script.Writing
import HeaderBindings.Proofs.Text.Occurrences

/-!
Documentation in generated modules. A module is code and blocks of documentation in turn; each block is
one comment, which ends where its only end mark stands, whatever the documentation says.
-/

namespace HeaderBindings

/-- A comment with one end mark, at its very end. -/
structure Text.IsComment (comment : Text) : Prop where
  opens : "/**".toList <+: comment
  closes : ['*', '/'] <:+ comment
  once : occurrences ['*', '/'] comment = 1

namespace DocBlock

section Escaping

theorem head_escape (text : Text) : (escape text).head? = text.head? := by
  unfold escape
  split <;> rfl

-- A comment ends nowhere in an escaped text.
theorem escape_free (text : Text) : ¬ ['*', '/'] <:+: escape text := by
  induction text using escape.induct with
  | case1 text ih =>
    simp only [escape, List.infix_cons_iff, List.cons_prefix_cons]
    simp [ih]
  | case2 c text other ih =>
    rw [escape.eq_2 c text other, List.infix_cons_iff, List.cons_prefix_cons]
    rintro (⟨rfl, rest, slash⟩ | later)
    · have head := head_escape text
      rw [← slash] at head
      cases text with
      | nil => cases head
      | cons d text =>
        cases head
        exact other text rfl rfl
    · exact ih later
  | case3 => simp [escape]

end Escaping

section Comments

def indent (depth : Nat) : Text := List.replicate (2 * depth) ' '

/-- An entry as it is written, with its line feed. -/
def entryText (depth : Nat) (entry : Text) : Text :=
  indent depth ++ " * ".toList ++ escape entry ++ ['\n']

/-- What a block is written as, from its opening to its end mark. -/
def comment (depth : Nat) (block : DocBlock) : Text :=
  "/**\n".toList ++ block.flatMap (entryText depth) ++ indent depth ++ " */".toList

theorem write_lines (depth : Nat) (block : DocBlock) (written : block ≠ []) :
    ScriptModule.write (block.lines depth) = indent depth ++ block.comment depth ++ ['\n'] := by
  have full : block.isEmpty = false := by simpa using written
  have entries : ScriptModule.write (block.map fun entry => ⟨depth, " * ".toList ++ escape entry⟩) =
      block.flatMap (entryText depth) := by
    rw [ScriptModule.write, List.flatMap_map]
    refine congrArg (List.flatMap · block) (funext fun entry => ?_)
    simp [entryText, indent, ScriptLine.written]
  rw [lines, full, if_neg Bool.false_ne_true, write_append, write_append, entries]
  simp [comment, indent, ScriptModule.write, ScriptLine.written]

theorem occurrences_indent (depth : Nat) : Text.occurrences ['*', '/'] (indent depth) = 0 := by
  have free : '*' ∉ indent depth := by simp [indent]
  exact Text.occurrences_eq_zero List.mem_cons_self free

theorem head_indent (depth : Nat) : (indent depth).head? ≠ some '/' := by
  intro head
  have blank := List.eq_of_mem_replicate (List.mem_of_head? head)
  cases blank

-- Neither the star in front of an entry nor what stands around it makes an end mark with it.
theorem occurrences_entryText (depth : Nat) (entry : Text) :
    Text.occurrences ['*', '/'] (entryText depth entry) = 0 := by
  have star : Text.occurrences ['*', '/'] " * ".toList = 0 := by decide
  have feed : Text.occurrences ['*', '/'] ['\n'] = 0 := by decide
  have inside := (Text.occurrences_eq_zero_iff _ _).mpr (escape_free entry)
  rw [entryText, Text.occurrences_append _ ['\n'] (by simp),
    Text.occurrences_append _ (escape entry) (by simp),
    Text.occurrences_append (indent depth) _ (by simp), occurrences_indent, star, inside, feed]

theorem occurrences_entries (depth : Nat) (block : DocBlock) :
    Text.occurrences ['*', '/'] (block.flatMap (entryText depth)) = 0 := by
  induction block with
  | nil => rfl
  | cons entry block ih =>
    have last : (entryText depth entry).getLast? = some '\n' := List.getLast?_concat
    rw [List.flatMap_cons, Text.occurrences_append _ _ (by simp [last]), occurrences_entryText, ih]

/-- Whatever its entries say, a block is a comment with one end mark, at its very end. -/
theorem isComment (depth : Nat) (block : DocBlock) : Text.IsComment (block.comment depth) where
  opens := by
    have opening : "/**\n".toList = "/**".toList ++ ['\n'] := by decide
    rw [comment, opening]
    simp only [List.append_assoc]
    exact List.prefix_append _ _
  closes := by
    have closing : " */".toList = [' '] ++ ['*', '/'] := by decide
    rw [comment, closing, ← List.append_assoc]
    exact List.suffix_append _ _
  once := by
    have opening : Text.occurrences ['*', '/'] "/**\n".toList = 0 := by decide
    have closing : Text.occurrences ['*', '/'] " */".toList = 1 := by decide
    rw [comment, Text.occurrences_append _ " */".toList (by simp),
      Text.occurrences_append _ (indent depth) (fun _ => head_indent depth),
      Text.occurrences_append "/**\n".toList _ (by simp), opening, occurrences_entries,
      occurrences_indent, closing]

end Comments

end DocBlock

/-- A part of a module: lines of code, or a block of documentation at a depth. -/
inductive ModulePart where
  | code (lines : List ScriptLine)
  | doc (depth : Nat) (block : DocBlock)
  deriving DecidableEq, Repr

namespace ModulePart

def lines : ModulePart → List ScriptLine
  | code lines => lines
  | doc depth block => block.lines depth

def text (part : ModulePart) : Text := ScriptModule.write part.lines

def doc? : ModulePart → Option (Nat × DocBlock)
  | code _ => none
  | doc depth block => some (depth, block)

/-- The documentation above something, if there is any. -/
def above (depth : Nat) (block : DocBlock) : List ModulePart :=
  if block.isEmpty then [] else [doc depth block]

theorem lines_above (depth : Nat) (block : DocBlock) :
    (above depth block).flatMap lines = block.lines depth := by
  unfold above
  split
  · next empty => simp [DocBlock.lines, empty]
  · simp [lines]

theorem docs_above (depth : Nat) (block : DocBlock) :
    (above depth block).filterMap doc? = [(depth, block)].filter (!·.2.isEmpty) := by
  unfold above
  split
  · next empty => simp [empty]
  · next written => simp [doc?, written]

end ModulePart

namespace Overload

def parts (overload : Overload) : List ModulePart :=
  ModulePart.above 1 overload.doc ++ [.code [⟨1, overload.signature.text ++ [';']⟩]]

theorem lines_parts (overload : Overload) :
    overload.parts.flatMap ModulePart.lines = overload.signatureLines := by
  simp [parts, ModulePart.lines_above, ModulePart.lines, signatureLines]

theorem docs_parts (overload : Overload) :
    overload.parts.filterMap ModulePart.doc? = [(1, overload.doc)].filter (!·.2.isEmpty) := by
  rw [parts, List.filterMap_append, ModulePart.docs_above]
  exact List.append_nil _

end Overload

namespace ScriptMember

/-- A member's documentation and its code, which is the member without documentation. -/
def parts : ScriptMember → List ModulePart
  | getter doc isStatic name type call =>
    ModulePart.above 1 doc ++ [.code (lines (.getter [] isStatic name type call))]
  | setter doc isStatic name type call =>
    ModulePart.above 1 doc ++ [.code (lines (.setter [] isStatic name type call))]
  | function doc signature body => ModulePart.above 1 doc ++ [.code (lines (.function [] signature body))]
  | overloaded dispatch =>
    dispatch.overloads.flatMap Overload.parts ++ [.code dispatch.implementationLines]
  | incomplete isStatic name => [.code (lines (.incomplete isStatic name))]

/-- The blocks of documentation of a member, one for each overload. -/
def docs : ScriptMember → List (Nat × DocBlock)
  | getter doc _ _ _ _ | setter doc _ _ _ _ | function doc _ _ => [(1, doc)]
  | overloaded dispatch => dispatch.overloads.map fun overload => (1, overload.doc)
  | incomplete _ _ => []

def allParts : List ScriptMember → List ModulePart
  | [] => []
  | [member] => member.parts
  | member :: next :: later => member.parts ++ [.code [⟨1, []⟩]] ++ allParts (next :: later)

theorem lines_parts (member : ScriptMember) : member.parts.flatMap ModulePart.lines = member.lines := by
  have single (doc : DocBlock) (lines : List ScriptLine) :
      (ModulePart.above 1 doc ++ [ModulePart.code lines]).flatMap ModulePart.lines = doc.lines 1 ++ lines := by
    rw [List.flatMap_append, ModulePart.lines_above, List.flatMap_singleton]
    rfl
  cases member with
  | getter doc isStatic name type call => exact single doc _
  | setter doc isStatic name type call => exact single doc _
  | function doc signature body => exact single doc _
  | overloaded dispatch =>
    rw [parts, List.flatMap_append, List.flatMap_assoc, List.flatMap_singleton]
    simp only [Overload.lines_parts]
    rfl
  | incomplete isStatic name => exact List.flatMap_singleton _ _

theorem docs_parts (member : ScriptMember) :
    member.parts.filterMap ModulePart.doc? = member.docs.filter (!·.2.isEmpty) := by
  have single (doc : DocBlock) (lines : List ScriptLine) :
      (ModulePart.above 1 doc ++ [ModulePart.code lines]).filterMap ModulePart.doc? =
        [(1, doc)].filter (!·.2.isEmpty) := by
    rw [List.filterMap_append, ModulePart.docs_above]
    exact List.append_nil _
  cases member with
  | getter doc isStatic name type call => exact single doc _
  | setter doc isStatic name type call => exact single doc _
  | function doc signature body => exact single doc _
  | overloaded dispatch =>
    rw [parts, List.filterMap_append, docs, List.filterMap_flatMap, List.map_eq_flatMap,
      List.filter_flatMap]
    simp only [Overload.docs_parts]
    exact List.append_nil _
  | incomplete isStatic name => rfl

theorem lines_allParts (members : List ScriptMember) :
    (allParts members).flatMap ModulePart.lines = allLines members := by
  induction members using allParts.induct with
  | case1 => rfl
  | case2 member => exact member.lines_parts
  | case3 member next later ih =>
    rw [allParts, allLines, List.flatMap_append, List.flatMap_append, member.lines_parts, ih]
    rfl

theorem docs_allParts (members : List ScriptMember) :
    (allParts members).filterMap ModulePart.doc? = (members.flatMap docs).filter (!·.2.isEmpty) := by
  induction members using allParts.induct with
  | case1 => rfl
  | case2 member =>
    rw [List.flatMap_singleton]
    exact member.docs_parts
  | case3 member next later ih =>
    rw [allParts, List.filterMap_append, List.filterMap_append, member.docs_parts, ih,
      List.flatMap_cons (x := member), List.filter_append]
    exact congrArg (· ++ _) (List.append_nil _)

end ScriptMember

namespace ScriptModule

def parts (module : ScriptModule) : List ModulePart :=
  [.code module.headLines] ++ ModulePart.above 0 module.doc ++ [.code [module.classLine]]
    ++ ScriptMember.allParts module.members ++ [.code [⟨0, ['\x7d']⟩]]

/-- The blocks of documentation in a module: the class's and those of its members. -/
def docs (module : ScriptModule) : List (Nat × DocBlock) :=
  (0, module.doc) :: module.members.flatMap ScriptMember.docs

theorem lines_parts (module : ScriptModule) : module.parts.flatMap ModulePart.lines = module.lines := by
  simp only [parts, List.flatMap_append, ModulePart.lines_above, ScriptMember.lines_allParts,
    List.flatMap_singleton]
  rfl

theorem docs_parts (module : ScriptModule) :
    module.parts.filterMap ModulePart.doc? = module.docs.filter (!·.2.isEmpty) := by
  rw [docs, ← List.singleton_append, List.filter_append, ← ModulePart.docs_above,
    ← ScriptMember.docs_allParts]
  simp [parts, List.filterMap_cons, ModulePart.doc?]

theorem write_parts (parts : List ModulePart) :
    write (parts.flatMap ModulePart.lines) = parts.flatMap ModulePart.text := by
  rw [write, List.flatMap_assoc]
  rfl

end ScriptModule

-- Parts hold no empty block.
theorem ModulePart.ne_nil_of_docs {parts : List ModulePart} {docs : List (Nat × DocBlock)}
    (same : parts.filterMap doc? = docs.filter (!·.2.isEmpty)) {depth : Nat} {block : DocBlock}
    (member : doc depth block ∈ parts) : block ≠ [] := by
  have known : (depth, block) ∈ parts.filterMap doc? :=
    List.mem_filterMap.mpr ⟨doc depth block, member, rfl⟩
  rw [same, List.mem_filter] at known
  simpa using known.2

namespace ClassDecl

/-- Documentation does not get out of its comment. A module is code and blocks of documentation in
turn, those of the class and of its members that say anything; the members alone are too. Each block is
a comment on lines of its own with one end mark, at its very end, whatever the texts that it is made
from, and a reader of the module goes on behind it as if it were not there. -/
theorem documentation_enclosed (decl : ClassDecl) (bridge : Text) (classes : ClassSet) :
    let module := decl.scriptModule bridge classes
    module.source = module.parts.flatMap ModulePart.text ∧
      decl.membersText = (ScriptMember.allParts decl.scriptMembers).flatMap ModulePart.text ∧
      module.parts.filterMap ModulePart.doc? = module.docs.filter (!·.2.isEmpty) ∧
      ∀ depth block, ModulePart.doc depth block ∈ module.parts →
        ∃ comment, (ModulePart.doc depth block).text = DocBlock.indent depth ++ comment ++ ['\n'] ∧
          comment.IsComment ∧ Reading.Sealed (ModulePart.doc depth block).text [] := by
  intro module
  refine ⟨?_, ?_, module.docs_parts, ?_⟩
  · rw [ScriptModule.source, ← module.lines_parts, ScriptModule.write_parts]
  · rw [decl.membersText_eq, ← ScriptMember.lines_allParts, ScriptModule.write_parts]
  · intro depth block member
    have written := ModulePart.ne_nil_of_docs module.docs_parts member
    exact ⟨block.comment depth, block.write_lines depth written, block.isComment depth,
      block.sealed_lines depth⟩

/-- A panel all of whose documentation tries to end its comment. -/
def escapingPanel : ClassDecl where
  name := "Panel".toList
  doc := "Ends */ here **/".toList
  availability := some "*/".toList
  methods :=
    [{ selector := "show:".toList, returnType := "void".toList, isStatic := false,
       params := [⟨"text".toList, "NSString".toList, true, "/*/\n*/ run();".toList⟩],
       doc := "**/*/".toList, returnDoc := "/".toList }]

theorem documentation_enclosed_escapingPanel :
    ∃ comment, comment.IsComment ∧
      (ModulePart.doc 1 ["**/*/".toList, "@param text /*/\n*/ run();".toList,
        "@returns /".toList]).text = DocBlock.indent 1 ++ comment ++ ['\n'] := by
  have written : ModulePart.doc 1 ["**/*/".toList, "@param text /*/\n*/ run();".toList,
      "@returns /".toList] ∈ (escapingPanel.scriptModule [] .empty).parts := by decide
  obtain ⟨comment, same, closed, -⟩ :=
    (escapingPanel.documentation_enclosed [] .empty).2.2.2 _ _ written
  exact ⟨comment, closed, same⟩

end ClassDecl

end HeaderBindings
