import HeaderBindings.CommandLine.Execute
import HeaderBindings.Proofs.Declaration.Feeds
import HeaderBindings.Proofs.Header.Declarations
import HeaderBindings.Proofs.Header.Locations
import HeaderBindings.Proofs.Script.Writing

/-!
A method on its own and the same method in a header. A header that declares one class with nothing but the
declaration yields that class with the method, and the member that is made of the method on its own is the
body of the module. The line of the declaration goes through the reader untouched, whether it ends the
member itself or leaves that to the end of the class.
-/

namespace HeaderBindings

/-! ## A declaration as it is read on its own -/

namespace Method

/-- A comment that says nothing leaves a method that is not documented as it is. -/
theorem withDoc_nothing (method : Method) (doc : method.doc = []) (returnDoc : method.returnDoc = []) :
    method.withDoc {} = method := by
  have described : describe {} = id := by
    funext param
    rfl
  cases method
  cases doc
  cases returnDoc
  simp [withDoc, described]

theorem Reader.undocumented_afterSign (isStatic : Bool) (tokens : List Token) (method : Method)
    (ok : afterSign isStatic tokens = .ok method) : method.doc = [] ∧ method.returnDoc = [] := by
  obtain ⟨type, _, ok⟩ := exists_of_bind ok
  obtain ⟨signature, _, ok⟩ := exists_of_bind ok
  obtain ⟨availability, _, ok⟩ := exists_of_bind ok
  cases ok
  exact ⟨rfl, rfl⟩

theorem withDoc_parse (declaration : Text) (method : Method) (ok : parse declaration = .ok method) :
    method.withDoc {} = method := by
  have read := ok_of_mapError ok
  have plain : method.doc = [] ∧ method.returnDoc = [] := by
    unfold Reader.method at read
    split at read
    · exact Reader.undocumented_afterSign _ _ _ read
    · exact Reader.undocumented_afterSign _ _ _ read
    · cases read
  exact method.withDoc_nothing plain.1 plain.2

end Method

/-! ## The end of a class behind a member -/

namespace OpenClass

/-- A member of a declaration without documentation is the method that is read on its own. -/
theorem addMember_method (current : OpenClass) (assumeNonnull : Bool) (declaration : Text) (number : Nat)
    (other : Text.startsWith "@property".toList declaration = false) :
    current.addMember assumeNonnull ⟨declaration, number, {}⟩ =
      match Method.parse declaration with
      | .ok method => ({ current with decl := current.decl.addMethod method, pending := .nothing }, [])
      | .error error => ({ current with pending := .nothing }, [.rejected number error.message]) := by
  unfold addMember
  rw [if_neg (Bool.eq_false_iff.mp other)]
  cases read : Method.parse declaration with
  | ok method => simp only [Method.withDoc_parse declaration method read]
  | error error => rfl

-- A class that has been given a member waits for the next one.
theorem addMember_waits (current : OpenClass) (assumeNonnull : Bool) (member : PendingMember) :
    (current.addMember assumeNonnull member).1.pending = .nothing ∧
      (current.addMember assumeNonnull member).1.braceDepth = current.braceDepth := by
  unfold addMember
  split
  · cases Property.parse assumeNonnull member.text <;> exact ⟨rfl, rfl⟩
  · cases Method.parse member.text <;> exact ⟨rfl, rfl⟩

end OpenClass

namespace Reader

/-- The end of a class reads a member that is still pending, so that it does not matter whether the
member has ended before. -/
theorem readLine_end_held (number : Nat) (current : OpenClass) (depth : current.braceDepth ≤ 0)
    (member : PendingMember) (line : Text) :
    let held := current.holdMember false member line
    let added := current.addMember false member
    let read := (within held.1).readLine number "@end".toList
    read.1 = {} ∧ held.2 ++ read.2 = added.2 ++ [.closing added.1.decl, .declared added.1.decl] := by
  have code (own : OpenClass) :
      (within own).readLine number "@end".toList = (within own).classLine own number "@end".toList :=
    (within own).readLine_code number "@end".toList rfl (by decide)
  by_cases complete : ';' ∈ line
  · obtain ⟨nothing, same⟩ := current.addMember_waits false member
    simp only [current.holdMember_complete false member line complete]
    rw [code, classLine, if_neg (by omega), nothing]
    exact ⟨rfl, rfl⟩
  · simp only [current.holdMember_open false member line complete]
    rw [code, classLine, if_neg (Int.not_lt.mpr depth)]
    exact ⟨rfl, rfl⟩

end Reader

/-! ## The header of a single method -/

/-- The lines that declare the inline class with a member on a line of its own. -/
def inlineLines (declaration : Text) : List Text :=
  ["@interface Inline".toList, declaration, "@end".toList]

/-- A declaration of a method on one line, without white space around it. -/
structure Method.OnOneLine (declaration : Text) : Prop where
  trimmed : declaration.trim = declaration
  oneLine : '\n' ∉ declaration
  sign : declaration.head? = some '+' ∨ declaration.head? = some '-'

namespace Method.OnOneLine

variable {declaration : Text} (single : Method.OnOneLine declaration)

include single

theorem startsMember : Reader.startsMember declaration = true := by
  rcases single.sign with plus | minus
  · simp [Reader.startsMember, plus]
  · simp [Reader.startsMember, minus]

theorem not_property : Text.startsWith "@property".toList declaration = false := by
  cases declaration with
  | nil => rfl
  | cons c text =>
    rcases single.sign with plus | minus
    · cases plus
      rfl
    · cases minus
      rfl

-- What is trimmed does not end with a carriage return.
theorem dropReturn_eq : declaration.dropReturn = declaration := by
  rcases Text.dropReturn_cases declaration with same | ended
  · exact same
  · have visible := Text.last_trim declaration
    rw [single.trimmed, ended, List.getLast?_concat] at visible
    exact absurd (visible '\r' rfl) (by decide)

/-- The header has its three lines whether it ends with a line feed or not. -/
theorem lines_eq (content : Text) (written : content = Text.join ['\n'] (inlineLines declaration) ∨
    content = Text.unlines (inlineLines declaration)) : content.lines = inlineLines declaration := by
  have lines (rest : Text) (last : rest.lines = ["@end".toList]) :
      Text.lines ("@interface Inline".toList ++ '\n' :: (declaration ++ '\n' :: rest)) =
        inlineLines declaration := by
    rw [Text.lines_feed _ _ (by decide), Text.lines_feed _ _ single.oneLine, single.dropReturn_eq, last]
    rfl
  rcases written with rfl | rfl
  · exact lines "@end".toList (by decide)
  · have whole : Text.unlines (inlineLines declaration) =
        "@interface Inline".toList ++ '\n' :: (declaration ++ '\n' :: "@end\n".toList) := by
      simp [inlineLines, Text.unlines]
    rw [whole]
    exact lines "@end\n".toList (by decide)

end Method.OnOneLine

namespace Reader

/-- The inline class before its member. -/
def inlineOpened : OpenClass := { decl := { name := "Inline".toList }, line := 1 }

/-- The inline class behind its header, which protocols may follow. -/
def inlineHeaded : OpenClass := { inlineOpened with pending := .header "@interface Inline".toList }

theorem readLine_inlineHeader :
    ({} : Reader).readLine 1 "@interface Inline".toList =
      (within inlineHeaded, [.entered "Inline".toList [] 1]) := by decide +kernel

/-- The notes on the header of a single method: the member is added, whether it ends with a semicolon or
with the class. -/
theorem readLines_single (declaration : Text) (single : Method.OnOneLine declaration) :
    let added := inlineOpened.addMember false ⟨declaration, 2, {}⟩
    ({} : Reader).readLines 1 (inlineLines declaration) =
      ({}, .entered "Inline".toList [] 1
        :: (added.2 ++ [.closing added.1.decl, .declared added.1.decl])) := by
  intro added
  have awaits : (within inlineHeaded).AwaitsMember inlineHeaded :=
    within_awaits inlineHeaded ⟨by decide, by simp [inlineHeaded]⟩
  have starts : startsMember declaration.trim = true := by
    rw [single.trimmed]
    exact single.startsMember
  -- The header is no longer pending when the member begins.
  have member : (within inlineHeaded).readLine 2 declaration =
      let held := inlineOpened.holdMember false ⟨declaration, 2, {}⟩ declaration
      (within held.1, held.2) := by
    rw [readLine_startsMember _ 2 declaration inlineHeaded awaits starts, single.trimmed]
    rfl
  obtain ⟨ended, notes⟩ := readLine_end_held 3 inlineOpened (by decide) ⟨declaration, 2, {}⟩ declaration
  simp only [inlineLines, readLines, readLine_inlineHeader, Nat.reduceAdd, member, List.append_nil]
  rw [ended, notes]
  rfl

end Reader

/-! ## The module of the inline class -/

namespace ScriptModule

/-- The lines above the members of a class without a superclass, comment or availability. -/
def openingLines (name bridge : Text) : List Text :=
  ["// Generated by veneer from `".toList ++ name ++ "`. Do not edit.".toList,
   "import \x7b NativeObject, allocate, invoke \x7d from \"".toList ++ bridge ++ "\";".toList,
   [],
   "export class ".toList ++ name ++ " extends NativeObject \x7b".toList]

-- Lines without indentation are written as they are.
theorem write_outer (texts : List Text) : write (texts.map (ScriptLine.mk 0)) = Text.unlines texts := by
  induction texts with
  | nil => rfl
  | cons text texts ih =>
    have first : ScriptLine.written ⟨0, text⟩ = text ++ ['\n'] := by simp [ScriptLine.written]
    rw [Text.unlines_cons, ← ih, List.map_cons, write, List.flatMap_cons, first]
    simp [write]

end ScriptModule

/-- The member made of a method on its own is the body of the module of the inline class. -/
theorem Method.source_inlineClass (method : Method) (bridge : Text) (classes : ClassSet) :
    (GeneratedFile.ofClass bridge classes method.inlineClass).source =
      Text.unlines (ScriptModule.openingLines "Inline".toList bridge) ++ method.inlineMember
        ++ Text.unlines [['\x7d']] := by
  let module := method.inlineClass.scriptModule bridge classes
  have opening : module.headLines ++ method.inlineClass.docBlock.lines 0 ++ [module.classLine] =
      (ScriptModule.openingLines "Inline".toList bridge).map (ScriptLine.mk 0) := rfl
  have closing : [⟨0, ['\x7d']⟩] = [['\x7d']].map (ScriptLine.mk 0) := rfl
  rw [GeneratedFile.source_of_members, opening, closing, ScriptModule.write_outer, ScriptModule.write_outer,
    inlineMember]

/-! ## Both ways of reading -/

/-- What the header of a single method yields. -/
theorem SourceUnit.recordAll_inline (unit : SourceUnit) (declaration : Text)
    (single : Method.OnOneLine declaration) (lines : unit.content.lines = inlineLines declaration) :
    ClassSet.empty.recordAll unit.findings =
      match Method.parse declaration with
      | .ok method => { classes := [method.inlineClass] }
      | .error error =>
        { classes := [{ name := "Inline".toList }]
          diagnostics := [unit.diagnostic 2 error.message] } := by
  rw [SourceUnit.findings, notesOf, lines, Reader.readLines_single declaration single,
    Reader.inlineOpened.addMember_method false declaration 2 single.not_property]
  cases Method.parse declaration with
  | ok method => rfl
  | error error => rfl

namespace Run

open CommandLine

/-- A method on its own and the same method in a header. A header of the inline class with nothing but a
declaration on one line yields that class. If the declaration can be read on its own, the class has
exactly that method, there is no warning, and in its module the member made of the method on its own is
all that stands between the opening and the closing brace; otherwise the class has no members, and the
only warning is the message of the error, at the second line with the declaration quoted. -/
theorem extractUnits_inline (path content declaration : Text) (single : Method.OnOneLine declaration)
    (written : content = Text.join ['\n'] (inlineLines declaration) ∨
      content = Text.unlines (inlineLines declaration)) :
    let extracted := (extractUnits .empty [⟨path, content⟩]).1
    match bindMethod declaration with
    | .ok binding =>
      extracted = { classes := [binding.method.inlineClass], diagnostics := [] } ∧
        ∀ bridge classes,
          (GeneratedFile.ofClass bridge classes binding.method.inlineClass).source =
            Text.unlines (ScriptModule.openingLines "Inline".toList bridge) ++ binding.member
              ++ Text.unlines [['\x7d']]
    | .error error =>
      extracted =
        { classes := [{ name := "Inline".toList }]
          diagnostics :=
            [{ message := error.message, path := some path, line := some 2,
               help := some ("in `".toList ++ declaration ++ ['`']) }] } := by
  intro extracted
  have lines := single.lines_eq content written
  have recorded : extracted = _ := (extractUnits_single .empty ⟨path, content⟩).trans
    (SourceUnit.recordAll_inline ⟨path, content⟩ declaration single lines)
  rw [recorded, bindMethod]
  cases Method.parse declaration with
  | ok method => exact ⟨rfl, method.source_inlineClass⟩
  | error error =>
    have here : content.lines[1]? = some declaration := by
      rw [lines]
      rfl
    have warning := SourceUnit.diagnostic_of_line ⟨path, content⟩ 1 declaration error.message here
    rw [single.trimmed] at warning
    exact congrArg (ClassSet.mk [{ name := "Inline".toList }] [·]) warning

/-- A method that no semicolon ends. -/
def panelDeclaration : Text := "+ (nullable Panel *)panelAt:(int)x in:(NSArray<Panel *> *)others".toList

theorem extractUnits_inline_panel :
    Method.OnOneLine panelDeclaration ∧ ∃ binding, bindMethod panelDeclaration = .ok binding ∧
      (extractUnits .empty [⟨"Inline.h".toList, Text.unlines (inlineLines panelDeclaration)⟩]).1 =
        { classes := [binding.method.inlineClass], diagnostics := [] } ∧
      ∀ bridge classes,
        (GeneratedFile.ofClass bridge classes binding.method.inlineClass).source =
          Text.unlines (ScriptModule.openingLines "Inline".toList bridge) ++ binding.member
            ++ Text.unlines [['\x7d']] := by
  have single : Method.OnOneLine panelDeclaration := ⟨by decide, by decide, .inl rfl⟩
  have readable : (bindMethod panelDeclaration).isOk = true := by decide +kernel
  have both := extractUnits_inline "Inline.h".toList _ panelDeclaration single (.inr rfl)
  cases read : bindMethod panelDeclaration with
  | ok binding =>
    rw [read] at both
    exact ⟨single, binding, rfl, both⟩
  | error error =>
    rw [read] at readable
    cases readable

-- What cannot be read is said of the declaration as it is written.
example : bindMethod "- foo;".toList = .error (.member "- foo;".toList .noReturnType) := by
  decide +kernel

end Run

end HeaderBindings
