import HeaderBindings.Proofs.Script.Spelling

/-!
The definitions that the members of a class write: the function of a single method, and the
signatures and the implementation of an overloaded one. The lines of a member are read back as these
definitions and nothing else.
-/

namespace HeaderBindings

open Reading

section Heads

namespace ScriptParam

def formal (param : ScriptParam) : Formal := ⟨param.name, false⟩

theorem writes_text (param : ScriptParam) (letters : IsWord param.name) :
    Writes param.text fun read => Binds read param.formal := by
  obtain ⟨type, typeSpelled, passed⟩ := param.type.writes_text
  have colon : Sealed ": ".toList [.mark [':']] := rfl
  have front := (spelled_word letters).append_sealed colon (apart_of_head rfl) (by simp)
  exact ⟨_, front.append_spelled typeSpelled, binds_typed param.name passed⟩

end ScriptParam

namespace UnionParam

def formal (param : UnionParam) : Formal := ⟨param.name, false⟩

theorem writes_text (param : UnionParam) (letters : IsWord param.name)
    (types : ∀ text ∈ param.types, Writes text IsType) :
    Writes param.text fun read => Binds read param.formal := by
  obtain ⟨type, typeSpelled, passed⟩ := writes_union param.types types
  have colon : Sealed "?: ".toList [.mark ['?'], .mark [':']] := rfl
  have front := (spelled_word letters).append_sealed colon (apart_of_head rfl) (by simp)
  exact ⟨_, front.append_spelled typeSpelled, binds_optional param.name passed⟩

end UnionParam

theorem sealed_staticPart (isStatic : Bool) : Sealed (staticPart isStatic) (staticWord isStatic) := by
  cases isStatic <;> rfl

-- The part of a member before its semicolon or its body.
theorem spelled_head {α : Type} (isStatic : Bool) (name : Text) (letters : IsWord name)
    (text : α → Text) (written : α → List Lexeme) (items : List α)
    (spelled : ∀ item ∈ items, Spelled (text item) (written item)) (returns : Text)
    (type : List Lexeme) (returnsSpelled : Spelled returns type) :
    Spelled
      (staticPart isStatic ++ name ++ ['('] ++ Text.join ", ".toList (items.map text)
        ++ "): ".toList ++ returns)
      (staticWord isStatic ++ .word name :: .mark ['('] :: commaed (items.map written)
        ++ [.mark [')'], .mark [':']] ++ type) := by
  have paren : Sealed ['('] [.mark ['(']] := rfl
  have colon : Sealed "): ".toList [.mark [')'], .mark [':']] := rfl
  have joined := spelled_join ", ".toList (.mark [',']) text written comma_divides
    (apart_of_head rfl) (by simp) items spelled
  have front := (spelled_word letters).between (sealed_staticPart isStatic) paren
    (apart_of_head rfl) (by simp)
  have whole := (joined.between front colon (apart_of_head rfl) (by simp)).append_spelled
    returnsSpelled
  simpa [commaed] using whole

namespace ReturnType

def Readable : ReturnType → Prop
  | script _ => True
  | instanceOf className => IsWord className

theorem writes_text (returns : ReturnType) (readable : returns.Readable) :
    Writes returns.text IsType := by
  cases returns with
  | script type => exact type.writes_text
  | instanceOf className => exact ScriptType.writes_word className readable

end ReturnType

namespace Signature

def formals (signature : Signature) : List Formal := signature.params.map ScriptParam.formal

def definition (signature : Signature) (body : Option (List Instruction)) : Definition :=
  ⟨signature.isStatic, signature.name, signature.formals, body⟩

structure Readable (signature : Signature) : Prop where
  name : IsWord signature.name
  params : ∀ param ∈ signature.params, IsWord param.name
  returns : signature.returns.Readable

variable (signature : Signature) (readable : signature.Readable)

include readable

-- A signature is read as a member without a body or, with a block behind it, as one with it.
theorem writes_text :
    Writes signature.text fun read =>
      Defines (read ++ [.mark [';']]) (signature.definition none) ∧
      ∀ inner body, Blocks inner body →
        Defines (read ++ [.mark ['\x7b']] ++ inner ++ [.mark ['\x7d']])
          (signature.definition (some body)) := by
  have params := fun param member => ScriptParam.writes_text param (readable.params param member)
  choose! written spelled binds using params
  obtain ⟨type, typeSpelled, passed⟩ := signature.returns.writes_text readable.returns
  refine ⟨_, spelled_head signature.isStatic signature.name readable.name ScriptParam.text written
    signature.params spelled signature.returns.text type typeSpelled, ?_, ?_⟩
  · exact defines_signature written ScriptParam.formal signature.params binds passed
      signature.isStatic signature.name
  · intro inner body block
    exact defines_member written ScriptParam.formal signature.params binds passed
      signature.isStatic signature.name block

end Signature

end Heads

section Functions

-- A member written with one statement is read as a definition with it.
theorem definitions_of_function (doc : DocBlock) (signature : Signature) (body : Statement)
    (signatureReadable : signature.Readable) (bodyReadable : body.Readable) :
    (lexemes (ScriptModule.write (ScriptMember.lines (.function doc signature body)))).bind
      definitions? = some [signature.definition (some [body.instruction])] := by
  obtain ⟨head, headSpelled, _, defines⟩ := signature.writes_text signatureReadable
  obtain ⟨inner, bodySealed, instructs⟩ := body.sealed_text bodyReadable
  have opened : Sealed " \x7b".toList [.mark ['\x7b']] := rfl
  have closed : Sealed ['\x7d'] [.mark ['\x7d']] := rfl
  have first := sealed_line ⟨1, signature.text ++ " \x7b".toList⟩
    (headSpelled.append_sealed opened (apart_of_head rfl) (by simp)).spelled
  have second := sealed_line ⟨2, body.text⟩ bodySealed.spelled
  have third := sealed_line ⟨1, ['\x7d']⟩ closed.spelled
  have whole := (((doc.sealed_lines 1).append first).append second).append third
  have text : ScriptModule.write (ScriptMember.lines (.function doc signature body)) =
      ScriptModule.write (doc.lines 1) ++ ScriptModule.write [⟨1, signature.text ++ " \x7b".toList⟩]
        ++ ScriptModule.write [⟨2, body.text⟩] ++ ScriptModule.write [⟨1, ['\x7d']⟩] := by
    simp [ScriptMember.lines, ScriptMember.block, ← write_append]
  have form := defines inner [body.instruction] (by simpa using instructs.blocks blocks_nil)
  have read := form.definitions []
  rw [List.append_nil] at read
  rw [text, lexemes_of_sealed whole]
  simpa [definitions?] using read

end Functions

section Dispatches

namespace Overload

/-- The branch for an overload: its statement and, if that does not leave the member, a return. -/
def branch (overload : Overload) : Instruction :=
  .branch (.equal (.property (.name "args".toList) "length".toList) (.number overload.arity))
    (overload.body.instruction :: if overload.body.leaves then [] else [.leave])

def definition (overload : Overload) : Definition := overload.signature.definition none

structure Readable (overload : Overload) : Prop where
  signature : overload.signature.Readable
  body : overload.body.Readable

variable (overload : Overload) (readable : overload.Readable)

include readable

theorem sealed_signatureLines :
    ∃ read, Sealed (ScriptModule.write overload.signatureLines) read ∧
      Defines read overload.definition := by
  obtain ⟨head, headSpelled, defines, _⟩ := overload.signature.writes_text readable.signature
  have ended : Sealed [';'] [.mark [';']] := rfl
  have line := sealed_line ⟨1, overload.signature.text ++ [';']⟩
    (headSpelled.append_sealed ended (apart_of_head rfl) (by simp)).spelled
  refine ⟨_, ?_, defines⟩
  have whole := (overload.doc.sealed_lines 1).append line
  rwa [List.nil_append, ← write_append] at whole

theorem sealed_branchLines :
    ∃ read, Sealed (ScriptModule.write overload.branchLines) read ∧
      Instructs read overload.branch := by
  obtain ⟨inner, bodySealed, instructs⟩ := overload.body.sealed_text readable.body
  have number : IsWord (Text.ofNat overload.arity) :=
    ⟨Text.ofNat_ne_nil _, fun c member => wordChar_of_nameChar c (nameChars_ofNat _ c member)⟩
  have asked : Sealed "if (args.length === ".toList
      [.word "if".toList, .mark ['('], .word "args".toList, .mark ['.'], .word "length".toList,
        .mark ['=', '=', '=']] := rfl
  have opened : Sealed ") \x7b".toList [.mark [')'], .mark ['\x7b']] := rfl
  have closed : Sealed ['\x7d'] [.mark ['\x7d']] := rfl
  have test := sealed_line ⟨2, "if (args.length === ".toList ++ Text.ofNat overload.arity
    ++ ") \x7b".toList⟩ ((spelled_word number).between asked opened (apart_of_head rfl)
      (by simp)).spelled
  have body := sealed_line ⟨3, overload.body.text⟩ bodySealed.spelled
  have last := sealed_line ⟨2, ['\x7d']⟩ closed.spelled
  have leaving : ∃ read, Sealed (ScriptModule.write
      (if overload.body.leaves then [] else [⟨3, "return;".toList⟩])) read ∧
      Blocks read (if overload.body.leaves then [] else [.leave]) := by
    have left : Sealed "return;".toList [.word "return".toList, .mark [';']] := rfl
    split
    · exact ⟨[], rfl, blocks_nil⟩
    · exact ⟨_, sealed_line ⟨3, "return;".toList⟩ left.spelled,
        by simpa using instructs_leave.blocks blocks_nil⟩
  obtain ⟨leave, leaveSealed, leaveBlock⟩ := leaving
  have whole := (((test.append body).append leaveSealed).append last)
  have form := instructs_branch
    ((expresses_name "args".toList ⟨by decide, by decide, by decide⟩).property "length".toList)
    (expresses_numeral overload.arity) (instructs.blocks leaveBlock)
  rw [← write_append, ← write_append, ← write_append] at whole
  exact ⟨_, whole, by simpa [branch] using form⟩

end Overload

namespace Dispatch

def restFormal : Formal := ⟨"rest".toList, true⟩

def formals (dispatch : Dispatch) : List Formal :=
  dispatch.params.map UnionParam.formal ++ [restFormal]

/-- The elements of the gathered arguments: the parameters and all that the last one took. -/
def elements (names : List Text) : Items :=
  names.foldr (fun name later => .item (.name name) later) (.spread (.name "rest".toList) .nil)

def gatheringInstruction (dispatch : Dispatch) : Instruction :=
  .declare "args".toList
    (.call (.property (.array (elements (dispatch.params.map (·.name)))) "slice".toList)
      (.item (.number 0) (.item (.property (.name "arguments".toList) "length".toList) .nil)))

def message (dispatch : Dispatch) : Text :=
  "UnresolvedOverload: no overload of ".toList ++ dispatch.base
    ++ " takes $\x7bargs.length\x7d argument(s)".toList

def failing (dispatch : Dispatch) : Instruction :=
  .throw (.construct "Error".toList (.item (.template dispatch.message) .nil))

def body (dispatch : Dispatch) : List Instruction :=
  dispatch.gatheringInstruction :: (dispatch.overloads.map Overload.branch ++ [dispatch.failing])

def definition (dispatch : Dispatch) : Definition :=
  ⟨dispatch.isStatic, dispatch.name, dispatch.formals, some dispatch.body⟩

structure Readable (dispatch : Dispatch) : Prop where
  name : IsWord dispatch.name
  base : ∀ c ∈ dispatch.base, c ≠ '\x60' ∧ c ≠ '\\'
  names : ∀ param ∈ dispatch.params, IsVariable param.name
  types : ∀ param ∈ dispatch.params, ∀ text ∈ param.types, Writes text IsType
  overloads : ∀ overload ∈ dispatch.overloads, overload.Readable

theorem lists_elements (names : List Text) (plain : ∀ name ∈ names, IsVariable name) :
    Lists ']'
      (commaed (names.map (fun name => [.word name])
        ++ [[.mark ['.', '.', '.'], .word "rest".toList]]) ++ [.mark [']']])
      (elements names) := by
  have rest := expresses_name "rest".toList ⟨by decide, by decide, by decide⟩
  have closed : Continues ']' [.mark [']']] .nil := continues_nil _ ⟨by decide, by decide⟩
  induction names with
  | nil => exact lists_spread (begins_word _ []) rest closed
  | cons name names ih =>
    have later := (ih fun next member => plain next (List.mem_cons_of_mem name member)).continues
      (by decide)
    have form := lists_item (begins_word name [])
      (expresses_name name (plain name List.mem_cons_self).name) later
    have nonempty : names.map (fun name => [Lexeme.word name])
        ++ [[.mark ['.', '.', '.'], .word "rest".toList]] ≠ [] := by simp
    rw [List.map_cons, List.cons_append, commaed, List.intercalate_cons_of_ne_nil nonempty,
      List.append_assoc, List.append_assoc]
    exact form

theorem spelled_elements (names : List Text) (plain : ∀ name ∈ names, IsVariable name) :
    Spelled (Text.join ", ".toList (names ++ ["...rest".toList]))
      (commaed (names.map (fun name => [.word name])
        ++ [[.mark ['.', '.', '.'], .word "rest".toList]])) := by
  have rest : Spelled "...rest".toList [.mark ['.', '.', '.'], .word "rest".toList] :=
    ⟨.word "rest".toList, [.mark ['.', '.', '.']], rfl, rfl, Or.inr ⟨_, rfl⟩⟩
  let parts : List (Text × List Lexeme) := names.map (fun name => (name, [.word name]))
    ++ [("...rest".toList, [.mark ['.', '.', '.'], .word "rest".toList])]
  have each : ∀ part ∈ parts, Spelled part.1 part.2 := by
    intro part member
    rcases List.mem_append.mp member with name | last
    · obtain ⟨word, known, rfl⟩ := List.mem_map.mp name
      exact spelled_word (plain word known).letters
    · rw [List.mem_singleton.mp last]
      exact rest
  have joined := spelled_join ", ".toList (.mark [',']) Prod.fst Prod.snd comma_divides
    (apart_of_head rfl) (by simp) parts each
  simpa [parts, commaed, Function.comp_def] using joined

variable (dispatch : Dispatch) (readable : dispatch.Readable)

include readable

theorem sealed_gathering :
    ∃ read, Sealed dispatch.gathering read ∧ Instructs read dispatch.gatheringInstruction := by
  have opened : Sealed "const args = [".toList
      [.word "const".toList, .word "args".toList, .mark ['='], .mark ['[']] := rfl
  have closed : Sealed "].slice(0, arguments.length);".toList
      [.mark [']'], .mark ['.'], .word "slice".toList, .mark ['('], .word "0".toList, .mark [','],
        .word "arguments".toList, .mark ['.'], .word "length".toList, .mark [')'],
        .mark [';']] := rfl
  let names := dispatch.params.map (·.name)
  have plain : ∀ name ∈ names, IsVariable name := by
    intro name member
    obtain ⟨param, known, rfl⟩ := List.mem_map.mp member
    exact readable.names param known
  have whole := (spelled_elements names plain).between opened closed (apart_of_head rfl) (by simp)
  have number := expresses_numeral 0
  have length := (expresses_name "arguments".toList ⟨by decide, by decide, by decide⟩).property
    "length".toList
  have ended : Continues ')' [.mark [')']] .nil := continues_nil _ ⟨by decide, by decide⟩
  have bounds := lists_item (begins_word _ _) number
    ((lists_item (begins_word _ _) length ended).continues (by decide))
  have form := instructs_declare "args".toList
    (((expresses_array (lists_elements names plain)).property "slice".toList).call bounds)
  have zero : Text.ofNat 0 = "0".toList := rfl
  refine ⟨_, whole, ?_⟩
  unfold gatheringInstruction
  simpa [commaed, zero] using form

theorem sealed_failure :
    ∃ read, Sealed dispatch.failure read ∧ Instructs read dispatch.failing := by
  have opened : Sealed "throw new Error(".toList
      [.word "throw".toList, .word "new".toList, .word "Error".toList, .mark ['(']] := rfl
  have closed : Sealed ");".toList [.mark [')'], .mark [';']] := rfl
  have fixed : ∀ c ∈ "UnresolvedOverload: no overload of ".toList
      ++ " takes $\x7bargs.length\x7d argument(s)".toList, c ≠ '\x60' ∧ c ≠ '\\' := by simp
  have safe : ∀ c ∈ dispatch.message, c ≠ '\x60' ∧ c ≠ '\\' := by
    intro c member
    rcases List.mem_append.mp member with front | last
    · rcases List.mem_append.mp front with first | base
      · exact fixed c (List.mem_append_left _ first)
      · exact readable.base c base
    · exact fixed c (List.mem_append_right _ last)
  have whole := (opened.append (sealed_template safe)).append closed
  have form := instructs_throw (expresses_construct "Error".toList
    (lists_item (begins_template _ []) (expresses_template dispatch.message)
      (continues_nil ')' ⟨by decide, by decide⟩)))
  have text : dispatch.failure = "throw new Error(".toList
      ++ (['\x60'] ++ dispatch.message ++ ['\x60']) ++ ");".toList := by
    unfold failure message
    simp
  exact ⟨_, text ▸ whole, form⟩

theorem types_returns : ∀ text ∈ dispatch.returns, Writes text IsType := by
  intro text member
  rcases mem_adopt _ _ _ member with none | known
  · cases none
  · obtain ⟨overload, own, rfl⟩ := List.mem_map.mp known
    exact overload.signature.returns.writes_text (readable.overloads overload own).signature.returns

-- The head of an implementation, with a block behind it, is read as a member with its body.
theorem writes_head :
    Writes dispatch.head fun read => ∀ inner body, Blocks inner body →
      Defines (read ++ [.mark ['\x7b']] ++ inner ++ [.mark ['\x7d']])
        ⟨dispatch.isStatic, dispatch.name, dispatch.formals, some body⟩ := by
  have params := fun param member => UnionParam.writes_text param (readable.names param member).letters
    (readable.types param member)
  choose! written spelled binds using params
  obtain ⟨type, typeSpelled, passed⟩ := writes_union _ (dispatch.types_returns readable)
  have rest : Sealed "...rest: unknown[]".toList
      [.mark ['.', '.', '.'], .word "rest".toList, .mark [':'], .word "unknown".toList, .mark ['['],
        .mark [']']] := rfl
  have unknowns : IsType [.word "unknown".toList, .mark ['['], .mark [']']] :=
    (isType_word _).append isType_brackets
  let parts : List (Text × List Lexeme × Formal) :=
    dispatch.params.map (fun param => (param.text, written param, param.formal))
      ++ [("...rest: unknown[]".toList, [.mark ['.', '.', '.'], .word "rest".toList, .mark [':'],
        .word "unknown".toList, .mark ['['], .mark [']']], restFormal)]
  have forms : ∀ part ∈ parts, Spelled part.1 part.2.1 ∧ Binds part.2.1 part.2.2 := by
    intro part member
    rcases List.mem_append.mp member with first | last
    · obtain ⟨param, known, rfl⟩ := List.mem_map.mp first
      exact ⟨spelled param known, binds param known⟩
    · rw [List.mem_singleton.mp last]
      exact ⟨rest.spelled, binds_rest "rest".toList unknowns⟩
  have head := spelled_head dispatch.isStatic dispatch.name readable.name Prod.fst (·.2.1) parts
    (fun part member => (forms part member).1) _ type typeSpelled
  have texts : parts.map Prod.fst =
      dispatch.params.map UnionParam.text ++ ["...rest: unknown[]".toList] := by
    simp [parts, Function.comp_def]
  have formals : parts.map (·.2.2) = dispatch.formals := by
    simp [parts, Dispatch.formals, Function.comp_def]
  rw [texts] at head
  refine ⟨_, head, fun inner body block => ?_⟩
  have form := defines_member (·.2.1) (·.2.2) parts (fun part member => (forms part member).2)
    passed dispatch.isStatic dispatch.name block
  rwa [formals] at form

theorem sealed_implementationLines :
    ∃ read, Sealed (ScriptModule.write dispatch.implementationLines) read ∧
      Defines read dispatch.definition := by
  obtain ⟨head, headSpelled, defines⟩ := dispatch.writes_head readable
  obtain ⟨gather, gatherSealed, gathers⟩ := dispatch.sealed_gathering readable
  obtain ⟨fail, failSealed, fails⟩ := dispatch.sealed_failure readable
  have branches := fun overload member =>
    Overload.sealed_branchLines overload (readable.overloads overload member)
  choose! written branchSealed instructs using branches
  have opened : Sealed " \x7b".toList [.mark ['\x7b']] := rfl
  have closed : Sealed ['\x7d'] [.mark ['\x7d']] := rfl
  have first := sealed_line ⟨1, dispatch.head ++ " \x7b".toList⟩
    (headSpelled.append_sealed opened (apart_of_head rfl) (by simp)).spelled
  have second := sealed_line ⟨2, dispatch.gathering⟩ gatherSealed.spelled
  have middle := sealed_flatMap Overload.branchLines written dispatch.overloads branchSealed
  have failing := sealed_line ⟨2, dispatch.failure⟩ failSealed.spelled
  have last := sealed_line ⟨1, ['\x7d']⟩ closed.spelled
  have whole := (((first.append second).append middle).append failing).append last
  rw [← write_append, ← write_append, ← write_append, ← write_append] at whole
  have block := gathers.blocks (blocks_all written Overload.branch dispatch.overloads instructs
    (fails.blocks blocks_nil))
  refine ⟨_, ?_, defines _ _ block⟩
  simpa [implementationLines] using whole

/-- An overloaded member is read as its signatures and its implementation. -/
theorem definitions_of_dispatch :
    (lexemes (ScriptModule.write dispatch.lines)).bind definitions? =
      some (dispatch.overloads.map Overload.definition ++ [dispatch.definition]) := by
  have signatures := fun overload member =>
    Overload.sealed_signatureLines overload (readable.overloads overload member)
  choose! written signatureSealed defines using signatures
  obtain ⟨last, lastSealed, lastDefines⟩ := dispatch.sealed_implementationLines readable
  have whole := (sealed_flatMap Overload.signatureLines written dispatch.overloads
    signatureSealed).append lastSealed
  have implementation := lastDefines.definitions []
  rw [List.append_nil] at implementation
  rw [lines, write_append, lexemes_of_sealed whole, Option.bind_some,
    definitions_of_defines written Overload.definition dispatch.overloads defines, implementation]
  simp [definitions?]

end Dispatch

end Dispatches

end HeaderBindings
