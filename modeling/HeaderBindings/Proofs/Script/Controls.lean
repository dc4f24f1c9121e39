import HeaderBindings.Proofs.Model.Lacking
import HeaderBindings.Proofs.Script.Legality
import HeaderBindings.Proofs.Text.Lines

/-!
Control characters in generated code. A module writes none of its own but the line feed behind each
line, so that a line holds one only where a text of the class does.
-/

namespace HeaderBindings

/-- A character below the blank. -/
def IsControl (c : Char) : Prop := c.toNat < 32

instance (c : Char) : Decidable (IsControl c) := inferInstanceAs (Decidable (c.toNat < 32))

theorem isControl_feed : IsControl '\n' := by decide

theorem isControl_return : IsControl '\r' := by decide

variable {c : Char}

namespace IsControl

variable (control : IsControl c)

include control

theorem plain (text : Text) (visible : ∀ d ∈ text, 32 ≤ d.toNat) : c ∉ text := by
  intro inside
  have above := visible c inside
  have below : c.toNat < 32 := control
  omega

theorem nameChars (text : Text) (chars : ∀ d ∈ text, Token.isNameChar d = true) : c ∉ text := by
  have codes : ∀ code < 32, Token.isNameChar (Char.ofNat code) = false := by decide
  intro inside
  have other := codes c.toNat control
  rw [Char.ofNat_toNat, chars c inside] at other
  cases other

theorem ofNat (n : Nat) : c ∉ Text.ofNat n := control.nameChars _ (Reading.nameChars_ofNat n)

theorem staticPart (isStatic : Bool) : c ∉ staticPart isStatic := by
  cases isStatic with
  | true => exact control.plain _ (by decide)
  | false => exact List.not_mem_nil

end IsControl

theorem Text.lacks_join (separator : Text) (parts : List Text) (between : c ∉ separator)
    (each : ∀ part ∈ parts, c ∉ part) : c ∉ join separator parts := by
  rw [mem_join_iff separator between]
  rintro ⟨part, member, own⟩
  exact each part member own

section Pieces

variable (control : IsControl c)

namespace Identifier

include control

theorem lacks_sanitize (name : Text) (lacks : c ∉ name) : c ∉ sanitize name := by
  unfold sanitize
  split
  · rw [List.mem_append, not_or]
    exact ⟨lacks, control.plain _ (by decide)⟩
  · exact lacks

theorem lacks_numbered (name : Text) (n : Nat) (lacks : c ∉ name) : c ∉ numbered name n := by
  simp only [numbered, List.mem_append, List.mem_cons, not_or]
  refine ⟨lacks, ?_, control.ofNat n⟩
  rintro rfl
  exact absurd control (by decide)

theorem toLower_ne (d : Char) (other : d ≠ c) : d.toLower ≠ c := by
  have below : c.toNat < 32 := control
  unfold Char.toLower
  split
  · next upper =>
    rintro rfl
    have low := UInt32.le_iff_toNat_le.mp upper.1
    have high := UInt32.le_iff_toNat_le.mp upper.2
    have sum : (d.val + ('a'.val - 'A'.val)).toNat < 32 := below
    have code : (d.val + ('a'.val - 'A'.val)).toNat = (d.val.toNat + 32) % 2 ^ 32 :=
      UInt32.toNat_add _ _
    have bounds : 65 ≤ d.val.toNat ∧ d.val.toNat ≤ 90 := ⟨low, high⟩
    omega
  · exact other

theorem toUpper_ne (d : Char) (other : d ≠ c) : d.toUpper ≠ c := by
  have below : c.toNat < 32 := control
  unfold Char.toUpper
  split
  · next lower =>
    rintro rfl
    have low := UInt32.le_iff_toNat_le.mp lower.1
    have high := UInt32.le_iff_toNat_le.mp lower.2
    have sum : (d.val + ('A'.val - 'a'.val)).toNat < 32 := below
    have code : (d.val + ('A'.val - 'a'.val)).toNat = (d.val.toNat + (2 ^ 32 - 32)) % 2 ^ 32 :=
      UInt32.toNat_add _ _
    have bounds : 97 ≤ d.val.toNat ∧ d.val.toNat ≤ 122 := ⟨low, high⟩
    omega
  · exact other

theorem lacks_lowerLeadingCapitals (name : Text) (lacks : c ∉ name) :
    c ∉ lowerLeadingCapitals name := by
  intro member
  rcases List.mem_append.mp member with front | back
  · obtain ⟨d, inside, same⟩ := List.mem_map.mp front
    refine toLower_ne control d ?_ same
    rintro rfl
    exact lacks (List.mem_of_mem_take inside)
  · exact lacks (List.mem_of_mem_drop back)

end Identifier

include control in
theorem ScriptType.lacks_text (type : ScriptType) : c ∉ type.text := by
  induction type with
  | array element ih =>
    unfold text
    split
    · simp only [List.mem_append, not_or]
      exact ⟨⟨control.plain _ (by decide), ih⟩, control.plain _ (by decide)⟩
    · simp only [List.mem_append, not_or]
      exact ⟨ih, control.plain _ (by decide)⟩
  | map key value keyFree valueFree =>
    unfold text
    simp only [List.mem_append, not_or]
    exact ⟨⟨⟨⟨control.plain _ (by decide), keyFree⟩, control.plain _ (by decide)⟩, valueFree⟩,
      control.plain _ (by decide)⟩
  | set element ih =>
    unfold text
    simp only [List.mem_append, not_or]
    exact ⟨⟨control.plain _ (by decide), ih⟩, control.plain _ (by decide)⟩
  | nullable inner ih =>
    unfold text
    simp only [List.mem_append, not_or]
    exact ⟨ih, control.plain _ (by decide)⟩
  | _ =>
    unfold text
    exact control.plain _ (by decide)

namespace Receiver

include control

theorem lacks_ofSide (className : Text) (isStatic : Bool) (lacks : c ∉ className) :
    c ∉ (ofSide className isStatic).text := by
  cases isStatic with
  | true =>
    change c ∉ ['"'] ++ className ++ ['"']
    simp only [List.mem_append, not_or]
    exact ⟨⟨control.plain _ (by decide), lacks⟩, control.plain _ (by decide)⟩
  | false => exact control.plain "this.handle".toList (by decide)

theorem lacks_fresh (className : Text) (lacks : c ∉ className) : c ∉ (fresh className).text := by
  unfold text
  simp only [List.mem_append, not_or]
  exact ⟨⟨control.plain _ (by decide), lacks⟩, control.plain _ (by decide)⟩

end Receiver

namespace CallArguments

include control

theorem lacks_named (names : List Text) (each : ∀ name ∈ names, c ∉ name) :
    c ∉ (named names).text := by
  intro member
  obtain ⟨name, known, inside⟩ := List.mem_flatMap.mp member
  rcases List.mem_append.mp inside with comma | here
  · exact control.plain _ (by decide) comma
  · exact each name known here

theorem lacks_all : c ∉ all.text := control.plain _ (by decide)

end CallArguments

include control in
theorem Call.lacks_text (call : Call) (receiver : c ∉ call.receiver.text)
    (selector : c ∉ call.selector) (arguments : c ∉ call.arguments.text) : c ∉ call.text := by
  unfold text
  simp only [List.mem_append, not_or]
  exact ⟨⟨⟨⟨⟨⟨control.plain _ (by decide), receiver⟩, control.plain _ (by decide)⟩, selector⟩,
    control.plain _ (by decide)⟩, arguments⟩, control.plain _ (by decide)⟩

namespace Statement

include control

theorem lacks_perform (call : Call) (lacks : c ∉ call.text) : c ∉ (perform call).text := by
  unfold text
  rw [List.mem_append, not_or]
  exact ⟨lacks, control.plain _ (by decide)⟩

theorem lacks_giveBack (call : Call) (type : ScriptType) (lacks : c ∉ call.text) :
    c ∉ (giveBack call type).text := by
  unfold text
  simp only [List.mem_append, not_or]
  exact ⟨⟨⟨⟨control.plain _ (by decide), lacks⟩, control.plain _ (by decide)⟩,
    type.lacks_text control⟩, control.plain _ (by decide)⟩

theorem lacks_construct (className : Text) (call : Call) (name : c ∉ className)
    (lacks : c ∉ call.text) : c ∉ (construct className call).text := by
  unfold text
  simp only [List.mem_append, not_or]
  exact ⟨⟨⟨⟨control.plain _ (by decide), name⟩, control.plain _ (by decide)⟩, lacks⟩,
    control.plain _ (by decide)⟩

end Statement

end Pieces

section Members

/-- A documentation block none of whose entries holds a character. -/
def DocBlock.Lacks (c : Char) (block : DocBlock) : Prop := ∀ entry ∈ block, c ∉ entry

structure Signature.Lacks (c : Char) (signature : Signature) : Prop where
  name : c ∉ signature.name
  params : ∀ param ∈ signature.params, c ∉ param.name
  returns : c ∉ signature.returns.text

structure Overload.Lacks (c : Char) (overload : Overload) : Prop where
  doc : overload.doc.Lacks c
  signature : overload.signature.Lacks c
  body : c ∉ overload.body.text

structure Dispatch.Lacks (c : Char) (dispatch : Dispatch) : Prop where
  name : c ∉ dispatch.name
  base : c ∉ dispatch.base
  params : ∀ param ∈ dispatch.params, c ∉ param.name ∧ ∀ type ∈ param.types, c ∉ type
  overloads : ∀ overload ∈ dispatch.overloads, overload.Lacks c

/-- A member none of whose texts holds a character. -/
def ScriptMember.Lacks (c : Char) : ScriptMember → Prop
  | getter doc _ name _ call | setter doc _ name _ call => doc.Lacks c ∧ c ∉ name ∧ c ∉ call.text
  | function doc signature body => doc.Lacks c ∧ signature.Lacks c ∧ c ∉ body.text
  | overloaded dispatch => dispatch.Lacks c
  | incomplete _ name => c ∉ name

variable (control : IsControl c)

namespace DocBlock

theorem lacks_append {first second : DocBlock} (left : first.Lacks c) (right : second.Lacks c) :
    DocBlock.Lacks c (first ++ second) := List.forall_mem_append.mpr ⟨left, right⟩

theorem lacks_entry (text : Text) (lacks : c ∉ text) :
    DocBlock.Lacks c (if text.isEmpty then [] else [text]) := by
  intro entry member
  split at member
  · cases member
  · rw [List.mem_singleton.mp member]
    exact lacks

include control

theorem lacks_since (availability : Option Text) (each : ∀ text ∈ availability, c ∉ text) :
    DocBlock.Lacks c (availability.map ("@since ".toList ++ ·)).toList := by
  intro entry member
  cases availability with
  | none => cases member
  | some text =>
    rw [Option.map_some, Option.toList_some, List.mem_singleton] at member
    rw [member, List.mem_append, not_or]
    exact ⟨control.plain _ (by decide), each text rfl⟩

theorem lacks_escape (text : Text) (lacks : c ∉ text) : c ∉ escape text := by
  have star : c ≠ '*' := by
    rintro rfl
    exact absurd control (by decide)
  have slash : c ≠ '/' := by
    rintro rfl
    exact absurd control (by decide)
  have back : c ≠ '\\' := by
    rintro rfl
    exact absurd control (by decide)
  induction text using escape.induct with
  | case1 text ih =>
    simp only [List.mem_cons, not_or] at lacks
    simp only [escape, List.mem_cons, not_or]
    exact ⟨star, back, slash, ih lacks.2.2⟩
  | case2 d text other ih =>
    simp only [List.mem_cons, not_or] at lacks
    simp only [escape.eq_2 d text other, List.mem_cons, not_or]
    exact ⟨lacks.1, ih lacks.2⟩
  | case3 => exact List.not_mem_nil

theorem lacks_lines (depth : Nat) (block : DocBlock) (lacks : block.Lacks c) :
    ∀ line ∈ block.lines depth, c ∉ line.text := by
  intro line member
  unfold lines at member
  split at member
  · cases member
  · simp only [List.mem_append, List.mem_singleton, List.mem_map] at member
    rcases member with (rfl | ⟨entry, known, rfl⟩) | rfl
    · exact control.plain "/**".toList (by decide)
    · rw [List.mem_append, not_or]
      exact ⟨control.plain _ (by decide), lacks_escape control entry (lacks entry known)⟩
    · exact control.plain " */".toList (by decide)

end DocBlock

include control in
theorem Signature.lacks_text (signature : Signature) (lacks : signature.Lacks c) :
    c ∉ signature.text := by
  have params : c ∉ Text.join ", ".toList (signature.params.map ScriptParam.text) := by
    apply Text.lacks_join _ _ (control.plain _ (by decide))
    intro text member
    obtain ⟨param, own, rfl⟩ := List.mem_map.mp member
    unfold ScriptParam.text
    simp only [List.mem_append, not_or]
    exact ⟨⟨lacks.params param own, control.plain _ (by decide)⟩, param.type.lacks_text control⟩
  unfold text
  simp only [List.mem_append, not_or]
  exact ⟨⟨⟨⟨⟨control.staticPart _, lacks.name⟩, control.plain _ (by decide)⟩, params⟩,
    control.plain _ (by decide)⟩, lacks.returns⟩

namespace Overload

variable (overload : Overload) (lacks : overload.Lacks c)

include control lacks

theorem lacks_signatureLines : ∀ line ∈ overload.signatureLines, c ∉ line.text := by
  intro line member
  rcases List.mem_append.mp member with documented | signed
  · exact DocBlock.lacks_lines control 1 _ lacks.doc line documented
  · rw [List.mem_singleton.mp signed, List.mem_append, not_or]
    exact ⟨overload.signature.lacks_text control lacks.signature, control.plain _ (by decide)⟩

theorem lacks_branchLines : ∀ line ∈ overload.branchLines, c ∉ line.text := by
  have test : c ∉ "if (args.length === ".toList ++ Text.ofNat overload.arity ++ ") \x7b".toList := by
    simp only [List.mem_append, not_or]
    exact ⟨⟨control.plain _ (by decide), control.ofNat _⟩, control.plain _ (by decide)⟩
  intro line member
  unfold branchLines at member
  simp only [List.mem_append, List.mem_cons, List.not_mem_nil, or_false] at member
  rcases member with ((rfl | rfl) | left) | rfl
  · exact test
  · exact lacks.body
  · split at left
    · cases left
    · rw [List.mem_singleton.mp left]
      exact control.plain _ (by decide)
  · exact control.plain _ (by decide)

end Overload

namespace Dispatch

variable (dispatch : Dispatch) (lacks : dispatch.Lacks c)

include control lacks

theorem lacks_head : c ∉ dispatch.head := by
  have params : c ∉ Text.join ", ".toList
      (dispatch.params.map UnionParam.text ++ ["...rest: unknown[]".toList]) := by
    apply Text.lacks_join _ _ (control.plain _ (by decide))
    intro text member
    rcases List.mem_append.mp member with listed | rest
    · obtain ⟨param, own, rfl⟩ := List.mem_map.mp listed
      obtain ⟨name, types⟩ := lacks.params param own
      unfold UnionParam.text
      simp only [List.mem_append, not_or]
      exact ⟨⟨name, control.plain _ (by decide)⟩,
        Text.lacks_join _ _ (control.plain _ (by decide)) types⟩
    · rw [List.mem_singleton.mp rest]
      exact control.plain _ (by decide)
  have returns : c ∉ Text.join " | ".toList dispatch.returns := by
    apply Text.lacks_join _ _ (control.plain _ (by decide))
    intro type member
    rcases mem_adopt _ _ _ member with none | given
    · cases none
    · obtain ⟨overload, own, rfl⟩ := List.mem_map.mp given
      exact (lacks.overloads overload own).signature.returns
  unfold head
  simp only [List.mem_append, not_or]
  exact ⟨⟨⟨⟨⟨control.staticPart _, lacks.name⟩, control.plain _ (by decide)⟩, params⟩,
    control.plain _ (by decide)⟩, returns⟩

theorem lacks_gathering : c ∉ dispatch.gathering := by
  have names : c ∉ Text.join ", ".toList (dispatch.params.map (·.name) ++ ["...rest".toList]) := by
    apply Text.lacks_join _ _ (control.plain _ (by decide))
    intro text member
    rcases List.mem_append.mp member with listed | rest
    · obtain ⟨param, own, rfl⟩ := List.mem_map.mp listed
      exact (lacks.params param own).1
    · rw [List.mem_singleton.mp rest]
      exact control.plain _ (by decide)
  unfold gathering
  simp only [List.mem_append, not_or]
  exact ⟨⟨control.plain _ (by decide), names⟩, control.plain _ (by decide)⟩

theorem lacks_lines : ∀ line ∈ dispatch.lines, c ∉ line.text := by
  have failure : c ∉ dispatch.failure := by
    unfold Dispatch.failure
    simp only [List.mem_append, not_or]
    exact ⟨⟨control.plain _ (by decide), lacks.base⟩, control.plain _ (by decide)⟩
  have opening : c ∉ dispatch.head ++ " \x7b".toList := by
    rw [List.mem_append, not_or]
    exact ⟨dispatch.lacks_head control lacks, control.plain _ (by decide)⟩
  intro line member
  unfold lines implementationLines at member
  simp only [List.mem_append, List.mem_flatMap, List.mem_cons, List.not_mem_nil, or_false] at member
  rcases member with ⟨overload, own, inside⟩ |
    ((rfl | rfl) | ⟨overload, own, inside⟩) | (rfl | rfl)
  · exact overload.lacks_signatureLines control (lacks.overloads overload own) line inside
  · exact opening
  · exact dispatch.lacks_gathering control lacks
  · exact overload.lacks_branchLines control (lacks.overloads overload own) line inside
  · exact failure
  · exact control.plain _ (by decide)

end Dispatch

namespace ScriptMember

include control

theorem lacks_block (doc : DocBlock) (head : Text) (body : Statement) (documented : doc.Lacks c)
    (opening : c ∉ head) (inside : c ∉ body.text) : ∀ line ∈ block doc head body, c ∉ line.text := by
  intro line member
  unfold block at member
  simp only [List.mem_append, List.mem_cons, List.not_mem_nil, or_false] at member
  rcases member with above | rfl | rfl | rfl
  · exact DocBlock.lacks_lines control 1 doc documented line above
  · rw [List.mem_append, not_or]
    exact ⟨opening, control.plain _ (by decide)⟩
  · exact inside
  · exact control.plain _ (by decide)

theorem lacks_lines (member : ScriptMember) (lacks : member.Lacks c) :
    ∀ line ∈ member.lines, c ∉ line.text := by
  cases member with
  | getter doc isStatic name type call =>
    obtain ⟨documented, named, called⟩ := lacks
    apply lacks_block control doc _ _ documented
    · simp only [List.mem_append, not_or]
      exact ⟨⟨⟨⟨control.staticPart _, control.plain _ (by decide)⟩, named⟩,
        control.plain _ (by decide)⟩, type.lacks_text control⟩
    · exact Statement.lacks_giveBack control call type called
  | setter doc isStatic name type call =>
    obtain ⟨documented, named, called⟩ := lacks
    apply lacks_block control doc _ _ documented
    · simp only [List.mem_append, not_or]
      exact ⟨⟨⟨⟨⟨control.staticPart _, control.plain _ (by decide)⟩, named⟩,
        control.plain _ (by decide)⟩, type.lacks_text control⟩, control.plain _ (by decide)⟩
    · exact Statement.lacks_perform control call called
  | function doc signature body =>
    obtain ⟨documented, signed, called⟩ := lacks
    exact lacks_block control doc _ _ documented (signature.lacks_text control signed) called
  | overloaded dispatch => exact dispatch.lacks_lines control lacks
  | incomplete isStatic name =>
    intro line inside
    rw [List.mem_singleton.mp inside]
    simp only [List.mem_append, not_or]
    exact ⟨⟨⟨control.plain _ (by decide), control.plain _ (by decide)⟩, control.staticPart _⟩, lacks⟩

theorem lacks_allLines (members : List ScriptMember) (lacks : ∀ member ∈ members, member.Lacks c) :
    ∀ line ∈ allLines members, c ∉ line.text := by
  induction members using allLines.induct with
  | case1 => simp [allLines]
  | case2 member => exact member.lacks_lines control (lacks member List.mem_cons_self)
  | case3 member next later ih =>
    obtain ⟨here, others⟩ := List.forall_mem_cons.mp lacks
    intro line inside
    rw [allLines] at inside
    simp only [List.mem_append, List.mem_singleton] at inside
    rcases inside with (own | rfl) | below
    · exact member.lacks_lines control here line own
    · exact List.not_mem_nil
    · exact ih others line below

end ScriptMember

end Members

section Declarations

variable (control : IsControl c)

include control in
theorem ClassDecl.lacks_docBlock (decl : ClassDecl) (lacks : decl.Lacks c) :
    decl.docBlock.Lacks c :=
  DocBlock.lacks_append (DocBlock.lacks_entry _ lacks.doc)
    (DocBlock.lacks_since control _ lacks.availability)

namespace Property

variable (property : Property) (lacks : property.Lacks c)

include lacks in
theorem lacks_getterSelector : c ∉ property.getterSelector := by
  unfold getterSelector
  cases given : property.getter with
  | none => exact lacks.name
  | some selector => exact lacks.getter selector given

include control lacks

theorem lacks_setterSelector : c ∉ property.setterSelector := by
  unfold setterSelector
  cases given : property.setter with
  | some selector => exact lacks.setter selector given
  | none =>
    have name := lacks.name
    rw [Option.getD_none]
    cases written : property.name with
    | nil => exact List.not_mem_nil
    | cons d rest =>
      rw [written, List.mem_cons, not_or] at name
      have capital : c ≠ d.toUpper := (Identifier.toUpper_ne control d (Ne.symm name.1)).symm
      unfold conventionalSetter
      rw [List.mem_append, List.mem_append, List.mem_cons]
      simp only [not_or]
      exact ⟨⟨control.plain _ (by decide), capital, name.2⟩, control.plain [':'] (by decide)⟩

theorem lacks_docBlock : property.docBlock.Lacks c :=
  DocBlock.lacks_append (DocBlock.lacks_entry _ lacks.doc)
    (DocBlock.lacks_since control _ lacks.availability)

theorem lacks_members (className : Text) (named : c ∉ className) :
    ∀ member ∈ property.members className, member.Lacks c := by
  have doc := property.lacks_docBlock control lacks
  have name := Identifier.lacks_sanitize control _ lacks.name
  have receiver := Receiver.lacks_ofSide control className property.isClass named
  have getter : c ∉ (Call.mk (Receiver.ofSide className property.isClass) property.getterSelector
      (.named [])).text :=
    Call.lacks_text control _ receiver (property.lacks_getterSelector lacks)
      (CallArguments.lacks_named control _ (by simp))
  have setter : c ∉ (Call.mk (Receiver.ofSide className property.isClass) property.setterSelector
      (.named ["value".toList])).text :=
    Call.lacks_text control _ receiver (property.lacks_setterSelector control lacks)
      (CallArguments.lacks_named control _
        (List.forall_mem_singleton.mpr (control.plain _ (by decide))))
  intro member inside
  unfold members at inside
  dsimp only at inside
  split at inside
  · cases inside
  · split at inside
    · rw [List.mem_singleton.mp inside]
      exact ⟨doc, name, getter⟩
    · rcases List.mem_cons.mp inside with rfl | last
      · exact ⟨doc, name, getter⟩
      · rw [List.mem_singleton.mp last]
        exact ⟨fun _ none => (nomatch none), name, setter⟩

end Property

namespace Method

variable (method : Method) (lacks : method.Lacks c)

include lacks in
theorem lacks_baseName : c ∉ method.baseName :=
  fun inside => lacks.selector ((List.takeWhile_sublist _).mem inside)

include control lacks

theorem lacks_paramNames : ∀ name ∈ method.paramNames, c ∉ name := by
  have wished : ∀ param ∈ method.params.zipIdx, c ∉ param.1.wishedName param.2 := by
    intro param member
    have own := lacks.params param.1 (List.fst_mem_of_mem_zipIdx member)
    unfold Parameter.wishedName
    split
    · rw [List.mem_append, not_or]
      exact ⟨control.plain _ (by decide), control.ofNat _⟩
    · exact Identifier.lacks_sanitize control _ own.name
  intro name member
  obtain ⟨base, known, form⟩ := Identifier.mem_distinct _ _ name member
  obtain ⟨param, own, rfl⟩ := List.mem_map.mp known
  rcases form with rfl | ⟨n, rfl⟩
  · exact wished param own
  · exact Identifier.lacks_numbered control _ n (wished param own)

theorem lacks_docBlock : method.docBlock.Lacks c := by
  have params : DocBlock.Lacks c
      ((List.zipWith paramEntry method.paramNames method.params).filterMap id) := by
    intro entry member
    obtain ⟨given, inside, here⟩ := List.mem_filterMap.mp member
    rw [← List.map_uncurry_zip_eq_zipWith] at inside
    obtain ⟨⟨name, param⟩, both, rfl⟩ := List.mem_map.mp inside
    obtain ⟨known, own⟩ := List.of_mem_zip both
    have written : paramEntry name param = some entry := here
    unfold paramEntry at written
    split at written
    · cases written
    · cases written
      have blank : c ≠ ' ' := by
        rintro rfl
        exact absurd control (by decide)
      simp only [List.mem_append, List.mem_cons, not_or]
      exact ⟨⟨control.plain _ (by decide), method.lacks_paramNames control lacks name known⟩, blank,
        (lacks.params param own).doc⟩
  have returns : DocBlock.Lacks c
      (if method.returnDoc.isEmpty then [] else ["@returns ".toList ++ method.returnDoc]) := by
    intro entry member
    split at member
    · cases member
    · rw [List.mem_singleton.mp member, List.mem_append, not_or]
      exact ⟨control.plain _ (by decide), lacks.returnDoc⟩
  exact DocBlock.lacks_append (DocBlock.lacks_append
    (DocBlock.lacks_append (DocBlock.lacks_entry _ lacks.doc) params) returns)
    (DocBlock.lacks_since control _ lacks.availability)

end Method

namespace OverloadGroup

variable (className : Text) (group : OverloadGroup) (named : c ∉ className)
  (lacks : ∀ method ∈ group.methods, method.Lacks c)

include control named in
theorem lacks_statement (method : Method) (own : method.Lacks c) (arguments : CallArguments)
    (free : c ∉ arguments.text) : c ∉ (group.statement className method arguments).text := by
  have call := Call.lacks_text control ⟨.ofSide className method.isStatic, method.selector, arguments⟩
    (Receiver.lacks_ofSide control className method.isStatic named) own.selector free
  unfold statement
  split
  · exact Statement.lacks_construct control className _ named
      (Call.lacks_text control ⟨.fresh className, method.selector, arguments⟩
        (Receiver.lacks_fresh control className named) own.selector free)
  · dsimp only
    split
    · exact Statement.lacks_perform control _ call
    · exact Statement.lacks_giveBack control _ _ call

variable (base : c ∉ group.base)

include control named base in
theorem lacks_signatureOf (method : Method) (own : method.Lacks c) :
    (group.signatureOf className method).Lacks c where
  name := Identifier.lacks_sanitize control _ base
  params := by
    intro param member
    obtain ⟨i, inside, rfl⟩ := List.mem_iff_getElem.mp member
    simp only [signatureOf, Method.scriptParams, List.getElem_zipWith]
    exact method.lacks_paramNames control own _ (List.getElem_mem _)
  returns := by
    unfold signatureOf returnType
    dsimp only
    split
    · exact named
    · exact ScriptType.lacks_text control _

include control named lacks base

theorem lacks_dispatch : (group.dispatch className).Lacks c where
  name := Identifier.lacks_sanitize control _ base
  base := base
  params := by
    intro param member
    refine ⟨?_, fun type known => ?_⟩
    · obtain ⟨method, own, name, known, form⟩ :=
        group.mem_unionNames param.name (List.mem_map.mpr ⟨param, member, rfl⟩)
      have free := method.lacks_paramNames control (lacks method own) name known
      rcases form with same | ⟨n, same⟩
      · exact same ▸ free
      · exact same ▸ Identifier.lacks_numbered control name n free
    · obtain ⟨own, rfl⟩ := group.type_of_unionParams param member type known
      exact own.lacks_text control
  overloads := by
    intro overload member
    obtain ⟨method, own, rfl⟩ := List.mem_map.mp member
    have free := lacks method own
    exact ⟨method.lacks_docBlock control free, group.lacks_signatureOf control className named base
      method free, group.lacks_statement control className named method free .all
        (CallArguments.lacks_all control)⟩

theorem lacks_member : (group.member className).Lacks c := by
  rcases group.single_or_several className with
    ⟨method, alone, _, _, same⟩ | ⟨_, _, _, same⟩
  · have free := lacks method (by simp [alone])
    rw [same]
    exact ⟨method.lacks_docBlock control free,
      group.lacks_signatureOf control className named base method free,
      group.lacks_statement control className named method free _
        (CallArguments.lacks_named control _ (method.lacks_paramNames control free))⟩
  · rw [same]
    exact group.lacks_dispatch control className named lacks base

end OverloadGroup

namespace ClassDecl

variable (decl : ClassDecl)

theorem method_of_placed (entry : Entry) (placed : entry ∈ (MemberPlan.ofClass decl).placed) :
    entry.method ∈ decl.methods := by
  have declared := (MemberPlan.placed_ofClass decl).mem_iff.mp placed
  exact List.mem_of_getElem? (MemberPlan.method_at decl entry declared)

theorem method_of_setter (setter : SetterAccessor)
    (planned : setter ∈ (MemberPlan.ofClass decl).setters) : setter.entry.method ∈ decl.methods := by
  apply decl.method_of_placed setter.entry
  simp only [MemberPlan.placed, List.mem_append, List.mem_map]
  exact Or.inl (Or.inl (Or.inl ⟨setter, planned, rfl⟩))

theorem method_of_group (group : OverloadGroup)
    (planned : group ∈ (MemberPlan.ofClass decl).groups) :
    ∀ method ∈ group.methods, method ∈ decl.methods := by
  intro method own
  obtain ⟨entry, member, rfl⟩ := List.mem_map.mp own
  apply decl.method_of_placed entry
  simp only [MemberPlan.placed, List.mem_append, List.mem_flatMap]
  exact Or.inl (Or.inl (Or.inr ⟨group, planned, member⟩))

theorem method_of_incomplete (entry : Entry)
    (planned : entry ∈ (MemberPlan.ofClass decl).incomplete) : entry.method ∈ decl.methods := by
  apply decl.method_of_placed entry
  simp only [MemberPlan.placed, List.mem_append]
  exact Or.inl (Or.inr planned)

variable (lacks : decl.Lacks c)

include control lacks

theorem lacks_setter (setter : SetterAccessor)
    (planned : setter ∈ (MemberPlan.ofClass decl).setters) : setter.member.Lacks c := by
  have own := lacks.methods _ (decl.method_of_setter setter planned)
  have place := ((MemberPlan.settled_ofClass decl).setters setter planned).2
  have name : c ∉ setter.name := by
    have found := MemberPlan.setterProperty_of_destination decl _ _ place
    have base := Method.lacks_baseName _ own
    unfold MemberPlan.setterProperty? at found
    split at found
    · cases found
    · split at found
      · next d rest after =>
        split at found
        · rw [← Option.some.inj found]
          rw [(Text.after_eq_some_iff _ _ _).mp after, List.mem_append, not_or] at base
          exact Identifier.lacks_lowerLeadingCapitals control _ base.2
        · cases found
      · cases found
  exact ⟨setter.entry.method.lacks_docBlock control own, Identifier.lacks_sanitize control _ name,
    Call.lacks_text control _ (control.plain "this.handle".toList (by decide)) own.selector
      (CallArguments.lacks_named control _
        (List.forall_mem_singleton.mpr (control.plain _ (by decide))))⟩

/-- No text of a generated member holds a control character that no text of its class holds. -/
theorem lacks_scriptMembers : ∀ member ∈ decl.scriptMembers, member.Lacks c := by
  intro member inside
  unfold scriptMembers MemberPlan.members at inside
  simp only [List.mem_append, List.mem_flatMap, List.mem_map] at inside
  rcases inside with ⟨property, own, here⟩ |
    ((⟨setter, planned, rfl⟩ | ⟨group, planned, rfl⟩) | ⟨entry, planned, rfl⟩)
  · exact property.lacks_members control (lacks.properties property own) decl.name lacks.name member
      here
  · exact decl.lacks_setter control lacks setter planned
  · have own : ∀ method ∈ group.methods, method.Lacks c :=
      fun method known => lacks.methods method (decl.method_of_group group planned method known)
    have sound := ((MemberPlan.settled_ofClass decl).groups group planned).1
    have base : c ∉ group.base := by
      obtain ⟨entry, first⟩ := List.exists_mem_of_ne_nil _ sound.inhabited
      have same : entry.method.baseName = group.base := congrArg Prod.snd (sound.key entry first)
      rw [← same]
      exact Method.lacks_baseName _ (own _ (List.mem_map.mpr ⟨entry, first, rfl⟩))
    exact group.lacks_member control decl.name lacks.name own base
  · have own := lacks.methods _ (decl.method_of_incomplete entry planned)
    exact Identifier.lacks_sanitize control _ (Method.lacks_baseName _ own)

end ClassDecl

end Declarations

end HeaderBindings
