import HeaderBindings.Proofs.Script.Controls

/-!
The lines of a generated module, one below the other. Where the names of a class are identifiers
and its other texts hold no line break, no text that its members are written from holds one.
-/

namespace HeaderBindings

section OneLine

namespace Text

/-- A text without line breaks. -/
def OneLine (text : Text) : Prop := '\n' ∉ text ∧ '\r' ∉ text

instance (text : Text) : Decidable (OneLine text) :=
  inferInstanceAs (Decidable ('\n' ∉ text ∧ '\r' ∉ text))

theorem oneLine_iff (text : Text) : OneLine text ↔ ∀ c ∈ text, c ≠ '\n' ∧ c ≠ '\r' := by
  constructor
  · rintro ⟨feed, return'⟩ c member
    exact ⟨fun same => feed (same ▸ member), fun same => return' (same ▸ member)⟩
  · exact fun free => ⟨fun feed => (free _ feed).1 rfl, fun return' => (free _ return').2 rfl⟩

@[simp] theorem oneLine_nil : OneLine [] := by decide

@[simp] theorem oneLine_append (left right : Text) :
    OneLine (left ++ right) ↔ OneLine left ∧ OneLine right := by
  simp only [oneLine_iff, List.mem_append, or_imp, forall_and]
  tauto

@[simp] theorem oneLine_cons (c : Char) (text : Text) :
    OneLine (c :: text) ↔ (c ≠ '\n' ∧ c ≠ '\r') ∧ OneLine text := by
  simp only [oneLine_iff, List.forall_mem_cons]

theorem OneLine.lacks {text : Text} (whole : OneLine text) {c : Char}
    (broken : c = '\n' ∨ c = '\r') : c ∉ text := by
  rcases broken with rfl | rfl
  · exact whole.1
  · exact whole.2

theorem oneLine_join (separator : Text) (parts : List Text) (between : OneLine separator)
    (each : ∀ part ∈ parts, OneLine part) : OneLine (join separator parts) :=
  ⟨lacks_join separator parts between.1 fun part member => (each part member).1,
    lacks_join separator parts between.2 fun part member => (each part member).2⟩

theorem oneLine_of_nameChars (text : Text) (chars : ∀ c ∈ text, Token.isNameChar c = true) :
    OneLine text := ⟨isControl_feed.nameChars text chars, isControl_return.nameChars text chars⟩

theorem oneLine_identifier (text : Text) (identifier : Reading.isIdentifier text = true) :
    OneLine text :=
  oneLine_of_nameChars text (Reading.nameChars_of_identifier text identifier).2

theorem oneLine_ofNat (n : Nat) : OneLine (ofNat n) :=
  oneLine_of_nameChars _ (Reading.nameChars_ofNat n)

theorem oneLine_staticPart (isStatic : Bool) : OneLine (staticPart isStatic) :=
  ⟨isControl_feed.staticPart isStatic, isControl_return.staticPart isStatic⟩

end Text

end OneLine

section Types

namespace ScriptType

theorem oneLine_text (type : ScriptType) : Text.OneLine type.text :=
  ⟨type.lacks_text isControl_feed, type.lacks_text isControl_return⟩

theorem text_ne_nil (type : ScriptType) : type.text ≠ [] := by
  cases type with
  | array element =>
    unfold text
    split <;> simp
  | map key value =>
    unfold text
    simp
  | set element =>
    unfold text
    simp
  | nullable inner =>
    unfold text
    simp
  | _ =>
    unfold text
    decide

end ScriptType

end Types

section Members

open Reading

namespace Statement

theorem oneLine_perform (call : Call) (whole : Text.OneLine call.text) :
    Text.OneLine (perform call).text :=
  ⟨lacks_perform isControl_feed call whole.1, lacks_perform isControl_return call whole.2⟩

theorem oneLine_giveBack (call : Call) (type : ScriptType) (whole : Text.OneLine call.text) :
    Text.OneLine (giveBack call type).text :=
  ⟨lacks_giveBack isControl_feed call type whole.1, lacks_giveBack isControl_return call type whole.2⟩

end Statement

namespace DocBlock

def Fits (block : DocBlock) : Prop := ∀ entry ∈ block, Text.OneLine entry

theorem oneLine_escape (text : Text) (whole : Text.OneLine text) : Text.OneLine (escape text) :=
  ⟨lacks_escape isControl_feed text whole.1, lacks_escape isControl_return text whole.2⟩

end DocBlock

/-- A signature with an identifier for a name, and texts without line breaks. -/
structure Signature.Fits (signature : Signature) : Prop where
  name : isIdentifier signature.name = true
  params : ∀ param ∈ signature.params, Text.OneLine param.name
  returns : Text.OneLine signature.returns.text
  typed : signature.returns.text ≠ []

structure Overload.Fits (overload : Overload) : Prop where
  doc : overload.doc.Fits
  signature : overload.signature.Fits
  body : Text.OneLine overload.body.text

structure Dispatch.Fits (dispatch : Dispatch) : Prop where
  name : isIdentifier dispatch.name = true
  base : Text.OneLine dispatch.base
  params : ∀ param ∈ dispatch.params,
    Text.OneLine param.name ∧ ∀ type ∈ param.types, Text.OneLine type
  written : dispatch.overloads ≠ []
  overloads : ∀ overload ∈ dispatch.overloads, overload.Fits ∧
    overload.signature.isStatic = dispatch.isStatic ∧ overload.signature.name = dispatch.name

/-- Names that are read as keys are identifiers, and no text of the member has a line break. -/
def ScriptMember.Fits : ScriptMember → Prop
  | getter doc _ name _ call | setter doc _ name _ call =>
    doc.Fits ∧ Text.OneLine name ∧ Text.OneLine call.text
  | function doc signature body => doc.Fits ∧ signature.Fits ∧ Text.OneLine body.text
  | overloaded dispatch => dispatch.Fits
  | incomplete _ name => isIdentifier name = true

end Members

section Declarations

open Reading

/-- A method whose documentation and availability hold no line break. -/
structure Method.Unbroken (method : Method) : Prop where
  doc : Text.OneLine method.doc
  returnDoc : Text.OneLine method.returnDoc
  params : ∀ param ∈ method.params, Text.OneLine param.doc
  availability : ∀ text ∈ method.availability, Text.OneLine text

/-- A property with an identifier for a name, if it has one, and no line break elsewhere. -/
structure Property.Unbroken (property : Property) : Prop where
  name : property.name = [] ∨ isIdentifier property.name = true
  getter : ∀ selector ∈ property.getter, Text.OneLine selector
  setter : ∀ selector ∈ property.setter, Text.OneLine selector
  doc : Text.OneLine property.doc
  availability : ∀ text ∈ property.availability, Text.OneLine text

/-- A class whose names are identifiers and whose other texts hold no line break. -/
structure ClassDecl.Unbroken (decl : ClassDecl) : Prop where
  named : decl.Named
  superclass : ∀ name ∈ decl.superclass, isIdentifier name = true
  doc : Text.OneLine decl.doc
  availability : ∀ text ∈ decl.availability, Text.OneLine text
  properties : ∀ property ∈ decl.properties, property.Unbroken
  methods : ∀ method ∈ decl.methods, method.Unbroken

section Lacks

variable {c : Char} (broken : c = '\n' ∨ c = '\r')

include broken

theorem Method.Unbroken.lacks {method : Method} (unbroken : method.Unbroken) (named : method.Named) :
    method.Lacks c where
  selector := by
    intro member
    rcases named.selector c member with name | rfl
    · rcases broken with rfl | rfl
      · exact absurd name (by decide)
      · exact absurd name (by decide)
    · rcases broken with same | same <;> cases same
  params := by
    intro param member
    refine ⟨?_, (unbroken.params param member).lacks broken⟩
    rcases named.params param member with empty | identifier
    · rw [empty]
      exact List.not_mem_nil
    · exact (Text.oneLine_identifier _ identifier).lacks broken
  availability := fun text known => (unbroken.availability text known).lacks broken
  doc := unbroken.doc.lacks broken
  returnDoc := unbroken.returnDoc.lacks broken

theorem Property.Unbroken.lacks {property : Property} (unbroken : property.Unbroken) :
    property.Lacks c where
  name := by
    rcases unbroken.name with empty | identifier
    · rw [empty]
      exact List.not_mem_nil
    · exact (Text.oneLine_identifier _ identifier).lacks broken
  getter := fun selector known => (unbroken.getter selector known).lacks broken
  setter := fun selector known => (unbroken.setter selector known).lacks broken
  availability := fun text known => (unbroken.availability text known).lacks broken
  doc := unbroken.doc.lacks broken

theorem ClassDecl.Unbroken.lacks {decl : ClassDecl} (unbroken : decl.Unbroken) : decl.Lacks c where
  name := (Text.oneLine_identifier _ unbroken.named.name).lacks broken
  doc := unbroken.doc.lacks broken
  availability := fun text known => (unbroken.availability text known).lacks broken
  properties := fun property known => (unbroken.properties property known).lacks broken
  methods := fun method known =>
    (unbroken.methods method known).lacks broken (unbroken.named.methods method known)

end Lacks

section Heads

/-- A signature whose name is read as a key, and which names a type that it returns. -/
structure Signature.Headed (signature : Signature) : Prop where
  name : isIdentifier signature.name = true
  typed : signature.returns.text ≠ []

structure Dispatch.Headed (dispatch : Dispatch) : Prop where
  name : isIdentifier dispatch.name = true
  written : dispatch.overloads ≠ []
  overloads : ∀ overload ∈ dispatch.overloads, overload.signature.Headed ∧
    overload.signature.isStatic = dispatch.isStatic ∧ overload.signature.name = dispatch.name

def ScriptMember.Headed : ScriptMember → Prop
  | function _ signature _ => signature.Headed
  | overloaded dispatch => dispatch.Headed
  | incomplete _ name => isIdentifier name = true
  | _ => True

theorem Signature.fits_of_lacks {signature : Signature} (headed : signature.Headed)
    (feed : signature.Lacks '\n') (back : signature.Lacks '\r') : signature.Fits :=
  ⟨headed.name, fun param own => ⟨feed.params param own, back.params param own⟩,
    ⟨feed.returns, back.returns⟩, headed.typed⟩

theorem DocBlock.fits_of_lacks {block : DocBlock} (feed : block.Lacks '\n')
    (back : block.Lacks '\r') : block.Fits :=
  fun entry member => ⟨feed entry member, back entry member⟩

theorem Dispatch.fits_of_lacks {dispatch : Dispatch} (headed : dispatch.Headed)
    (feed : dispatch.Lacks '\n') (back : dispatch.Lacks '\r') : dispatch.Fits where
  name := headed.name
  base := ⟨feed.base, back.base⟩
  params := by
    intro param own
    obtain ⟨named, typed⟩ := feed.params param own
    obtain ⟨named', typed'⟩ := back.params param own
    exact ⟨⟨named, named'⟩, fun type known => ⟨typed type known, typed' type known⟩⟩
  written := headed.written
  overloads := by
    intro overload own
    have without := feed.overloads overload own
    have without' := back.overloads overload own
    obtain ⟨signed, same⟩ := headed.overloads overload own
    exact ⟨⟨DocBlock.fits_of_lacks without.doc without'.doc,
      Signature.fits_of_lacks signed without.signature without'.signature,
      without.body, without'.body⟩, same⟩

/-- Nothing but heads and line breaks tells whether a member fits. -/
theorem ScriptMember.fits_of_lacks {member : ScriptMember} (headed : member.Headed)
    (feed : member.Lacks '\n') (back : member.Lacks '\r') : member.Fits := by
  cases member with
  | getter doc isStatic name type call =>
    exact ⟨DocBlock.fits_of_lacks feed.1 back.1, ⟨feed.2.1, back.2.1⟩, feed.2.2, back.2.2⟩
  | setter doc isStatic name type call =>
    exact ⟨DocBlock.fits_of_lacks feed.1 back.1, ⟨feed.2.1, back.2.1⟩, feed.2.2, back.2.2⟩
  | function doc signature body =>
    exact ⟨DocBlock.fits_of_lacks feed.1 back.1, Signature.fits_of_lacks headed feed.2.1 back.2.1,
      feed.2.2, back.2.2⟩
  | overloaded dispatch => exact Dispatch.fits_of_lacks headed feed back
  | incomplete isStatic name => exact headed

theorem Property.headed_members (property : Property) (className : Text) :
    ∀ member ∈ property.members className, member.Headed := by
  intro member inside
  unfold members at inside
  dsimp only at inside
  split at inside
  · cases inside
  · split at inside
    · rw [List.mem_singleton.mp inside]
      trivial
    · rcases List.mem_cons.mp inside with rfl | last
      · trivial
      · rw [List.mem_singleton.mp last]
        trivial

namespace OverloadGroup

variable (className : Text) (group : OverloadGroup) (written : className ≠ [])
  (named : group.Named) (sound : group.Sound)

include written named sound

theorem headed_signatureOf (method : Method) : (group.signatureOf className method).Headed where
  name := identifier_sanitize _ (group.identifier_base named sound)
  typed := by
    unfold signatureOf returnType
    dsimp only
    split
    · exact written
    · exact ScriptType.text_ne_nil _

theorem headed_member : (group.member className).Headed := by
  rcases group.single_or_several className with ⟨method, _, _, _, same⟩ | ⟨_, _, _, same⟩
  · rw [same]
    exact group.headed_signatureOf className written named sound method
  · rw [same]
    refine ⟨identifier_sanitize _ (group.identifier_base named sound), ?_, ?_⟩
    · simpa [dispatch, methods] using sound.inhabited
    · intro overload member
      obtain ⟨method, _, rfl⟩ := List.mem_map.mp member
      exact ⟨group.headed_signatureOf className written named sound method, rfl, rfl⟩

end OverloadGroup

theorem ClassDecl.headed_scriptMembers (decl : ClassDecl) (named : decl.Named) :
    ∀ member ∈ decl.scriptMembers, member.Headed := by
  have written := (nameChars_of_identifier _ named.name).1
  intro member inside
  unfold scriptMembers MemberPlan.members at inside
  simp only [List.mem_append, List.mem_flatMap, List.mem_map] at inside
  rcases inside with ⟨property, _, here⟩ |
    ((⟨setter, _, rfl⟩ | ⟨group, planned, rfl⟩) | ⟨entry, planned, rfl⟩)
  · exact property.headed_members decl.name member here
  · trivial
  · exact group.headed_member decl.name written (group.named_of_class decl named planned)
      ((MemberPlan.settled_ofClass decl).groups group planned).1
  · exact identifier_sanitize _ (named.methods _ (decl.method_of_incomplete entry planned)).base

end Heads

namespace ClassDecl

variable (decl : ClassDecl) (unbroken : decl.Unbroken)

include unbroken

theorem fits_docBlock : decl.docBlock.Fits :=
  DocBlock.fits_of_lacks (decl.lacks_docBlock isControl_feed (unbroken.lacks (Or.inl rfl)))
    (decl.lacks_docBlock isControl_return (unbroken.lacks (Or.inr rfl)))

/-- No text of a generated member holds a line break. -/
theorem fits_scriptMembers : ∀ member ∈ decl.scriptMembers, member.Fits := by
  intro member inside
  have feed := decl.lacks_scriptMembers isControl_feed (unbroken.lacks (Or.inl rfl)) member inside
  have back := decl.lacks_scriptMembers isControl_return (unbroken.lacks (Or.inr rfl)) member inside
  exact ScriptMember.fits_of_lacks (decl.headed_scriptMembers unbroken.named member inside) feed back

end ClassDecl

end Declarations

section Lines

/-- A line as it is written, less its line feed. -/
def ScriptLine.shown (line : ScriptLine) : Text :=
  (if line.text.isEmpty then [] else List.replicate (2 * line.depth) ' ') ++ line.text

theorem ScriptLine.shown_outer (text : Text) : shown ⟨0, text⟩ = text := by
  cases text <;> rfl

theorem ScriptModule.write_eq (lines : List ScriptLine) :
    write lines = Text.unlines (lines.map ScriptLine.shown) := by
  rw [write, Text.unlines, List.flatMap_map]
  rfl

theorem ScriptLine.lacks_shown {c : Char} (control : IsControl c) (line : ScriptLine)
    (lacks : c ∉ line.text) : c ∉ line.shown := by
  rw [shown, List.mem_append, not_or]
  refine ⟨?_, lacks⟩
  split
  · exact List.not_mem_nil
  · intro blank
    rw [List.eq_of_mem_replicate blank] at control
    exact absurd control (by decide)

end Lines

end HeaderBindings
