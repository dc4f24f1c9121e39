import HeaderBindings.Model.ClassSet

/-!
Classes whose texts lack a character. Only the texts that a module of the class shows count: the
types of members are not among them, since a module shows none but script types.
-/

namespace HeaderBindings

variable {c : Char}

structure DocComment.Lacks (c : Char) (doc : DocComment) : Prop where
  description : c ∉ doc.description
  params : ∀ entry ∈ doc.params, c ∉ entry.2
  returns : c ∉ doc.returns

structure Parameter.Lacks (c : Char) (param : Parameter) : Prop where
  name : c ∉ param.name
  doc : c ∉ param.doc

structure Method.Lacks (c : Char) (method : Method) : Prop where
  selector : c ∉ method.selector
  params : ∀ param ∈ method.params, param.Lacks c
  availability : ∀ text ∈ method.availability, c ∉ text
  doc : c ∉ method.doc
  returnDoc : c ∉ method.returnDoc

structure Property.Lacks (c : Char) (property : Property) : Prop where
  name : c ∉ property.name
  getter : ∀ selector ∈ property.getter, c ∉ selector
  setter : ∀ selector ∈ property.setter, c ∉ selector
  availability : ∀ text ∈ property.availability, c ∉ text
  doc : c ∉ property.doc

structure ClassDecl.Lacks (c : Char) (decl : ClassDecl) : Prop where
  name : c ∉ decl.name
  doc : c ∉ decl.doc
  availability : ∀ text ∈ decl.availability, c ∉ text
  properties : ∀ property ∈ decl.properties, property.Lacks c
  methods : ∀ method ∈ decl.methods, method.Lacks c

theorem DocComment.lacks_empty (c : Char) : DocComment.Lacks c {} := ⟨by simp, by simp, by simp⟩

theorem Method.Lacks.withDoc {method : Method} (lacks : method.Lacks c) {doc : DocComment}
    (docs : doc.Lacks c) : (method.withDoc doc).Lacks c where
  selector := lacks.selector
  params := by
    intro param member
    obtain ⟨known, own, rfl⟩ := List.mem_map.mp member
    have named := (lacks.params known own).name
    unfold Method.describe
    split
    · next text found =>
      obtain ⟨entry, here, rfl⟩ := Option.map_eq_some_iff.mp found
      exact ⟨named, docs.params entry (List.mem_of_find?_eq_some here)⟩
    · exact lacks.params known own
  availability := lacks.availability
  doc := docs.description
  returnDoc := docs.returns

theorem Property.Lacks.withDoc {property : Property} (lacks : property.Lacks c) {doc : DocComment}
    (docs : doc.Lacks c) : (property.withDoc doc).Lacks c :=
  ⟨lacks.name, lacks.getter, lacks.setter, lacks.availability, docs.description⟩

namespace ClassDecl

variable {decl : ClassDecl} (lacks : decl.Lacks c)

include lacks in
theorem Lacks.addMethod {method : Method} (own : method.Lacks c) : (decl.addMethod method).Lacks c :=
  ⟨lacks.name, lacks.doc, lacks.availability, lacks.properties,
    List.forall_mem_append.mpr ⟨lacks.methods, by simpa using own⟩⟩

include lacks in
theorem Lacks.addProperty {property : Property} (own : property.Lacks c) :
    (decl.addProperty property).Lacks c :=
  ⟨lacks.name, lacks.doc, lacks.availability,
    List.forall_mem_append.mpr ⟨lacks.properties, by simpa using own⟩, lacks.methods⟩

theorem lacks_or {first second : Option Text} (here : ∀ text ∈ first, c ∉ text)
    (later : ∀ text ∈ second, c ∉ text) : ∀ text ∈ first.or second, c ∉ text := by
  cases first with
  | none => exact later
  | some known => exact here

include lacks in
theorem Lacks.merge {later : ClassDecl} (other : later.Lacks c) : (decl.merge later).Lacks c where
  name := lacks.name
  doc := by
    unfold ClassDecl.merge
    dsimp only
    split
    · exact other.doc
    · exact lacks.doc
  availability := lacks_or lacks.availability other.availability
  properties := List.forall_mem_append.mpr ⟨lacks.properties, other.properties⟩
  methods := List.forall_mem_append.mpr ⟨lacks.methods, other.methods⟩

end ClassDecl

end HeaderBindings
