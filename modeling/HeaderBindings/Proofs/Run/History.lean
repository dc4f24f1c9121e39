import HeaderBindings.Proofs.Header.Gathering
import HeaderBindings.Proofs.Run.Independence
import HeaderBindings.Proofs.Text.Adoption
import Mathlib.Data.List.Induction

/-!
What a class set is after a whole history of insertions and warnings. A step adds a name behind the
known ones or merges into the class of a name; a run from the empty set therefore has for each name
what all its declarations say together, in the order in which the names are first inserted.
-/

namespace HeaderBindings

namespace Finding

def class? : Finding → Option ClassDecl
  | declared decl => some decl
  | _ => none

def diagnostic? : Finding → Option Diagnostic
  | warned diagnostic => some diagnostic
  | _ => none

end Finding

/-- The classes that a history inserts, and the warnings that it records. -/
def inserted (history : List Finding) : List ClassDecl := history.filterMap Finding.class?

def recorded (history : List Finding) : List Diagnostic := history.filterMap Finding.diagnostic?

section Texts

/-- The first text that is not empty. -/
def firstWritten (texts : List Text) : Text := (texts.find? (!·.isEmpty)).getD []

theorem firstWritten_concat (texts : List Text) (text : Text) :
    firstWritten (texts ++ [text]) =
      if (firstWritten texts).isEmpty then text else firstWritten texts := by
  induction texts with
  | nil => cases text <;> rfl
  | cons first texts ih =>
    cases first with
    | nil => exact ih
    | cons c first => rfl

end Texts

namespace ClassDecl

/-- What all declarations of a name among some say together. -/
def gather (decls : List ClassDecl) (name : Text) : ClassDecl :=
  let own := decls.filter (·.name = name)
  { name := name
    superclass := own.findSome? (·.superclass)
    protocols := (own.flatMap (·.protocols)).eraseDups
    properties := own.flatMap (·.properties)
    methods := own.flatMap (·.methods)
    doc := firstWritten (own.map (·.doc))
    availability := own.findSome? (·.availability) }

theorem gather_concat (decls : List ClassDecl) (decl : ClassDecl) (name : Text) :
    gather (decls ++ [decl]) name =
      if decl.name = name then (gather decls name).merge decl else gather decls name := by
  by_cases same : decl.name = name
  · have own : (decls ++ [decl]).filter (·.name = name) = decls.filter (·.name = name) ++ [decl] := by
      simp [same]
    rw [if_pos same]
    simp [gather, merge, own, firstWritten_concat, adopt_eraseDups, List.findSome?_append]
  · simp [gather, same]

-- The first declaration of a name is all that is said of it.
theorem merge_gather_fresh (decls : List ClassDecl) (decl : ClassDecl)
    (fresh : decl.name ∉ decls.map (·.name)) (apart : decl.protocols.Nodup) :
    (gather decls decl.name).merge decl = decl := by
  have none : decls.filter (·.name = decl.name) = [] := by
    refine List.filter_eq_nil_iff.mpr fun other member same => fresh ?_
    exact List.mem_map.mpr ⟨other, member, by simpa using same⟩
  have once : adopt [] decl.protocols = decl.protocols := by
    have adopted := adopt_eraseDups [] decl.protocols
    rwa [List.nil_append, eraseDups_of_nodup _ apart] at adopted
  simp [gather, none, merge, firstWritten, once]

end ClassDecl

namespace ClassSet

/-- A class set that has what a history says of each name. -/
structure Collects (set : ClassSet) (history : List Finding) : Prop where
  names : set.names = ((inserted history).map (·.name)).eraseDups
  get : ∀ name ∈ (inserted history).map (·.name),
    set.get? name = some (ClassDecl.gather (inserted history) name)
  absent : ∀ name ∉ (inserted history).map (·.name), set.get? name = none
  diagnostics : set.diagnostics = recorded history

theorem collects_insert {set : ClassSet} {history : List Finding} (collects : set.Collects history)
    (decl : ClassDecl) (apart : decl.protocols.Nodup) :
    (set.insert decl).Collects (history ++ [.declared decl]) := by
  have behind : inserted (history ++ [.declared decl]) = inserted history ++ [decl] := by
    simp [inserted, Finding.class?]
  refine ⟨?_, fun name member => ?_, fun name other => ?_, ?_⟩
  · have names : (set.insert decl).names =
        if decl.name ∈ set.names then set.names else set.names ++ [decl.name] :=
      names_insertInto decl set.classes
    rw [behind, List.map_append, List.map_singleton, eraseDups_concat, names, collects.names]
    simp
  · rw [get_insert, behind, ClassDecl.gather_concat]
    by_cases same : decl.name = name
    · subst same
      by_cases old : decl.name ∈ (inserted history).map (·.name)
      · simp [collects.get _ old]
      · have first := ClassDecl.merge_gather_fresh _ decl old apart
        simp [collects.absent _ old, first]
    · have old : name ∈ (inserted history).map (·.name) := by
        simpa [behind, Ne.symm same] using member
      simp [same, collects.get name old]
  · rw [behind, List.map_append, List.mem_append, not_or] at other
    have apart : decl.name ≠ name := fun same => other.2 (by simp [same])
    rw [get_insert, if_neg apart, collects.absent name other.1]
  · have silent : recorded (history ++ [.declared decl]) = recorded history := by
      simp [recorded, Finding.diagnostic?]
    exact silent ▸ collects.diagnostics

theorem collects_record {set : ClassSet} {history : List Finding} (collects : set.Collects history)
    (finding : Finding) (apart : ∀ decl ∈ finding.class?, decl.protocols.Nodup) :
    (set.record finding).Collects (history ++ [finding]) := by
  cases finding with
  | declared decl => exact collects_insert collects decl (apart decl rfl)
  | warned diagnostic =>
    have same : inserted (history ++ [.warned diagnostic]) = inserted history := by
      simp [inserted, Finding.class?]
    have behind : recorded (history ++ [.warned diagnostic]) = recorded history ++ [diagnostic] := by
      simp [recorded, Finding.diagnostic?]
    refine ⟨same ▸ collects.names, same ▸ collects.get, same ▸ collects.absent, ?_⟩
    rw [behind, ← collects.diagnostics]
    rfl
  | noted event =>
    have same : inserted (history ++ [.noted event]) = inserted history := by
      simp [inserted, Finding.class?]
    have silent : recorded (history ++ [.noted event]) = recorded history := by
      simp [recorded, Finding.diagnostic?]
    exact ⟨same ▸ collects.names, same ▸ collects.get, same ▸ collects.absent,
      silent ▸ collects.diagnostics⟩

theorem collects_recordAll (history : List Finding)
    (apart : ∀ decl ∈ inserted history, decl.protocols.Nodup) :
    (empty.recordAll history).Collects history := by
  induction history using List.reverseRecOn with
  | nil => exact ⟨rfl, nofun, fun name other => rfl, rfl⟩
  | append_singleton history finding ih =>
    have split : inserted (history ++ [finding]) = inserted history ++ finding.class?.toList := by
      cases known : finding.class? <;> simp [inserted, known]
    rw [split] at apart
    have last := collects_record (ih fun decl member => apart decl (List.mem_append_left _ member))
      finding fun decl own => apart decl (List.mem_append_right _ (by simpa using own))
    simpa [recordAll] using last

theorem get_of_mem (set : ClassSet) (apart : set.names.Nodup) (decl : ClassDecl)
    (member : decl ∈ set.classes) : set.get? decl.name = some decl := by
  have known : (set.get? decl.name).isSome := by
    simpa [get?] using ⟨decl, member, rfl⟩
  obtain ⟨found, here⟩ := Option.isSome_iff_exists.mp known
  have named : found.name = decl.name := by simpa using List.find?_some here
  have inside : found ∈ set.classes := List.mem_of_find?_eq_some here
  rw [here, List.inj_on_of_nodup_map apart inside member named]

/-- The classes of a set are what its names are looked up as. -/
theorem classes_eq_map (set : ClassSet) (apart : set.names.Nodup) (classOf : Text → ClassDecl)
    (found : ∀ name ∈ set.names, set.get? name = some (classOf name)) :
    set.classes = set.names.map classOf := by
  have same : ∀ decl ∈ set.classes, id decl = classOf decl.name := by
    intro decl member
    have looked := found decl.name (List.mem_map_of_mem member)
    rw [get_of_mem set apart decl member] at looked
    exact Option.some.inj looked
  calc set.classes = set.classes.map id := (List.map_id _).symm
    _ = set.classes.map (fun decl => classOf decl.name) := List.map_congr_left same
    _ = set.names.map classOf := by simp [names]

/-- After any history the classes are what their declarations say together, by names in the order in
which they are first inserted, and the diagnostics are those that were recorded; looking up, asking for
a name, counting and listing agree. The protocols of a declaration are a set. -/
theorem recordAll_closed (history : List Finding)
    (apart : ∀ decl ∈ inserted history, decl.protocols.Nodup) :
    let set := empty.recordAll history
    set.Collects history ∧ set.classes = set.names.map (ClassDecl.gather (inserted history)) ∧
      (∀ name, set.contains name = true ↔ name ∈ set.names) ∧ set.size = set.names.length := by
  intro set
  have collects := collects_recordAll history apart
  have names : set.names.Nodup := (recordAll_absorb empty empty history List.nodup_nil).2
  have known (name : Text) : name ∈ set.names ↔ name ∈ (inserted history).map (·.name) := by
    rw [collects.names, List.mem_eraseDups]
  refine ⟨collects, classes_eq_map set names _ fun name member => ?_, fun name => ?_, ?_⟩
  · exact collects.get name ((known name).mp member)
  · rw [contains, known]
    by_cases member : name ∈ (inserted history).map (·.name)
    · simp only [set, collects.get name member, Option.isSome_some, member]
    · simp only [set, collects.absent name member, Option.isSome_none, Bool.false_eq_true, member]
  · exact (List.length_map _).symm

/-- A class that is declared three times, with another class and a warning in between. -/
def panelHistory : List Finding :=
  [.declared { name := "Panel".toList, protocols := ["Moving".toList] },
   .warned { message := "skipped".toList },
   .declared { name := "Box".toList, doc := "Holds.".toList },
   .declared { name := "Panel".toList, superclass := some "View".toList, doc := "Shows.".toList,
               protocols := ["Hiding".toList, "Moving".toList],
               properties := [{ name := "hidden".toList, type := "BOOL".toList }] },
   .declared { name := "Panel".toList, superclass := some "Box".toList, doc := "Again.".toList,
               protocols := ["Closing".toList, "Hiding".toList],
               properties := [{ name := "title".toList, type := "id".toList }] }]

theorem recordAll_closed_panels :
    (∀ decl ∈ inserted panelHistory, decl.protocols.Nodup) ∧
      let set := empty.recordAll panelHistory
      set.Collects panelHistory ∧
        set.classes = set.names.map (ClassDecl.gather (inserted panelHistory)) ∧
        (∀ name, set.contains name = true ↔ name ∈ set.names) ∧ set.size = set.names.length :=
  have apart : ∀ decl ∈ inserted panelHistory, decl.protocols.Nodup := by decide
  ⟨apart, recordAll_closed panelHistory apart⟩

example :
    ClassDecl.gather (inserted panelHistory) "Panel".toList =
      { name := "Panel".toList, superclass := some "View".toList, doc := "Shows.".toList,
        protocols := ["Moving".toList, "Hiding".toList, "Closing".toList],
        properties := [{ name := "hidden".toList, type := "BOOL".toList },
                       { name := "title".toList, type := "id".toList }] } := by
  decide

end ClassSet

end HeaderBindings
