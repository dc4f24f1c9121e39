import HeaderBindings.Header.Note

/-!
What a class set makes of the notes on a header. The class of a name has all members of the
declarations of that name and the first superclass that one of them gives; every warning is there.
-/

namespace HeaderBindings

namespace Note

def decl? : Note → Option ClassDecl
  | declared decl => some decl
  | _ => none

/-- The line of a warning. -/
def warned? : Note → Option Nat
  | rejected line _ => some line
  | _ => none

end Note

/-- The classes that notes declare, and the lines that they warn of. -/
def declaredBy (notes : List Note) : List ClassDecl := notes.filterMap Note.decl?

def warnedBy (notes : List Note) : List Nat := notes.filterMap Note.warned?

@[simp] theorem declaredBy_nil : declaredBy [] = [] := rfl

@[simp] theorem declaredBy_rejected (number : Nat) (message : Text) :
    declaredBy [.rejected number message] = [] := rfl

theorem declaredBy_append (notes later : List Note) :
    declaredBy (notes ++ later) = declaredBy notes ++ declaredBy later := List.filterMap_append

theorem warnedBy_append (notes later : List Note) :
    warnedBy (notes ++ later) = warnedBy notes ++ warnedBy later := List.filterMap_append

namespace ClassDecl

/-- A class with at least the members of another one. -/
structure Includes (decl other : ClassDecl) : Prop where
  properties : other.properties ⊆ decl.properties
  methods : other.methods ⊆ decl.methods

theorem includes_refl (decl : ClassDecl) : decl.Includes decl :=
  ⟨List.Subset.refl _, List.Subset.refl _⟩

theorem Includes.trans {first second third : ClassDecl} (outer : first.Includes second)
    (inner : second.Includes third) : first.Includes third :=
  ⟨List.Subset.trans inner.properties outer.properties,
    List.Subset.trans inner.methods outer.methods⟩

theorem merge_includes (earlier later : ClassDecl) :
    (earlier.merge later).Includes earlier ∧ (earlier.merge later).Includes later :=
  ⟨⟨List.subset_append_left _ _, List.subset_append_left _ _⟩,
    ⟨List.subset_append_right _ _, List.subset_append_right _ _⟩⟩

/-- The superclass that a class of a name gives to that name. -/
def superclassFor (name : Text) (decl : ClassDecl) : Option Text :=
  if decl.name = name then decl.superclass else none

end ClassDecl

namespace ClassSet

theorem get_insert (set : ClassSet) (decl : ClassDecl) (name : Text) :
    (set.insert decl).get? name =
      if decl.name = name then some ((set.get? name).elim decl (·.merge decl))
      else set.get? name := by
  simp only [get?, insert]
  induction set.classes with
  | nil => by_cases same : decl.name = name <;> simp [insertInto, same]
  | cons known classes ih =>
    by_cases here : known.name = decl.name
    · have kept : (known.merge decl).name = known.name := rfl
      by_cases same : decl.name = name
      · simp [insertInto, here, kept, same]
      · simp [insertInto, here, kept, same]
    · by_cases same : decl.name = name
      · have other : known.name ≠ name := fun found => here (found.trans same.symm)
        simp [insertInto, other, ih, same]
      · simp only [insertInto, here, if_false, List.find?_cons, ih, same]

/-- From the class of a name, if there is one, to the class that it is with declarations added. -/
structure Gathers (name : Text) (before : Option ClassDecl) (added : List ClassDecl)
    (after : Option ClassDecl) : Prop where
  superclass : after.bind (·.superclass) =
    (before.bind (·.superclass)).or (added.findSome? (·.superclassFor name))
  kept : ∀ old ∈ before, ∃ decl ∈ after, decl.Includes old
  members : ∀ other ∈ added, other.name = name → ∃ decl ∈ after, decl.Includes other

theorem Gathers.cons {name : Text} {before after : Option ClassDecl} {decl : ClassDecl}
    {added : List ClassDecl}
    (later : Gathers name (if decl.name = name then some (before.elim decl (·.merge decl)) else before)
      added after) : Gathers name before (decl :: added) after := by
  by_cases same : decl.name = name
  · rw [if_pos same] at later
    obtain ⟨superclass, kept, members⟩ := later
    obtain ⟨now, found, includes⟩ := kept _ rfl
    refine ⟨?_, ?_, ?_⟩
    · have first : (decl :: added).findSome? (·.superclassFor name) =
          decl.superclass.or (added.findSome? (·.superclassFor name)) := by
        rw [List.findSome?_cons, ClassDecl.superclassFor, if_pos same]
        cases decl.superclass <;> rfl
      rw [superclass, first]
      cases before with
      | none => rfl
      | some old => exact Option.or_assoc
    · rintro old rfl
      exact ⟨now, found, includes.trans (old.merge_includes decl).1⟩
    · intro other member named
      rcases List.mem_cons.mp member with rfl | later
      · refine ⟨now, found, includes.trans ?_⟩
        cases before with
        | none => exact other.includes_refl
        | some old => exact (old.merge_includes other).2
      · exact members other later named
  · rw [if_neg same] at later
    obtain ⟨superclass, kept, members⟩ := later
    refine ⟨?_, kept, ?_⟩
    · simpa [ClassDecl.superclassFor, same] using superclass
    · intro other member named
      rcases List.mem_cons.mp member with rfl | later
      · exact absurd named same
      · exact members other later named

theorem gathers_recordAll (set : ClassSet) (unit : SourceUnit) (notes : List Note) (name : Text) :
    Gathers name (set.get? name) (declaredBy notes)
      ((set.recordAll (notes.map unit.finding)).get? name) := by
  induction notes generalizing set with
  | nil =>
    refine ⟨by simp [declaredBy, recordAll], fun old found => ⟨old, found, old.includes_refl⟩, ?_⟩
    simp [declaredBy]
  | cons note notes ih =>
    cases note with
    | declared decl =>
      have later := ih (set.insert decl)
      rw [get_insert] at later
      exact later.cons
    | rejected line message => exact ih (set.warn (unit.diagnostic line message))
    | progress event => exact ih set

/-- The class of a name that has been declared. -/
theorem exists_declared (unit : SourceUnit) (notes : List Note) (decl : ClassDecl)
    (member : decl ∈ declaredBy notes) :
    ∃ known ∈ (empty.recordAll (notes.map unit.finding)).classes, known.name = decl.name ∧
      known.Includes decl ∧
      known.superclass = (declaredBy notes).findSome? (·.superclassFor decl.name) := by
  obtain ⟨superclass, _, members⟩ := gathers_recordAll empty unit notes decl.name
  obtain ⟨known, found, includes⟩ := members decl member rfl
  have here := List.find?_some found
  refine ⟨known, List.mem_of_find?_eq_some found, by simpa using here, includes, ?_⟩
  rw [Option.mem_def.mp found] at superclass
  simpa [get?, empty] using superclass

theorem exists_warned (set : ClassSet) (unit : SourceUnit) (notes : List Note) (line : Nat)
    (member : line ∈ warnedBy notes) :
    ∃ diagnostic ∈ (set.recordAll (notes.map unit.finding)).diagnostics,
      diagnostic.line = some line := by
  have grows (set : ClassSet) (findings : List Finding) :
      set.diagnostics ⊆ (set.recordAll findings).diagnostics := by
    induction findings generalizing set with
    | nil => exact List.Subset.refl _
    | cons finding findings ih =>
      refine List.Subset.trans ?_ (ih (set.record finding))
      cases finding with
      | declared decl => exact List.Subset.refl _
      | warned diagnostic => exact List.subset_append_left _ _
      | noted event => exact List.Subset.refl _
  induction notes generalizing set with
  | nil => cases member
  | cons note notes ih =>
    cases note with
    | declared decl => exact ih (set.insert decl) member
    | rejected number message =>
      rcases List.mem_cons.mp member with rfl | later
      · have here := grows (set.warn (unit.diagnostic line message)) (notes.map unit.finding)
          (List.mem_append_right _ List.mem_cons_self)
        exact ⟨_, here, rfl⟩
      · exact ih (set.warn (unit.diagnostic number message)) later
    | progress event => exact ih set member

/-- The classes of a set depend on the declarations among the notes, and the lines that it warns of on
the warnings. -/
theorem recordAll_notes (set : ClassSet) (unit : SourceUnit) (notes : List Note) :
    (set.recordAll (notes.map unit.finding)).classes =
        (declaredBy notes).foldl (fun classes decl => insertInto decl classes) set.classes ∧
      (set.recordAll (notes.map unit.finding)).diagnostics.map (·.line) =
        set.diagnostics.map (·.line) ++ (warnedBy notes).map some := by
  induction notes generalizing set with
  | nil => exact ⟨rfl, (List.append_nil _).symm⟩
  | cons note notes ih =>
    cases note with
    | declared decl => exact ih (set.insert decl)
    | progress event => exact ih set
    | rejected line message =>
      obtain ⟨classes, lines⟩ := ih (set.warn (unit.diagnostic line message))
      refine ⟨classes, lines.trans ?_⟩
      simp [warn, warnedBy, Note.warned?, SourceUnit.diagnostic, Diagnostic.atLine]

end ClassSet

end HeaderBindings
