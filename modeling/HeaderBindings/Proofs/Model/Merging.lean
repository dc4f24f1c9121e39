import HeaderBindings.Model.ClassSet
import HeaderBindings.Proofs.Text.Adoption
import Mathlib.Data.List.Nodup

/-!
Merging is associative, so that declarations of one name may be merged before they are inserted or
one after another as they come. Inserting into a set changes the first class of the name or adds a
class behind all others.
-/

namespace HeaderBindings

namespace ClassDecl

theorem merge_assoc (first second third : ClassDecl) :
    (first.merge second).merge third = first.merge (second.merge third) := by
  simp only [merge, adopt_adopt, Option.or_assoc, List.append_assoc]
  by_cases empty : first.doc.isEmpty = true
  · simp only [if_pos empty]
  · simp only [if_neg empty]

end ClassDecl

namespace ClassSet

-- A name that is known gives the first class of that name one more declaration.
theorem insertInto_known (decl known : ClassDecl) (before after : List ClassDecl)
    (fresh : ∀ other ∈ before, other.name ≠ decl.name) (same : known.name = decl.name) :
    insertInto decl (before ++ known :: after) = before ++ known.merge decl :: after := by
  induction before with
  | nil => simp [insertInto, same]
  | cons other before ih =>
    have apart := fresh other List.mem_cons_self
    have later := ih fun next member => fresh next (List.mem_cons_of_mem other member)
    simp [insertInto, apart, later]

theorem insertInto_new (decl : ClassDecl) (classes : List ClassDecl)
    (fresh : decl.name ∉ classes.map (·.name)) : insertInto decl classes = classes ++ [decl] := by
  induction classes with
  | nil => rfl
  | cons known classes ih =>
    simp only [List.map_cons, List.mem_cons, not_or] at fresh
    simp [insertInto, Ne.symm fresh.1, ih fresh.2]

-- The classes are split at the first one of a name that they have.
theorem split_at_name (name : Text) (classes : List ClassDecl)
    (known : name ∈ classes.map (·.name)) :
    ∃ before decl after, classes = before ++ decl :: after ∧ decl.name = name ∧
      ∀ other ∈ before, other.name ≠ name := by
  induction classes with
  | nil => cases known
  | cons first classes ih =>
    by_cases here : first.name = name
    · exact ⟨[], first, classes, rfl, here, by simp⟩
    · have later : name ∈ classes.map (·.name) := by
        simpa [Ne.symm here] using known
      obtain ⟨before, decl, after, rfl, same, fresh⟩ := ih later
      refine ⟨first :: before, decl, after, rfl, same, ?_⟩
      intro other member
      rcases List.mem_cons.mp member with rfl | deeper
      · exact here
      · exact fresh other deeper

theorem names_insertInto (decl : ClassDecl) (classes : List ClassDecl) :
    (insertInto decl classes).map (·.name) =
      if decl.name ∈ classes.map (·.name) then classes.map (·.name)
      else classes.map (·.name) ++ [decl.name] := by
  by_cases known : decl.name ∈ classes.map (·.name)
  · rw [if_pos known]
    obtain ⟨before, first, after, rfl, same, fresh⟩ := split_at_name decl.name classes known
    rw [insertInto_known decl first before after fresh same]
    simp [ClassDecl.merge]
  · rw [if_neg known, insertInto_new decl classes known]
    simp

-- Inserting two declarations of one name is inserting what they merge to.
theorem insertInto_merge (first second : ClassDecl) (same : first.name = second.name)
    (classes : List ClassDecl) :
    insertInto (first.merge second) classes = insertInto second (insertInto first classes) := by
  have kept : (first.merge second).name = first.name := rfl
  induction classes with
  | nil => simp only [insertInto, same, if_true]
  | cons known classes ih =>
    by_cases here : known.name = first.name
    · have merged : (known.merge first).name = second.name := here.trans same
      simp only [insertInto, kept, if_pos here, if_pos merged, ClassDecl.merge_assoc]
    · have apart : known.name ≠ second.name := fun other => here (other.trans same.symm)
      simp only [insertInto, kept, if_neg here, if_neg apart, ih]

-- A declaration of a known name may be inserted before or after one of another name.
theorem insertInto_comm (first second : ClassDecl) (apart : first.name ≠ second.name)
    (classes : List ClassDecl) (known : first.name ∈ classes.map (·.name)) :
    insertInto second (insertInto first classes) =
      insertInto first (insertInto second classes) := by
  induction classes with
  | nil => cases known
  | cons decl classes ih =>
    have firstKept : (decl.merge first).name = decl.name := rfl
    have secondKept : (decl.merge second).name = decl.name := rfl
    by_cases here : decl.name = first.name
    · have other : decl.name ≠ second.name := fun same => apart (here.symm.trans same)
      simp only [insertInto, firstKept, if_pos here, if_neg other]
    · have later : first.name ∈ classes.map (·.name) := by
        simpa [Ne.symm here] using known
      by_cases there : decl.name = second.name
      · simp only [insertInto, secondKept, if_neg here, if_pos there]
      · simp only [insertInto, if_neg here, if_neg there, ih later]

end ClassSet

end HeaderBindings
