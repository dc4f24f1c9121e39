import HeaderBindings.Text.Basic
import Mathlib.Data.List.Induction
import Mathlib.Data.List.Nodup
import Mathlib.Data.List.Pairwise

/-!
Adopting texts. What is adopted is each text once, where it first occurs; adopting in several steps or all
at once makes no difference.
-/

namespace HeaderBindings

section Distinct

variable {α β : Type} [BEq α] [LawfulBEq α] [BEq β] [LawfulBEq β]

-- An element behind others counts unless it is one of them.
theorem eraseDups_concat (known : List α) (last : α) :
    (known ++ [last]).eraseDups =
      if known.contains last then known.eraseDups else known.eraseDups ++ [last] := by
  rw [List.eraseDups_append]
  by_cases old : last ∈ known <;> simp [List.removeAll, old, List.eraseDups_cons]

theorem eraseDups_of_nodup (elements : List α) (apart : elements.Nodup) :
    elements.eraseDups = elements := by
  induction elements using List.reverseRecOn with
  | nil => rfl
  | append_singleton elements last ih =>
    have fresh : last ∉ elements := fun member =>
      (List.nodup_append.mp apart).2.2 last member last (List.mem_singleton.mpr rfl) rfl
    rw [eraseDups_concat, if_neg (by simpa using fresh), ih (List.nodup_append.mp apart).1]

theorem nodup_eraseDups (elements : List α) : elements.eraseDups.Nodup := by
  induction elements using List.reverseRecOn with
  | nil => exact List.nodup_nil
  | append_singleton elements last ih =>
    rw [eraseDups_concat]
    split
    · exact ih
    · next fresh =>
      refine List.nodup_append.mpr ⟨ih, List.nodup_singleton last, ?_⟩
      rintro known member _ own rfl
      rw [List.mem_singleton.mp own, List.mem_eraseDups] at member
      exact fresh (by simpa using member)

/-- A function that tells the elements of a list apart keeps which of them are repeated. -/
theorem eraseDups_map (f : α → β) (elements : List α)
    (apart : ∀ left ∈ elements, ∀ right ∈ elements, f left = f right → left = right) :
    (elements.map f).eraseDups = elements.eraseDups.map f := by
  induction elements using List.reverseRecOn with
  | nil => rfl
  | append_singleton elements last ih =>
    have known : (elements.map f).contains (f last) = elements.contains last := by
      rw [Bool.eq_iff_iff, List.contains_iff_mem, List.contains_iff_mem, List.mem_map]
      constructor
      · rintro ⟨element, member, same⟩
        exact apart element (List.mem_append_left _ member) last (by simp) same ▸ member
      · exact fun member => ⟨last, member, rfl⟩
    have front := ih fun left first right second =>
      apart left (List.mem_append_left _ first) right (List.mem_append_left _ second)
    rw [List.map_append, List.map_singleton, eraseDups_concat, eraseDups_concat, known, front]
    split <;> simp

/-- The lists that stand for the distinct elements have nothing in common if and only if those of
different elements have not. -/
theorem nodup_flatMap_eraseDups_iff {γ : Type} (f : α → List γ) (elements : List α)
    (each : ∀ element ∈ elements, (f element).Nodup) :
    (elements.eraseDups.flatMap f).Nodup ↔
      ∀ left ∈ elements, ∀ right ∈ elements, left ≠ right → List.Disjoint (f left) (f right) := by
  have symmetric : Std.Symm (Function.onFun List.Disjoint f) := ⟨fun _ _ apart => List.disjoint_comm.mp apart⟩
  rw [List.nodup_flatMap]
  constructor
  · rintro ⟨_, pairs⟩ left first right second different
    exact pairs.forall (List.mem_eraseDups.mpr first) (List.mem_eraseDups.mpr second) different
  · intro apart
    refine ⟨fun element member => each element (List.mem_eraseDups.mp member), ?_⟩
    refine (nodup_eraseDups elements).pairwise_of_forall_ne fun left first right second => ?_
    exact apart left (List.mem_eraseDups.mp first) right (List.mem_eraseDups.mp second)

end Distinct

section Adoption

theorem adopt_eraseDups (known texts : List Text) :
    adopt known.eraseDups texts = (known ++ texts).eraseDups := by
  induction texts generalizing known with
  | nil => simp [adopt]
  | cons text texts ih =>
    have step : (if known.eraseDups.contains text then known.eraseDups
        else known.eraseDups ++ [text]) = (known ++ [text]).eraseDups := by
      simp [eraseDups_concat]
    rw [adopt, step, ih, List.append_assoc, List.singleton_append]

theorem adopt_nil (texts : List Text) : adopt [] texts = texts.eraseDups := adopt_eraseDups [] texts

theorem mem_adopt (known texts : List Text) (text : Text) (member : text ∈ adopt known texts) :
    text ∈ known ∨ text ∈ texts := by
  induction texts generalizing known with
  | nil => exact Or.inl member
  | cons first texts ih =>
    rcases ih _ member with old | new
    · split at old
      · exact Or.inl old
      · rcases List.mem_append.mp old with older | here
        · exact Or.inl older
        · exact Or.inr (List.mem_singleton.mp here ▸ List.mem_cons_self)
    · exact Or.inr (List.mem_cons_of_mem first new)

theorem adopt_append (known left right : List Text) :
    adopt known (left ++ right) = adopt (adopt known left) right := by
  induction left generalizing known with
  | nil => rfl
  | cons text left ih => exact ih _

theorem subset_adopt (known texts : List Text) : known ⊆ adopt known texts := by
  induction texts generalizing known with
  | nil => exact fun _ member => member
  | cons text texts ih =>
    intro word member
    refine ih _ ?_
    split
    · exact member
    · exact List.mem_append_left _ member

theorem mem_adopt_of_mem (known texts : List Text) : texts ⊆ adopt known texts := by
  induction texts generalizing known with
  | nil => exact fun _ member => by cases member
  | cons text texts ih =>
    intro word member
    rcases List.mem_cons.mp member with rfl | later
    · refine subset_adopt _ texts ?_
      split
      · next known => simpa using known
      · exact List.mem_append_right _ List.mem_cons_self
    · exact ih _ later

theorem adopt_adopt (first second third : List Text) :
    adopt first (adopt second third) = adopt (adopt first second) third := by
  induction third generalizing second with
  | nil => rfl
  | cons text third ih =>
    rw [adopt, adopt, ih]
    congr 1
    by_cases old : text ∈ second
    · have known := mem_adopt_of_mem first second old
      rw [if_pos (by simpa using old), if_pos (by simpa using known)]
    · rw [if_neg (by simpa using old), adopt_append]
      rfl

end Adoption

end HeaderBindings
