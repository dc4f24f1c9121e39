import HeaderBindings.Text.Basic
import Mathlib.Data.List.Infix

/-!
How often a pattern occurs in a text. A pattern of two characters occurs in two texts together as often
as in each of them, unless it stands across the seam.
-/

namespace HeaderBindings

namespace Text

/-- How many times a pattern occurs in a text. -/
def occurrences (pattern text : Text) : Nat := text.tails.countP (startsWith pattern)

theorem occurrences_cons (pattern : Text) (c : Char) (text : Text) :
    occurrences pattern (c :: text) =
      occurrences pattern text + if startsWith pattern (c :: text) then 1 else 0 := by
  rw [occurrences, List.tails_cons, List.countP_cons]
  rfl

theorem occurrences_eq_zero_iff (pattern text : Text) :
    occurrences pattern text = 0 ↔ ¬ pattern <:+: text := by
  rw [occurrences, List.countP_eq_zero, List.infix_iff_prefix_suffix]
  simp only [List.mem_tails, startsWith_iff]
  constructor
  · rintro none ⟨tail, starts, within⟩
    exact none tail within starts
  · intro none tail within starts
    exact none ⟨tail, starts, within⟩

theorem occurrences_eq_zero {pattern text : Text} {c : Char} (shown : c ∈ pattern) (free : c ∉ text) :
    occurrences pattern text = 0 := by
  rw [occurrences_eq_zero_iff]
  intro within
  exact free (within.subset shown)

section Pairs

variable {first second : Char}

theorem startsWith_pair (c : Char) (text : Text) :
    startsWith [first, second] (c :: text) = true ↔ c = first ∧ text.head? = some second := by
  rw [startsWith_iff, List.cons_prefix_cons, List.head?_eq_some_iff, eq_comm]
  exact and_congr_right fun _ => ⟨fun ⟨rest, whole⟩ => ⟨rest, whole.symm⟩,
    fun ⟨rest, whole⟩ => ⟨rest, whole.symm⟩⟩

theorem occurrences_append (left right : Text)
    (apart : left.getLast? = some first → right.head? ≠ some second) :
    occurrences [first, second] (left ++ right) =
      occurrences [first, second] left + occurrences [first, second] right := by
  induction left with
  | nil =>
    have none : occurrences [first, second] [] = 0 := rfl
    rw [List.nil_append, none, Nat.zero_add]
  | cons c left ih =>
    have later := ih fun last => apart (by
      rw [List.getLast?_cons, last]
      rfl)
    -- Whether the pattern stands at the front is seen on the left, or at the seam.
    have front : startsWith [first, second] (c :: (left ++ right)) =
        startsWith [first, second] (c :: left) := by
      rw [Bool.eq_iff_iff, startsWith_pair, startsWith_pair]
      cases left with
      | nil =>
        have seam : ¬ (c = first ∧ right.head? = some second) := by
          rintro ⟨rfl, head⟩
          exact apart rfl head
        simpa using seam
      | cons d left => rfl
    rw [List.cons_append, occurrences_cons, occurrences_cons, later, front]
    omega

end Pairs

end Text

end HeaderBindings
