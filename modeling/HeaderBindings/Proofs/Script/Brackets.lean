import HeaderBindings.Script.Type
import HeaderBindings.Proofs.Text.Trimming
import HeaderBindings.Proofs.Text.Lines

/-!
Brackets of types. One depth counts angles and parentheses. A text is enclosed if no bracket closes
before it is opened, all are closed at its end and every comma stands inside some; a list of enclosed
texts between commas is cut where it was put together.
-/

namespace HeaderBindings

namespace ScriptType

section Depths

/-- The depth behind a character; none where a bracket closes that is not open, or a comma stands outside
all brackets. -/
def stepDepth? (depth : Nat) (c : Char) : Option Nat :=
  if c = '<' ∨ c = '(' then some (depth + 1)
  else if c = '>' ∨ c = ')' then if depth = 0 then none else some (depth - 1)
  else if c = ',' ∧ depth = 0 then none
  else some depth

def depthBehind? (depth : Nat) (text : Text) : Option Nat := text.foldlM stepDepth? depth

/-- Brackets that are closed in their turn, and no comma outside them. -/
def Enclosed (text : Text) : Prop := depthBehind? 0 text = some 0

instance (text : Text) : Decidable (Enclosed text) := inferInstanceAs (Decidable (_ = _))

@[simp] theorem depthBehind_nil (depth : Nat) : depthBehind? depth [] = some depth := rfl

theorem depthBehind_cons (depth : Nat) (c : Char) (text : Text) :
    depthBehind? depth (c :: text) = (stepDepth? depth c).bind (depthBehind? · text) :=
  List.foldlM_cons

theorem depthBehind_append (depth : Nat) (left right : Text) :
    depthBehind? depth (left ++ right) = (depthBehind? depth left).bind (depthBehind? · right) :=
  List.foldlM_append

theorem stepDepth_nesting {depth behind : Nat} {c : Char} (stepped : stepDepth? depth c = some behind) :
    (behind : Int) = depth + nesting c ∧ (c = ',' → depth ≠ 0) := by
  by_cases opening : c = '<' ∨ c = '('
  · rw [stepDepth?, if_pos opening] at stepped
    rw [nesting, if_pos opening]
    cases stepped
    rcases opening with rfl | rfl <;> simp
  · rw [stepDepth?, if_neg opening] at stepped
    rw [nesting, if_neg opening]
    by_cases closing : c = '>' ∨ c = ')'
    · rw [if_pos closing] at stepped ⊢
      split at stepped
      · cases stepped
      · cases stepped
        rcases closing with rfl | rfl <;> simp <;> omega
    · rw [if_neg closing] at stepped ⊢
      grind

-- More brackets around a text change its depths, but not whether they are closed in their turn.
theorem stepDepth_inside {depth behind : Nat} {c : Char} (outer : Nat)
    (stepped : stepDepth? depth c = some behind) :
    stepDepth? (depth + outer) c = some (behind + outer) := by
  grind [stepDepth?]

theorem depthBehind_inside {depth behind : Nat} {text : Text} (outer : Nat)
    (closed : depthBehind? depth text = some behind) :
    depthBehind? (depth + outer) text = some (behind + outer) := by
  induction text generalizing depth with
  | nil => simpa using closed
  | cons c text ih =>
    rw [depthBehind_cons] at closed ⊢
    obtain ⟨middle, stepped, closed⟩ := Option.bind_eq_some_iff.mp closed
    rw [stepDepth_inside outer stepped, Option.bind_some]
    exact ih closed

theorem enclosed_of_plain {text : Text} (plain : ∀ c ∈ text, c ∉ ['<', '(', '>', ')', ',']) :
    Enclosed text := by
  unfold Enclosed
  induction text with
  | nil => rfl
  | cons c text ih =>
    obtain ⟨first, later⟩ := List.forall_mem_cons.mp plain
    have same : stepDepth? 0 c = some 0 := by
      simp only [List.mem_cons, not_or] at first
      simp [stepDepth?, first]
    rw [depthBehind_cons, same, Option.bind_some, ih later]

theorem Enclosed.at_depth {text : Text} (enclosed : Enclosed text) (depth : Nat) :
    depthBehind? depth text = some depth := by
  simpa using depthBehind_inside depth enclosed

end Depths

section Arguments

theorem cutArguments_append {depth behind : Nat} {front : Text} (rest : Text)
    (closed : depthBehind? depth front = some behind) :
    cutArguments depth (front ++ rest) =
      (front ++ (cutArguments behind rest).1, (cutArguments behind rest).2) := by
  induction front generalizing depth with
  | nil =>
    cases closed
    rfl
  | cons c front ih =>
    rw [depthBehind_cons] at closed
    obtain ⟨middle, stepped, closed⟩ := Option.bind_eq_some_iff.mp closed
    obtain ⟨level, inside⟩ := stepDepth_nesting stepped
    have within : (c = ',' && (depth : Int) == 0) = false := by
      by_cases comma : c = ','
      · simpa [comma] using inside comma
      · simp [comma]
    rw [List.cons_append, cutArguments, within, ← level, ih closed]
    rfl

theorem cutArguments_enclosed {front : Text} (enclosed : Enclosed front) (rest : Text) :
    cutArguments 0 (front ++ rest) = (front ++ (cutArguments 0 rest).1, (cutArguments 0 rest).2) :=
  cutArguments_append rest enclosed

-- A comma behind an enclosed text is the first one at which the text is cut.
theorem cutArguments_comma {front : Text} (enclosed : Enclosed front) (rest : Text) :
    cutArguments 0 (front ++ ',' :: rest) =
      (front, (cutArguments 0 rest).1 :: (cutArguments 0 rest).2) := by
  rw [cutArguments_enclosed enclosed]
  simp [cutArguments, nesting]

theorem cutArguments_join (args : List Text) (some : args ≠ []) (enclosed : ∀ arg ∈ args, Enclosed arg) :
    (cutArguments 0 (Text.join [','] args)).1 :: (cutArguments 0 (Text.join [','] args)).2 = args := by
  induction args with
  | nil => exact absurd rfl some
  | cons arg args ih =>
    obtain ⟨first, later⟩ := List.forall_mem_cons.mp enclosed
    cases args with
    | nil =>
      have cut := cutArguments_enclosed first []
      rw [List.append_nil] at cut
      simp [Text.join_single, cut, cutArguments]
    | cons next args =>
      have joined : Text.join [','] (arg :: next :: args) = arg ++ ',' :: Text.join [','] (next :: args) := by
        rw [Text.join_cons_cons, List.append_assoc, List.singleton_append]
      rw [joined, cutArguments_comma first, ih (List.cons_ne_nil next args) later]

/-- Enclosed texts between commas are read piece by piece; blank ones are passed over. -/
theorem arguments_pieces (pieces : List Text) (enclosed : ∀ piece ∈ pieces, Enclosed piece) :
    arguments (Text.join [','] pieces) = (pieces.map Text.trim).filter (!·.isEmpty) := by
  cases pieces with
  | nil => decide
  | cons piece pieces =>
    unfold arguments
    simp only []
    rw [cutArguments_join _ (List.cons_ne_nil piece pieces) enclosed]

/-- Enclosed texts that are not blank are the arguments of the list that they make between commas. -/
theorem arguments_join (args : List Text) (enclosed : ∀ arg ∈ args, Enclosed arg)
    (written : ∀ arg ∈ args, Text.trim arg ≠ []) :
    arguments (Text.join [','] args) = args.map Text.trim := by
  rw [arguments_pieces args enclosed]
  refine List.filter_eq_self.mpr fun trimmed member => ?_
  obtain ⟨own, known, rfl⟩ := List.mem_map.mp member
  simpa using written own known

end Arguments

end ScriptType

end HeaderBindings
