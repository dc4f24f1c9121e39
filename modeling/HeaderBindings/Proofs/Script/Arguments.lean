import HeaderBindings.Proofs.Script.Brackets

/-!
Type arguments in a list. Whether the brackets of a text are closed in their turn is counted in the
fronts of the text. Arguments of that kind are read back from the list that they make between commas,
whatever white space stands around them.
-/

namespace HeaderBindings

namespace ScriptType

section Counting

/-- How many brackets of a text are opened and not closed; less than zero if more are closed than
opened. -/
def openBrackets (text : Text) : Int :=
  (text.count '<' + text.count '(' : Nat) - (text.count '>' + text.count ')' : Nat)

@[simp] theorem openBrackets_nil : openBrackets [] = 0 := rfl

theorem openBrackets_cons (c : Char) (text : Text) :
    openBrackets (c :: text) = nesting c + openBrackets text := by
  unfold openBrackets nesting
  by_cases opening : c = '<' ∨ c = '('
  · rw [if_pos opening]
    rcases opening with rfl | rfl <;> simp <;> omega
  · rw [if_neg opening]
    by_cases closing : c = '>' ∨ c = ')'
    · rw [if_pos closing]
      rcases closing with rfl | rfl <;> simp <;> omega
    · rw [if_neg closing]
      rw [not_or] at opening closing
      simp [List.count_cons_of_ne, opening, closing]

/-- Brackets that are closed in their turn behind a depth, and no comma outside them: no front closes
more than is open, and every comma stands inside a bracket. -/
structure ClosesFrom (depth : Int) (text : Text) : Prop where
  opened : ∀ front, front <+: text → 0 ≤ depth + openBrackets front
  inside : ∀ front rest, text = front ++ ',' :: rest → depth + openBrackets front ≠ 0

theorem ClosesFrom.tail {depth : Int} {c : Char} {text : Text} (closes : ClosesFrom depth (c :: text)) :
    ClosesFrom (depth + nesting c) text where
  opened front starts := by
    have longer := closes.opened (c :: front) (List.cons_prefix_cons.mpr ⟨rfl, starts⟩)
    rwa [openBrackets_cons, ← Int.add_assoc] at longer
  inside front rest whole := by
    have longer := closes.inside (c :: front) rest (by rw [whole, List.cons_append])
    rwa [openBrackets_cons, ← Int.add_assoc] at longer

-- One character is read if it closes no bracket that is not open, and is no comma outside brackets.
theorem exists_stepDepth {depth : Nat} {c : Char} (opened : 0 ≤ (depth : Int) + nesting c)
    (inside : c = ',' → depth ≠ 0) : ∃ behind, stepDepth? depth c = some behind := by
  unfold nesting at opened
  unfold stepDepth?
  split
  · exact ⟨_, rfl⟩
  · next opening =>
    rw [if_neg opening] at opened
    split
    · next closing =>
      rw [if_pos closing] at opened
      exact ⟨depth - 1, if_neg (by omega)⟩
    · exact ⟨depth, if_neg fun bare => inside bare.1 bare.2⟩

theorem depthBehind_of_closes {depth : Nat} {text : Text} (closes : ClosesFrom depth text) :
    ∃ behind, depthBehind? depth text = some behind ∧ (behind : Int) = depth + openBrackets text := by
  induction text generalizing depth with
  | nil => exact ⟨depth, rfl, by simp⟩
  | cons c text ih =>
    have first := closes.opened [c] (List.cons_prefix_cons.mpr ⟨rfl, List.nil_prefix⟩)
    rw [openBrackets_cons, openBrackets_nil, Int.add_zero] at first
    obtain ⟨middle, stepped⟩ := exists_stepDepth first fun comma outside =>
      closes.inside [] text (by rw [comma, List.nil_append]) (by simp [outside])
    have level := (stepDepth_nesting stepped).1
    obtain ⟨behind, read, same⟩ := @ih middle (level ▸ closes.tail)
    refine ⟨behind, ?_, ?_⟩
    · rw [depthBehind_cons, stepped, Option.bind_some, read]
    · rw [same, level, openBrackets_cons, Int.add_assoc]

theorem openBrackets_of_depthBehind {depth behind : Nat} {text : Text}
    (read : depthBehind? depth text = some behind) : (behind : Int) = depth + openBrackets text := by
  induction text generalizing depth with
  | nil =>
    cases read
    simp
  | cons c text ih =>
    rw [depthBehind_cons] at read
    obtain ⟨middle, stepped, read⟩ := Option.bind_eq_some_iff.mp read
    rw [ih read, (stepDepth_nesting stepped).1, openBrackets_cons, Int.add_assoc]

-- What is read as a whole is read front by front.
theorem closes_of_depthBehind {depth behind : Nat} {text : Text}
    (read : depthBehind? depth text = some behind) : ClosesFrom depth text where
  opened := by
    rintro front ⟨rest, rfl⟩
    rw [depthBehind_append] at read
    obtain ⟨middle, front, _⟩ := Option.bind_eq_some_iff.mp read
    rw [← openBrackets_of_depthBehind front]
    exact Int.natCast_nonneg middle
  inside := by
    rintro front rest rfl
    rw [depthBehind_append] at read
    obtain ⟨middle, front, read⟩ := Option.bind_eq_some_iff.mp read
    rw [depthBehind_cons] at read
    obtain ⟨_, stepped, _⟩ := Option.bind_eq_some_iff.mp read
    rw [← openBrackets_of_depthBehind front]
    exact Int.natCast_ne_zero.mpr ((stepDepth_nesting stepped).2 rfl)

/-- The brackets of a text are closed in their turn, with no comma outside them, if and only if the
counts in its fronts say so. -/
theorem enclosed_iff (text : Text) : Enclosed text ↔ ClosesFrom 0 text ∧ openBrackets text = 0 := by
  constructor
  · intro enclosed
    have level := openBrackets_of_depthBehind enclosed
    exact ⟨closes_of_depthBehind enclosed, by simpa using level.symm⟩
  · rintro ⟨closes, closed⟩
    obtain ⟨behind, read, same⟩ := @depthBehind_of_closes 0 text closes
    have none : behind = 0 := by simpa [closed] using same
    rw [Enclosed, read, none]

end Counting

section Lists

/-- An argument as it stands in a list: visible and trimmed, brackets closed in their turn and all
of them at the end, and no comma outside them. -/
structure IsArgument (argument : Text) : Prop extends ClosesFrom 0 argument where
  written : argument ≠ []
  trimmed : Text.trim argument = argument
  closed : openBrackets argument = 0

theorem IsArgument.enclosed {argument : Text} (isArgument : IsArgument argument) : Enclosed argument :=
  (enclosed_iff argument).mpr ⟨isArgument.toClosesFrom, isArgument.closed⟩

instance (argument : Text) : Decidable (IsArgument argument) :=
  decidable_of_iff (argument ≠ [] ∧ Text.trim argument = argument ∧ Enclosed argument)
    ⟨fun ⟨written, trimmed, enclosed⟩ =>
      let counts := (enclosed_iff argument).mp enclosed
      ⟨counts.1, written, trimmed, counts.2⟩,
    fun isArgument => ⟨isArgument.written, isArgument.trimmed, isArgument.enclosed⟩⟩

/-- A text with any white space around it. -/
inductive Padded (text : Text) : Text → Prop where
  | mk (lead trail : Text) (before : ∀ c ∈ lead, isBlank c = true)
      (behind : ∀ c ∈ trail, isBlank c = true) : Padded text (lead ++ text ++ trail)

theorem enclosed_blank {gap : Text} (blank : ∀ c ∈ gap, isBlank c = true) : Enclosed gap := by
  refine enclosed_of_plain fun c member bracket => ?_
  have visible : ∀ d ∈ ['<', '(', '>', ')', ','], isBlank d = false := by decide
  exact absurd (blank c member) (by simp [visible c bracket])

theorem Padded.trim_eq {text padded : Text} (around : Padded text padded) :
    Text.trim padded = Text.trim text := by
  obtain ⟨lead, trail, before, behind⟩ := around
  exact Text.trim_indented lead text trail before behind

theorem Padded.enclosed {text padded : Text} (around : Padded text padded) (enclosed : Enclosed text) :
    Enclosed padded := by
  obtain ⟨lead, trail, before, behind⟩ := around
  have front : depthBehind? 0 lead = some 0 := enclosed_blank before
  have middle : depthBehind? 0 text = some 0 := enclosed
  rw [Enclosed, depthBehind_append, depthBehind_append, front, Option.bind_some, middle,
    Option.bind_some]
  exact enclosed_blank behind

/-- Pieces of a list: the arguments in order with white space around them, and blank pieces among
them. -/
inductive Spaced : List Text → List Text → Prop where
  | done : Spaced [] []
  | blank {args pieces : List Text} {gap : Text} (blank : ∀ c ∈ gap, isBlank c = true)
      (later : Spaced args pieces) : Spaced args (gap :: pieces)
  | argument {args pieces : List Text} {argument piece : Text} (padded : Padded argument piece)
      (later : Spaced args pieces) : Spaced (argument :: args) (piece :: pieces)

theorem Spaced.enclosed {args pieces : List Text} (spaced : Spaced args pieces)
    (each : ∀ argument ∈ args, IsArgument argument) : ∀ piece ∈ pieces, Enclosed piece := by
  induction spaced with
  | done => exact List.forall_mem_nil _
  | blank blank later ih => exact List.forall_mem_cons.mpr ⟨enclosed_blank blank, ih each⟩
  | argument padded later ih =>
    obtain ⟨first, others⟩ := List.forall_mem_cons.mp each
    exact List.forall_mem_cons.mpr ⟨padded.enclosed first.enclosed, ih others⟩

theorem Spaced.written {args pieces : List Text} (spaced : Spaced args pieces)
    (each : ∀ argument ∈ args, IsArgument argument) :
    (pieces.map Text.trim).filter (!·.isEmpty) = args := by
  induction spaced with
  | done => rfl
  | @blank args pieces gap blank later ih =>
    have nothing : Text.trim gap = [] := Text.trim_append_blank [] gap blank
    rw [List.map_cons, nothing, List.filter_cons_of_neg (by simp), ih each]
  | @argument args pieces argument piece padded later ih =>
    obtain ⟨first, others⟩ := List.forall_mem_cons.mp each
    have whole : Text.trim piece = argument := padded.trim_eq.trans first.trimmed
    have seen : (!argument.isEmpty) = true := by simpa using first.written
    rw [List.map_cons, whole, List.filter_cons_of_pos (by simpa using seen), ih others]

/-- Reading type arguments inverts joining: arguments between commas are read back as the list that
they are, whatever white space stands around each of them and wherever blank pieces stand. -/
theorem arguments_spaced (args pieces : List Text) (each : ∀ argument ∈ args, IsArgument argument)
    (spaced : Spaced args pieces) : arguments (Text.join [','] pieces) = args := by
  rw [arguments_pieces pieces (spaced.enclosed each), spaced.written each]

/-- Two arguments, one with a comma and blocks inside its brackets, a blank piece, and white space. -/
theorem arguments_spaced_map :
    let args := ["NSString".toList, "NSDictionary<id, void (^)(int, id)>".toList]
    let pieces := [" NSString\t".toList, "  ".toList, "NSDictionary<id, void (^)(int, id)> ".toList]
    (∀ argument ∈ args, IsArgument argument) ∧ Spaced args pieces ∧
      arguments (Text.join [','] pieces) = args := by
  intro args pieces
  have each : ∀ argument ∈ args, IsArgument argument := by decide
  have spaced : Spaced args pieces :=
    .argument (.mk [' '] ['\t'] (by decide) (by decide))
      (.blank (by decide) (.argument (.mk [] [' '] (by decide) (by decide)) .done))
  exact ⟨each, spaced, arguments_spaced args pieces each spaced⟩

end Lists

end ScriptType

end HeaderBindings
