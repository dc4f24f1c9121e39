import HeaderBindings.Proofs.Arrangement.Keys
import Mathlib.Data.List.Chain

/-!
What tidying leaves out. Only blank lines go, none that is kept follows a blank line or an opening
brace, and a text that has no such line and none above the brace that closes it is left as it is.
-/

namespace HeaderBindings

section Thinning

variable {α : Type} {light : α → Bool}

/-- A list less some of the elements of a kind. -/
inductive Thinned (light : α → Bool) : List α → List α → Prop where
  | nil : Thinned light [] []
  | keep (x : α) {thin full : List α} (later : Thinned light thin full) :
    Thinned light (x :: thin) (x :: full)
  | drop (x : α) (dropped : light x = true) {thin full : List α}
    (later : Thinned light thin full) : Thinned light thin (x :: full)

namespace Thinned

variable {thin full : List α}

theorem refl (full : List α) : Thinned light full full := by
  induction full with
  | nil => exact .nil
  | cons x full ih => exact .keep x ih

theorem append {before whole : List α} (first : Thinned light before whole)
    (second : Thinned light thin full) : Thinned light (before ++ thin) (whole ++ full) := by
  induction first with
  | nil => exact second
  | keep x _ ih => exact .keep x ih
  | drop x dropped _ ih => exact .drop x dropped ih

theorem trans {middle : List α} (first : Thinned light thin middle)
    (second : Thinned light middle full) : Thinned light thin full := by
  induction second generalizing thin with
  | nil => exact first
  | keep x _ ih =>
    cases first with
    | keep _ later => exact .keep x (ih later)
    | drop _ dropped later => exact .drop x dropped (ih later)
  | drop x dropped _ ih => exact .drop x dropped (ih first)

theorem append_inv {first second : List α} (found : Thinned light thin (first ++ second)) :
    ∃ before after, thin = before ++ after ∧ Thinned light before first ∧
      Thinned light after second := by
  induction first generalizing thin with
  | nil => exact ⟨[], thin, rfl, .nil, found⟩
  | cons x first ih =>
    cases found with
    | keep _ later =>
      obtain ⟨before, after, rfl, front, back⟩ := ih later
      exact ⟨x :: before, after, rfl, .keep x front, back⟩
    | drop _ dropped later =>
      obtain ⟨before, after, rfl, front, back⟩ := ih later
      exact ⟨before, after, rfl, .drop x dropped front, back⟩

theorem cons_inv (x : α) (kept : light x = false) (found : Thinned light thin (x :: full)) :
    ∃ later, thin = x :: later ∧ Thinned light later full := by
  cases found with
  | keep _ later => exact ⟨_, rfl, later⟩
  | drop _ dropped _ =>
    rw [kept] at dropped
    cases dropped

theorem eq_of_kept (kept : ∀ x ∈ full, light x = false) (found : Thinned light thin full) :
    thin = full := by
  induction found with
  | nil => rfl
  | keep x _ ih => rw [ih fun y member => kept y (List.mem_cons_of_mem x member)]
  | drop x dropped _ _ =>
    rw [kept x List.mem_cons_self] at dropped
    cases dropped

theorem sublist (found : Thinned light thin full) : thin.Sublist full := by
  induction found with
  | nil => exact .slnil
  | keep x _ ih => exact .cons_cons x ih
  | drop x _ _ ih => exact .cons x ih

theorem filter_eq (found : Thinned light thin full) :
    thin.filter (!light ·) = full.filter (!light ·) := by
  induction found with
  | nil => rfl
  | keep x _ ih => simp only [List.filter_cons, ih]
  | drop x dropped _ ih => simp [dropped, ih]

theorem mem_iff_of_kept (x : α) (kept : light x = false) (found : Thinned light thin full) :
    x ∈ thin ↔ x ∈ full := by
  have same := congrArg (x ∈ ·) found.filter_eq
  simpa [kept] using same

theorem count_flatten_le {light : Text → Bool} {thin full : List Text} (c : Char)
    (found : Thinned light thin full) : thin.flatten.count c ≤ full.flatten.count c := by
  induction found with
  | nil => exact Nat.le_refl 0
  | keep line _ ih =>
    rw [List.flatten_cons, List.flatten_cons, List.count_append, List.count_append]
    omega
  | drop line _ _ ih =>
    rw [List.flatten_cons, List.count_append]
    omega

end Thinned

end Thinning

section Tidying

/-- Whether a line is blank or ends with an opening brace. -/
def endsOpen (line : Text) : Bool :=
  (Text.trimEnd line).isEmpty || (Text.trimEnd line).getLast? == some '\x7b'

/-- A line may follow another: it is no blank line behind one that is blank or opens a body. -/
def Follows (line next : Text) : Prop := ¬ (endsOpen line = true ∧ Text.isBlankLine next = true)

/-- A line may stand above another: it is no blank line above the closing brace of the class. -/
def StandsAbove (line next : Text) : Prop :=
  ¬ (Text.isBlankLine line = true ∧ next = ['\x7d'])

theorem droppedBlank_none (next? : Option Text) :
    droppedBlank none next? = (next? == some ['\x7d']) := rfl

theorem droppedBlank_some (kept : Text) (next? : Option Text) :
    droppedBlank (some kept) next? = (endsOpen kept || next? == some ['\x7d']) := rfl

theorem tidyAfter_cons (kept? : Option Text) (line : Text) (rest : List Text) :
    tidyAfter kept? (line :: rest) =
      if Text.isBlankLine line && droppedBlank kept? rest.head? then tidyAfter kept? rest
      else line :: tidyAfter (some line) rest := rfl

theorem thinned_tidyAfter (kept? : Option Text) (lines : List Text) :
    Thinned Text.isBlankLine (tidyAfter kept? lines) lines := by
  induction lines generalizing kept? with
  | nil => exact .nil
  | cons line rest ih =>
    rw [tidyAfter_cons]
    split
    · next dropped =>
      rw [Bool.and_eq_true] at dropped
      exact .drop line dropped.1 (ih kept?)
    · exact .keep line (ih (some line))

-- The line kept last and the next one that is kept.
theorem follows_tidyAfter (kept? : Option Text) (lines : List Text) :
    (∀ kept ∈ kept?, ∀ line ∈ (tidyAfter kept? lines).head?, Follows kept line) ∧
      (tidyAfter kept? lines).IsChain Follows := by
  induction lines generalizing kept? with
  | nil => exact ⟨fun _ _ _ head => (nomatch head), .nil⟩
  | cons line rest ih =>
    rw [tidyAfter_cons]
    split
    · exact ih kept?
    · next stays =>
      obtain ⟨next, later⟩ := ih (some line)
      refine ⟨?_, List.isChain_cons.mpr ⟨next line rfl, later⟩⟩
      rintro kept last first head ⟨opening, blank⟩
      cases last
      cases head
      exact stays (by rw [blank, droppedBlank_some, opening]; rfl)

theorem isChain_tidy (lines : List Text) : (tidy lines).IsChain Follows :=
  (follows_tidyAfter none lines).2

theorem tidyAfter_eq_self (kept? : Option Text) (lines : List Text)
    (first : ∀ kept ∈ kept?, ∀ line ∈ lines.head?, Follows kept line)
    (follow : lines.IsChain Follows) (above : lines.IsChain StandsAbove) :
    tidyAfter kept? lines = lines := by
  induction lines generalizing kept? with
  | nil => rfl
  | cons line rest ih =>
    rw [List.isChain_cons] at follow above
    have stays : ¬ (Text.isBlankLine line && droppedBlank kept? rest.head?) = true := by
      rw [Bool.and_eq_true]
      rintro ⟨blank, dropped⟩
      have closing : rest.head? ≠ some ['\x7d'] := fun head => above.1 _ head ⟨blank, rfl⟩
      have notLast : (rest.head? == some ['\x7d']) = false := beq_eq_false_iff_ne.mpr closing
      cases kept? with
      | none =>
        rw [droppedBlank_none, notLast] at dropped
        cases dropped
      | some kept =>
        rw [droppedBlank_some, notLast, Bool.or_false] at dropped
        exact first kept rfl line rfl ⟨dropped, blank⟩
    rw [tidyAfter_cons, if_neg stays]
    refine congrArg (List.cons line) (ih (some line) ?_ follow.2 above.2)
    intro kept last
    cases last
    exact follow.1

theorem tidy_eq_self (lines : List Text) (follow : lines.IsChain Follows)
    (above : lines.IsChain StandsAbove) : tidy lines = lines :=
  tidyAfter_eq_self none lines (fun _ last => nomatch last) follow above

theorem standsAbove_of_tidyAfter (kept? : Option Text) (lines : List Text)
    (same : tidyAfter kept? lines = lines) : lines.IsChain StandsAbove := by
  induction lines generalizing kept? with
  | nil => exact .nil
  | cons line rest ih =>
    rw [tidyAfter_cons] at same
    split at same
    · -- A line that is left out makes the result shorter.
      have short := (thinned_tidyAfter kept? rest).sublist.length_le
      rw [same, List.length_cons] at short
      omega
    · next stays =>
      refine List.isChain_cons.mpr ⟨?_, ih (some line) (List.cons.inj same).2⟩
      rintro next head ⟨blank, rfl⟩
      have closing : rest.head? = some ['\x7d'] := head
      apply stays
      rw [blank, closing]
      cases kept? with
      | none => rfl
      | some kept => simp [droppedBlank_some]

-- The first line is left out above a closing brace only, and that brace stays.
theorem tidy_ne_nil (lines : List Text) (written : lines ≠ []) : tidy lines ≠ [] := by
  cases lines with
  | nil => exact absurd rfl written
  | cons line rest =>
    rw [tidy, tidyAfter_cons]
    split
    · next dropped =>
      rw [Bool.and_eq_true, droppedBlank_none, beq_iff_eq] at dropped
      cases rest with
      | nil => cases dropped.2
      | cons next rest =>
        have closing : next = ['\x7d'] := Option.some.inj dropped.2
        have visible : Text.isBlankLine ['\x7d'] = false := by decide
        rw [tidyAfter_cons, closing, visible]
        exact List.cons_ne_nil _ _
    · exact List.cons_ne_nil _ _

theorem count_tidy_le (c : Char) (lines : List Text) :
    (tidy lines).flatten.count c ≤ lines.flatten.count c :=
  (thinned_tidyAfter none lines).count_flatten_le c

end Tidying

end HeaderBindings
