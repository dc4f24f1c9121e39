import HeaderBindings.Proofs.Text.Bytes
import HeaderBindings.Proofs.Text.Lines
import Mathlib.Tactic.SplitIfs

/-!
Access by places. The readers of declarations and comments can be written with places in a list of
tokens or in the bytes of a text; then a place outside, a range that ends before it starts, a place
inside a character and an unsigned number below zero each end the whole program. Here such an access
is an operation that may be trapped, with a law for each place that is known to be in range.
-/

namespace HeaderBindings

/-- How an access ends the program; also a loop that goes on for more rounds than it has input. -/
inductive Trap where
  | belowZero
  | outside
  | backwards
  | insideCharacter
  | endless
  deriving DecidableEq, Repr

/-- A computation whose accesses are checked. -/
abbrev Checked (α : Type) := Except Trap α

namespace Checked

/-- Subtraction of unsigned numbers. -/
def minus (whole part : Nat) : Checked Nat :=
  if part ≤ whole then .ok (whole - part) else .error .belowZero

variable {α β ε : Type}

@[simp] theorem ok_bind (value : α) (next : α → Except ε β) :
    (Except.ok value >>= next) = next value := rfl

theorem bind_eq_ok {first : Except ε α} {next : α → Except ε β} {result : β} :
    (first >>= next) = .ok result ↔ ∃ value, first = .ok value ∧ next value = .ok result := by
  cases first with
  | error fault => exact ⟨nofun, nofun⟩
  | ok value => simp

section Lists

def item (list : List α) (place : Nat) : Checked α :=
  match list[place]? with
  | some member => .ok member
  | none => .error .outside

/-- The members from a place up to another one. -/
def slice (list : List α) (start stop : Nat) : Checked (List α) :=
  if stop < start then .error .backwards
  else if list.length < stop then .error .outside
  else .ok ((list.take stop).drop start)

/-- The list without the member at a place. -/
def remove (list : List α) (place : Nat) : Checked (List α) :=
  if place < list.length then .ok (list.eraseIdx place) else .error .outside

/-- A range is taken exactly when it does not end before it starts and ends in the list. -/
theorem slice_iff {list : List α} {start stop : Nat} :
    (∃ members, slice list start stop = .ok members) ↔ start ≤ stop ∧ stop ≤ list.length := by
  unfold slice
  split_ifs with backwards outside
  · exact ⟨nofun, fun inRange => absurd inRange.1 (by omega)⟩
  · exact ⟨nofun, fun inRange => absurd inRange.2 (by omega)⟩
  · exact ⟨fun _ => by omega, fun _ => ⟨_, rfl⟩⟩

variable (front part back : List α) (member : α)

theorem item_append : item (front ++ member :: back) front.length = .ok member := by
  simp [item]

theorem slice_append :
    slice (front ++ (part ++ back)) front.length (front.length + part.length) = .ok part := by
  have within : ¬ (front ++ (part ++ back)).length < front.length + part.length := by
    simp only [List.length_append]
    omega
  rw [slice, if_neg (by omega), if_neg within, ← List.append_assoc, ← List.length_append,
    List.take_left, List.drop_left]

theorem slice_front : slice (part ++ back) 0 part.length = .ok part := by
  simpa using slice_append [] part back

theorem slice_back : slice (front ++ part) front.length (front ++ part).length = .ok part := by
  simpa using slice_append front part []

theorem remove_append :
    remove (front ++ member :: back) front.length = .ok (front ++ back) := by
  simp [remove, List.eraseIdx_append_of_length_le]

/-- The first member of a kind, with what stands in front of it and behind it. -/
theorem split_of_findIdx {wanted : α → Bool} {list : List α} {place : Nat}
    (found : list.findIdx? wanted = some place) : ∃ front member back,
      list = front ++ member :: back ∧ place = front.length ∧ wanted member = true ∧
        ∀ other ∈ front, wanted other = false := by
  obtain ⟨within, here, earlier⟩ := List.findIdx?_eq_some_iff_getElem.mp found
  refine ⟨list.take place, list[place], list.drop (place + 1), ?_, ?_, here, fun other among => ?_⟩
  · rw [List.getElem_cons_drop, List.take_append_drop]
  · rw [List.length_take, Nat.min_eq_left (Nat.le_of_lt within)]
  · obtain ⟨index, bound, rfl⟩ := List.getElem_of_mem among
    have below : index < place := by
      rw [List.length_take] at bound
      omega
    simpa using earlier index below

end Lists

theorem minus_add (more part : Nat) : minus (more + part) part = .ok more := by
  simp [minus]

section Texts

/-- A text cut at a place, which has to be at the boundary of a character. -/
def cut : Nat → Text → Checked (Text × Text)
  | 0, text => .ok ([], text)
  | _ + 1, [] => .error .outside
  | place + 1, c :: text =>
    if c.utf8Size ≤ place + 1 then do
      let (front, back) ← cut (place + 1 - c.utf8Size) text
      return (c :: front, back)
    else .error .insideCharacter

/-- The text from a place up to another one. -/
def part (text : Text) (start stop : Nat) : Checked Text :=
  if stop < start then .error .backwards
  else do
    let (front, _) ← cut stop text
    let (_, middle) ← cut start front
    return middle

def till (text : Text) (stop : Nat) : Checked Text := part text 0 stop

def since (text : Text) (start : Nat) : Checked Text := part text start text.byteCount

/-- The place of the first occurrence of a pattern. -/
def find? (pattern text : Text) : Option Nat :=
  (Text.cutAt? pattern text).map fun found => found.1.byteCount

/-- The place of the first character of a kind. -/
def findWhere? (wanted : Char → Bool) (text : Text) : Option Nat :=
  if text.any wanted then some (Text.byteCount (text.takeWhile (!wanted ·))) else none

variable (front middle back : Text)

theorem cut_append : cut front.byteCount (front ++ back) = .ok (front, back) := by
  induction front with
  | nil => rw [List.nil_append, Text.byteCount, cut]
  | cons c front ih =>
    have own := c.utf8Size_pos
    obtain ⟨place, same⟩ : ∃ place, c.utf8Size + Text.byteCount front = place + 1 :=
      Nat.exists_eq_add_of_le' (by omega)
    have left : place + 1 - c.utf8Size = Text.byteCount front := by omega
    rw [Text.byteCount, same, List.cons_append, cut, if_pos (by omega), left, ih]
    rfl

theorem part_append :
    part (front ++ (middle ++ back)) front.byteCount (front.byteCount + middle.byteCount) =
      .ok middle := by
  rw [part, if_neg (by omega), ← Text.byteCount_append, ← List.append_assoc, cut_append]
  simp only [ok_bind, cut_append]
  rfl

/-- A text is cut exactly where one of its characters ends or it starts. -/
theorem cut_iff {place : Nat} {text front back : Text} :
    cut place text = .ok (front, back) ↔ text = front ++ back ∧ place = front.byteCount := by
  constructor
  · intro done
    induction place, text using cut.induct generalizing front back with
    | case1 text =>
      rw [cut] at done
      cases done
      exact ⟨rfl, rfl⟩
    | case2 place =>
      rw [cut] at done
      cases done
    | case3 place c text fits ih =>
      rw [cut, if_pos fits] at done
      obtain ⟨⟨front', back'⟩, inner, same⟩ := bind_eq_ok.mp done
      obtain ⟨rfl, left⟩ := ih inner
      cases same
      refine ⟨rfl, ?_⟩
      rw [Text.byteCount]
      omega
    | case4 place c text wide =>
      rw [cut, if_neg wide] at done
      cases done
  · rintro ⟨rfl, rfl⟩
    exact cut_append front back

/-- A range of a text is taken exactly when both of its ends are boundaries, in their order. -/
theorem part_iff {text middle : Text} {start stop : Nat} :
    part text start stop = .ok middle ↔ ∃ front back, text = front ++ (middle ++ back) ∧
      start = front.byteCount ∧ stop = front.byteCount + middle.byteCount := by
  constructor
  · intro done
    rw [part] at done
    split at done
    · cases done
    · obtain ⟨⟨upTo, back⟩, outer, done⟩ := bind_eq_ok.mp done
      obtain ⟨⟨front, own⟩, inner, same⟩ := bind_eq_ok.mp done
      obtain ⟨rfl, rfl⟩ := cut_iff.mp outer
      obtain ⟨rfl, rfl⟩ := cut_iff.mp inner
      cases same
      exact ⟨front, back, List.append_assoc _ _ _, rfl, Text.byteCount_append _ _⟩
  · rintro ⟨front, back, rfl, rfl, rfl⟩
    exact part_append front middle back

example : part ['a', 'é'] 0 2 = .error .insideCharacter := rfl

theorem till_append : till (front ++ back) front.byteCount = .ok front := by
  have whole := part_append [] front back
  rwa [Text.byteCount, Nat.zero_add] at whole

theorem since_append : since (front ++ back) front.byteCount = .ok back := by
  have whole := part_append front back []
  rwa [List.append_nil, ← Text.byteCount_append] at whole

end Texts

end Checked

end HeaderBindings
