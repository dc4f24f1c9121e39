import HeaderBindings.Proofs.Arrangement.Blanks
import HeaderBindings.Proofs.Arrangement.Passages
import Mathlib.Data.List.Perm.Basic

/-!
What putting a module in order does to its items. They are permuted: the signatures of a member
that has an implementation are drained once, right above its first implementation, and all other
items keep their order. Blank lines aside, the text is then the items' lines, a mark filled in.
-/

namespace HeaderBindings

namespace Item

section Moving

/-- The lines that an item is written as. -/
def filling : Item → List Text
  | marker key doc => doc ++ stub key
  | item => original item

def signs (key : MemberKey) : Item → Bool
  | signature own _ => own == key
  | _ => false

/-- Whether an item keeps its place: it is no signature of a member that has an implementation. -/
def stays (all : List Item) : Item → Bool
  | signature key _ => !all.any (implements key)
  | _ => true

/-- The items in the order in which they are written, given all items and the keys whose first
implementation is written. -/
def moved (all : List Item) (written : List MemberKey) : List Item → List Item
  | [] => []
  | plain text :: rest => plain text :: moved all written rest
  | signature key lines :: rest =>
    (if all.any (implements key) then [] else [signature key lines]) ++ moved all written rest
  | implementation key lines :: rest =>
    (if written.contains key then [] else all.filter (signs key)) ++
      implementation key lines :: moved all (key :: written) rest
  | marker key doc :: rest => marker key doc :: moved all written rest

theorem signaturesOf_eq (key : MemberKey) (all : List Item) :
    signaturesOf key all = (all.filter (signs key)).flatMap filling := by
  induction all with
  | nil => rfl
  | cons item all ih =>
    rw [signaturesOf] at ih ⊢
    rw [List.flatMap_cons, ih, List.filter_cons]
    cases item with
    | signature own lines =>
      by_cases same : own = key
      · simp [signatureLines, signs, filling, original, same]
      · simp [signatureLines, signs, same]
    | _ => rfl

theorem arrangeAfter_eq (all : List Item) (written : List MemberKey) (items : List Item) :
    arrangeAfter all written items = (moved all written items).flatMap filling := by
  induction items generalizing written with
  | nil => rfl
  | cons item items ih =>
    cases item with
    | plain text => simp [arrangeAfter, moved, ih, filling, original]
    | signature key lines =>
      rw [arrangeAfter, moved, ih]
      split <;> simp [filling, original]
    | implementation key lines =>
      rw [arrangeAfter, moved, ih, signaturesOf_eq]
      split <;> simp [filling, original]
    | marker key doc => simp [arrangeAfter, moved, ih, filling]

theorem arrange_eq (items : List Item) : arrange items = (moved items [] items).flatMap filling :=
  arrangeAfter_eq items [] items

end Moving

section Permuting

theorem filter_or_perm {α : Type} (first second : α → Bool) (list : List α)
    (apart : ∀ x, first x = true → second x = false) :
    (list.filter fun x => first x || second x).Perm (list.filter first ++ list.filter second) := by
  have parts := List.filter_append_perm first (list.filter fun x => first x || second x)
  have own : (list.filter fun x => first x || second x).filter first = list.filter first := by
    rw [List.filter_filter]
    refine List.filter_congr fun x _ => ?_
    cases first x <;> rfl
  have other : (list.filter fun x => first x || second x).filter (fun x => !first x) =
      list.filter second := by
    rw [List.filter_filter]
    refine List.filter_congr fun x _ => ?_
    cases here : first x with
    | false => simp
    | true => simp [apart x here]
  rw [own, other] at parts
  exact parts.symm

/-- Whether an item is drained above one of the implementations that are still to be written. -/
def due (written : List MemberKey) (items : List Item) : Item → Bool
  | signature key _ => !written.contains key && items.any (implements key)
  | _ => false

theorem due_of_other (written : List MemberKey) (item : Item) (items : List Item)
    (other : ∀ key, implements key item = false) : due written (item :: items) = due written items := by
  funext next
  cases next with
  | signature key lines => simp [due, other key]
  | _ => rfl

theorem due_implementation (written : List MemberKey) (key : MemberKey) (lines : List Text)
    (items : List Item) : due written (implementation key lines :: items) =
      fun item => (!written.contains key && signs key item) || due (key :: written) items item := by
  funext item
  cases item with
  | signature own _ =>
    by_cases same : own = key
    · subst same
      simp [due, signs, implements]
    · have apart : (own == key) = false := beq_eq_false_iff_ne.mpr same
      have apart' : (key == own) = false := beq_eq_false_iff_ne.mpr (Ne.symm same)
      simp only [due, signs, implements, List.any_cons, apart, apart', List.contains_cons,
        Bool.and_false, Bool.false_or]
  | _ => simp [due, signs]

theorem signs_apart_due (written : List MemberKey) (key : MemberKey) (items : List Item)
    (item : Item) (signed : signs key item = true) : due (key :: written) items item = false := by
  cases item with
  | signature own lines =>
    have same : own = key := by simpa [signs] using signed
    subst same
    simp [due]
  | _ => rfl

-- What stays among the items, and what is drained between them.
theorem moved_perm (all : List Item) (written : List MemberKey) (items : List Item) :
    (moved all written items).Perm
      (all.filter (due written items) ++ items.filter (stays all)) := by
  induction items generalizing written with
  | nil =>
    have none : all.filter (due written []) = [] := by
      refine List.filter_eq_nil_iff.mpr fun item _ => ?_
      cases item <;> simp [due]
    rw [none]
    exact .nil
  | cons item items ih =>
    cases item with
    | plain text =>
      rw [moved, due_of_other written _ _ fun _ => rfl]
      exact (List.Perm.cons _ (ih written)).trans List.perm_middle.symm
    | signature key lines =>
      rw [moved, due_of_other written _ _ fun _ => rfl]
      by_cases implemented : all.any (implements key) = true
      · rw [if_pos implemented, List.filter_cons_of_neg (by simp [stays, implemented])]
        exact ih written
      · rw [if_neg implemented, List.filter_cons_of_pos (by simpa [stays] using implemented)]
        exact (List.Perm.cons _ (ih written)).trans List.perm_middle.symm
    | implementation key lines =>
      have inner := (List.Perm.cons (implementation key lines) (ih (key :: written))).trans
        List.perm_middle.symm
      rw [moved, List.filter_cons_of_pos (by rfl)]
      by_cases old : written.contains key = true
      · rw [if_pos old, due_implementation, old]
        exact inner
      · have fresh := Bool.not_eq_true _ ▸ old
        have drained := filter_or_perm (signs key) (due (key :: written) items) all
          (signs_apart_due written key items)
        rw [if_neg old, due_implementation, fresh]
        refine (List.Perm.append_left _ inner).trans ?_
        rw [← List.append_assoc]
        exact List.Perm.append_right _ drained.symm
    | marker key doc =>
      rw [moved, due_of_other written _ _ fun _ => rfl]
      exact (List.Perm.cons _ (ih written)).trans List.perm_middle.symm

theorem moved_perm_self (items : List Item) : (moved items [] items).Perm items := by
  have same : due [] items = fun item => !stays items item := by
    funext item
    cases item <;> simp [due, stays]
  have parts := moved_perm items [] items
  rw [same] at parts
  exact parts.trans (List.perm_append_comm.trans (List.filter_append_perm _ _))

end Permuting

section Keeping

theorem filter_signs_stays (all : List Item) (key : MemberKey)
    (implemented : all.any (implements key) = true) :
    (all.filter (signs key)).filter (stays all) = [] := by
  refine List.filter_eq_nil_iff.mpr fun item member => ?_
  have signed := (List.mem_filter.mp member).2
  cases item with
  | signature own lines =>
    have same : own = key := by simpa [signs] using signed
    simp [stays, same, implemented]
  | _ => cases signed

theorem filter_moved (all : List Item) (written : List MemberKey) (items : List Item)
    (inside : items ⊆ all) :
    (moved all written items).filter (stays all) = items.filter (stays all) := by
  induction items generalizing written with
  | nil => rfl
  | cons item items ih =>
    have later : items ⊆ all := fun next member => inside (List.mem_cons_of_mem item member)
    cases item with
    | plain text => rw [moved, List.filter_cons, List.filter_cons, ih written later]
    | signature key lines =>
      rw [moved, List.filter_append, ih written later, List.filter_cons]
      by_cases implemented : all.any (implements key) = true
      · simp [stays, implemented]
      · simp [stays, implemented]
    | implementation key lines =>
      have implemented : all.any (implements key) = true :=
        List.any_eq_true.mpr ⟨_, inside List.mem_cons_self, by simp [implements]⟩
      rw [moved, List.filter_append, List.filter_cons, ih _ later, List.filter_cons]
      split
      · rfl
      · rw [filter_signs_stays all key implemented]
        rfl
    | marker key doc => rw [moved, List.filter_cons, List.filter_cons, ih written later]

end Keeping

section Gathering

/-- The keys whose first implementation is written after more items. -/
def writtenAfter (written : List MemberKey) : List Item → List MemberKey
  | [] => written
  | implementation key _ :: rest => writtenAfter (key :: written) rest
  | _ :: rest => writtenAfter written rest

theorem moved_append (all : List Item) (written : List MemberKey) (front back : List Item) :
    moved all written (front ++ back) =
      moved all written front ++ moved all (writtenAfter written front) back := by
  induction front generalizing written with
  | nil => rfl
  | cons item front ih => cases item <;> simp [moved, writtenAfter, ih]

theorem contains_writtenAfter (written : List MemberKey) (items : List Item) (key : MemberKey) :
    (writtenAfter written items).contains key =
      (written.contains key || items.any (implements key)) := by
  induction items generalizing written with
  | nil => simp [writtenAfter]
  | cons item items ih =>
    cases item with
    | implementation own lines =>
      rw [writtenAfter, ih, List.contains_cons, List.any_cons, implements]
      rw [Bool.beq_comm (a := own), Bool.or_comm (key == own), Bool.or_assoc]
    | _ => exact ih written

-- The first implementation of a member is written with all signatures of the member above it.
theorem gathered_moved (items : List Item) (key : MemberKey)
    (implemented : items.any (implements key) = true) :
    ∃ above lines below,
      moved items [] items = above ++ items.filter (signs key) ++ implementation key lines :: below ∧
        above.any (implements key) = false := by
  obtain ⟨first, found⟩ := List.find?_isSome.mpr (List.any_eq_true.mp implemented) |>
    Option.isSome_iff_exists.mp
  obtain ⟨implements', front, back, split, before⟩ := List.find?_eq_some_iff_append.mp found
  have free : front.any (implements key) = false := by simpa using before
  cases first with
  | implementation own lines =>
    have same : own = key := by simpa [implements] using implements'
    subst same
    refine ⟨moved items [] front, lines, moved items (own :: writtenAfter [] front) back, ?_, ?_⟩
    · have fresh : (writtenAfter [] front).contains own = false := by
        rw [contains_writtenAfter, free]
        rfl
      conv => lhs; rw [split]
      rw [moved_append, moved, ← split, fresh, List.append_assoc]
      rfl
    · -- Above stands what stays in front of it and signatures that are drained there.
      rw [(moved_perm items [] front).any_eq, List.any_append, Bool.or_eq_false_iff]
      constructor
      · refine List.any_eq_false.mpr fun item member => ?_
        have drained := (List.mem_filter.mp member).2
        cases item with
        | signature _ _ => simp [implements]
        | _ => cases drained
      · refine List.any_eq_false.mpr fun item member => ?_
        exact List.any_eq_false.mp free item (List.mem_filter.mp member).1
  | _ => cases implements'

end Gathering

section Characters

theorem named_of_reads (lines : List Text) (items : List Item) (reads : Reads lines items)
    (key : MemberKey) (doc : List Text) (member : marker key doc ∈ items) :
    isName key.name = true := by
  induction reads with
  | nil => cases member
  | comment comments _ _ ih =>
    rcases List.mem_append.mp member with raw | later
    · simp [rawLines] at raw
    · exact ih later
  | line _ _ _ _ ih => exact ih (by simpa using member)
  | signature _ _ _ _ _ _ ih => exact ih (by simpa using member)
  | implementation _ _ _ _ _ _ _ _ ih => exact ih (by simpa using member)
  | marker _ head own _ marked _ ih =>
    rcases List.mem_cons.mp member with here | later
    · cases here
      exact ((markerKey_eq_some_iff head key).mp marked).2
    · exact ih later
  | tail lines _ => simp [rawLines] at member

theorem not_mem_stub (key : MemberKey) (named : isName key.name = true) (c : Char)
    (control : c = '\n' ∨ c = '\r') : c ∉ (stub key).flatten := by
  have free : c ∉ key.name := by
    rcases control with rfl | rfl
    · exact fun inside => absurd (tail_of_name key.name named _ inside) (by decide)
    · exact fun inside => absurd (tail_of_name key.name named _ inside) (by decide)
  have static : c ∉ (if key.isStatic then "static ".toList else []) := by
    rcases control with rfl | rfl <;> split <;> decide
  have fixed : ∀ text ∈ ["  ".toList, "(...args: unknown[]): unknown \x7b".toList,
      "    throw new Error(\"".toList, ": declaration could not be bound\");".toList,
      "  \x7d".toList], c ∉ text := by
    rcases control with rfl | rfl <;> decide
  simp only [List.forall_mem_cons] at fixed
  obtain ⟨blank, params, thrown, message, closed, _⟩ := fixed
  simp only [stub, List.flatten_cons, List.flatten_nil, List.mem_append, not_or]
  exact ⟨⟨⟨⟨blank, static⟩, free⟩, params⟩, ⟨⟨thrown, free⟩, message⟩, closed, List.not_mem_nil⟩

theorem count_filling_le (c : Char) (control : c = '\n' ∨ c = '\r') (items : List Item)
    (named : ∀ key doc, marker key doc ∈ items → isName key.name = true) :
    (items.flatMap filling).flatten.count c ≤ (items.flatMap original).flatten.count c := by
  induction items with
  | nil => exact Nat.le_refl 0
  | cons item items ih =>
    have later := ih fun key doc member => named key doc (List.mem_cons_of_mem item member)
    have here : (filling item).flatten.count c ≤ (original item).flatten.count c := by
      cases item with
      | marker key doc =>
        have none := List.count_eq_zero.mpr
          (not_mem_stub key (named key doc List.mem_cons_self) c control)
        rw [filling, original, List.flatten_append, List.flatten_append, List.count_append,
          List.count_append, none]
        omega
      | _ => exact Nat.le_refl _
    rw [List.flatMap_cons, List.flatMap_cons, List.flatten_append, List.flatten_append,
      List.count_append, List.count_append]
    omega

-- Writing items down adds no line feed and no carriage return.
theorem count_tidy_arrange_le (c : Char) (control : c = '\n' ∨ c = '\r') (lines : List Text) :
    (tidy (arrange (ofLines lines))).flatten.count c ≤ lines.flatten.count c := by
  have reads := reads_ofLines lines
  have permuted := ((moved_perm_self (ofLines lines)).flatMap_right filling).flatten.count_eq c
  calc (tidy (arrange (ofLines lines))).flatten.count c
      ≤ (arrange (ofLines lines)).flatten.count c :=
        count_tidy_le c _
    _ = ((ofLines lines).flatMap filling).flatten.count c := by rw [arrange_eq, permuted]
    _ ≤ ((ofLines lines).flatMap original).flatten.count c :=
        count_filling_le c control _ (named_of_reads lines _ reads)
    _ = lines.flatten.count c := by rw [original_ofLines]

theorem arrange_ne_nil (lines : List Text) (written : lines ≠ []) : arrange (ofLines lines) ≠ [] := by
  intro empty
  rw [arrange_eq, List.flatMap_eq_nil_iff] at empty
  have none : (ofLines lines).flatMap original = [] := by
    refine List.flatMap_eq_nil_iff.mpr fun item member => ?_
    have nothing := empty item ((moved_perm_self _).mem_iff.mpr member)
    cases item with
    | marker key doc => exact absurd (List.append_eq_nil_iff.mp nothing).2 (List.cons_ne_nil _ _)
    | _ => exact nothing
  exact written (original_ofLines lines ▸ none)

end Characters

end Item

section Rearranging

open Item

theorem reflow_eq (source : Text) : reflow source =
    Text.join ['\n'] (tidy (arrange (ofLines source.lines))) ++ Text.ending source := rfl

theorem feed_of_tidy (source line : Text)
    (member : line ∈ tidy (arrange (ofLines source.lines))) : '\n' ∉ line := by
  have none : source.lines.flatten.count '\n' = 0 := by
    rw [List.count_eq_zero, List.mem_flatten]
    rintro ⟨other, inside, feed⟩
    exact (Text.mem_lines source other inside).1 feed
  have bound := count_tidy_arrange_le '\n' (Or.inl rfl) source.lines
  rw [none, Nat.le_zero, List.count_eq_zero] at bound
  exact fun feed => bound (List.mem_flatten.mpr ⟨line, member, feed⟩)

theorem count_reflow (source : Text) : (reflow source).count '\r' =
    (tidy (arrange (ofLines source.lines))).flatten.count '\r' := by
  have none : (Text.ending source).count '\r' = 0 := by
    unfold Text.ending
    split <;> decide
  rw [reflow_eq, List.count_append, Text.count_join '\r' (by decide), none, Nat.add_zero]

theorem plainFeeds_reflow (source : Text) (unreturned : '\r' ∉ source) :
    Text.PlainFeeds (reflow source) := by
  have kept : (reflow source).count '\r' = 0 := by
    have bound := count_tidy_arrange_le '\r' (Or.inr rfl) source.lines
    have none := List.count_eq_zero.mpr unreturned
    have lines := Text.count_lines_le '\r' source
    rw [count_reflow]
    omega
  exact Text.plainFeeds_of_free (reflow source) (List.count_eq_zero.mp kept)

-- A text that ends with a line feed has one behind each line when it is in order.
theorem reflow_of_ended (source : Text) (ended : source.getLast? = some '\n') :
    reflow source = Text.unlines (tidy (arrange (ofLines source.lines))) := by
  have written : source.lines ≠ [] := by
    rw [ne_eq, Text.lines_eq_nil_iff]
    rintro rfl
    cases ended
  rw [reflow_eq, Text.ending, if_pos ended]
  cases found : tidy (arrange (ofLines source.lines)) with
  | nil => exact absurd found (tidy_ne_nil _ (arrange_ne_nil _ written))
  | cons first lines => exact Text.join_feed first lines

-- A text in order is read as the lines it was written as, but for an empty one at its very end.
theorem lines_reflow (source : Text) (plain : Text.PlainFeeds (reflow source)) :
    (reflow source).lines = tidy (arrange (ofLines source.lines)) ∨
      ∃ init, tidy (arrange (ofLines source.lines)) = init ++ [[]] ∧ (reflow source).lines = init := by
  have free := feed_of_tidy source
  by_cases ended : source.getLast? = some '\n'
  · rw [reflow_of_ended source ended] at plain ⊢
    exact Or.inl (Text.lines_unlines_plain _ free plain)
  · have joined : reflow source = Text.join ['\n'] (tidy (arrange (ofLines source.lines))) := by
      rw [reflow_eq, Text.ending, if_neg ended, List.append_nil]
    rw [joined] at plain ⊢
    exact Text.lines_join _ free plain

/-- The lines of a text in order are those of its arranged items, less some that are blank. -/
theorem thinned_lines_reflow (source : Text) (plain : Text.PlainFeeds (reflow source)) :
    Thinned Text.isBlankLine (reflow source).lines (arrange (ofLines source.lines)) := by
  have tidied := thinned_tidyAfter none (arrange (ofLines source.lines))
  rcases lines_reflow source plain with same | ⟨init, split, read⟩
  · rw [same]
    exact tidied
  · have shorter : Thinned Text.isBlankLine init (init ++ [[]]) := by
      simpa using (Thinned.refl init).append (.drop [] rfl .nil)
    rw [read]
    exact shorter.trans (split ▸ tidied)

section Keeping

variable (lines : List Text) (line : Text)

-- Putting lines in order brings no lines in but those of the members that it fills in.
theorem source_of_tidy (member : line ∈ tidy (arrange (ofLines lines))) :
    line ∈ lines ∨ ∃ key, line ∈ stub key := by
  have arranged := (thinned_tidyAfter none (arrange (ofLines lines))).sublist.mem member
  rw [arrange_eq] at arranged
  obtain ⟨item, moved, inside⟩ := List.mem_flatMap.mp arranged
  have known := (moved_perm_self (ofLines lines)).mem_iff.mp moved
  have whole : ∀ line ∈ original item, line ∈ lines := fun line own => by
    rw [← original_ofLines lines]
    exact List.mem_flatMap.mpr ⟨item, known, own⟩
  cases item with
  | marker key doc =>
    rcases List.mem_append.mp inside with documented | filled
    · exact Or.inl (whole line (List.mem_append_left _ documented))
    · exact Or.inr ⟨key, filled⟩
  | _ => exact Or.inl (whole line inside)

-- A line that is not blank stays, unless it is a mark.
theorem mem_tidy (member : line ∈ lines) (seen : Text.isBlankLine line = false)
    (unmarked : ∀ key, line ≠ markLine key) : line ∈ tidy (arrange (ofLines lines)) := by
  apply (Thinned.mem_iff_of_kept line seen (thinned_tidyAfter none (arrange (ofLines lines)))).mpr
  rw [← original_ofLines lines] at member
  obtain ⟨item, known, inside⟩ := List.mem_flatMap.mp member
  rw [arrange_eq]
  refine List.mem_flatMap.mpr ⟨item, (moved_perm_self (ofLines lines)).mem_iff.mpr known, ?_⟩
  cases item with
  | marker key doc =>
    rcases List.mem_append.mp inside with documented | marked
    · exact List.mem_append_left _ documented
    · exact absurd (List.mem_singleton.mp marked) (unmarked key)
  | _ => exact inside

end Keeping

/-- The lines that are not blank. -/
def visible (lines : List Text) : List Text := lines.filter (!Text.isBlankLine ·)

/-- Items in the order of a module that was put in order: a permutation that leaves every item in
its place but the signatures of members with an implementation, and has these, in their order,
directly above the first implementation of their member. -/
structure Rearranges (items arranged : List Item) : Prop where
  whole : arranged.Perm items
  ordered : arranged.filter (stays items) = items.filter (stays items)
  gathered : ∀ key, items.any (implements key) = true → ∃ above lines below,
    arranged = above ++ items.filter (signs key) ++ implementation key lines :: below ∧
      above.any (implements key) = false

theorem rearranges_moved (items : List Item) : Rearranges items (moved items [] items) where
  whole := moved_perm_self items
  ordered := filter_moved items [] items (List.Subset.refl items)
  gathered := gathered_moved items

/-- A module whose members have signatures below an implementation, a body without an end and
documentation that no member follows. -/
def scattered : Text := Text.unlines
  ["export class Panel \x7b".toList, "  /** Runs. */".toList, [], "  run(): void \x7b".toList,
    "  \x7d".toList, "  // @veneer-incomplete stop".toList, "  /** Runs on. */".toList,
    "  run(x: number): void;".toList, "  run(): void \x7b".toList]

/-- Putting a module in order loses and duplicates nothing. Its items hold all its lines; blank
lines aside, the result has the lines of these items with the marks among them filled in, and it
consists of the lines of rearranged items from which nothing but blank lines has been left out. -/
theorem reflow_rearranges (source : Text) (unreturned : '\r' ∉ source) :
    (ofLines source.lines).flatMap original = source.lines ∧
      (visible (reflow source).lines).Perm (visible ((ofLines source.lines).flatMap filling)) ∧
      ∃ arranged, Rearranges (ofLines source.lines) arranged ∧
        Thinned Text.isBlankLine (reflow source).lines (arranged.flatMap filling) := by
  have arranges := rearranges_moved (ofLines source.lines)
  have thinned := thinned_lines_reflow source (plainFeeds_reflow source unreturned)
  rw [arrange_eq] at thinned
  have same : visible (reflow source).lines = visible _ := thinned.filter_eq
  constructor
  · exact original_ofLines source.lines
  constructor
  · rw [same]
    exact (arranges.whole.flatMap_right filling).filter _
  · exact ⟨_, arranges, thinned⟩

theorem reflow_rearranges_scattered : '\r' ∉ scattered ∧
    (ofLines scattered.lines).flatMap original = scattered.lines ∧
    (visible (reflow scattered).lines).Perm (visible ((ofLines scattered.lines).flatMap filling)) ∧
    ∃ arranged, Rearranges (ofLines scattered.lines) arranged ∧
      Thinned Text.isBlankLine (reflow scattered).lines (arranged.flatMap filling) := by
  have unreturned : '\r' ∉ scattered := by decide +kernel
  exact ⟨unreturned, reflow_rearranges scattered unreturned⟩

end Rearranging

end HeaderBindings
