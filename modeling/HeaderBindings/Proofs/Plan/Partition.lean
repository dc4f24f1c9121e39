import HeaderBindings.Script.Plan
import Mathlib.Data.List.Nodup
import Mathlib.Data.List.Range
import Mathlib.Data.List.Perm.Basic
import Mathlib.Data.List.Flatten

/-!
A plan puts each method of its class in one place. Planning is a run over the methods, the well
formed ones first; a step puts one method anywhere, and it is the step that decides what a whole
run keeps: the methods placed so far, and the order in each list of the plan.
-/

namespace HeaderBindings

namespace MemberPlan

/-- A run that puts methods one after another, each where a choice puts it that sees the plan so
far. -/
def run (choose : MemberPlan → Method → Placement) : MemberPlan → List Entry → MemberPlan
  | plan, [] => plan
  | plan, entry :: entries => run choose (plan.put entry (choose plan entry.method)) entries

def wellFormedEntries (decl : ClassDecl) : List Entry :=
  (entries decl).filter (·.method.wellFormed)

def malformedEntries (decl : ClassDecl) : List Entry :=
  (entries decl).filter (!·.method.wellFormed)

/-- The plan after the well-formed methods. -/
def bound (decl : ClassDecl) : MemberPlan := run (placeWellFormed decl) {} (wellFormedEntries decl)

theorem run_eq_foldl (choose : MemberPlan → Method → Placement) (plan : MemberPlan)
    (entries : List Entry) :
    run choose plan entries =
      entries.foldl (fun plan entry => plan.put entry (choose plan entry.method)) plan := by
  induction entries generalizing plan with
  | nil => rfl
  | cons entry entries ih => exact ih _

theorem ofClass_eq_run (decl : ClassDecl) :
    ofClass decl = run placeMalformed (bound decl) (malformedEntries decl) := by
  simp only [ofClass, List.partition_eq_filter_filter, run_eq_foldl, bound, wellFormedEntries,
    malformedEntries, Function.comp_def]

/-- What every step keeps holds after a run. -/
theorem run_induction (choose : MemberPlan → Method → Placement) (holds : MemberPlan → Prop)
    (entries : List Entry) (plan : MemberPlan) (start : holds plan)
    (step : ∀ plan, ∀ entry ∈ entries, holds plan →
      holds (plan.put entry (choose plan entry.method))) :
    holds (run choose plan entries) := by
  induction entries generalizing plan with
  | nil => exact start
  | cons entry entries ih =>
    exact ih _ (step plan entry List.mem_cons_self start)
      (fun plan later member => step plan later (List.mem_cons_of_mem entry member))

/-- The methods that a plan has put somewhere. -/
def placed (plan : MemberPlan) : List Entry :=
  plan.setters.map (·.entry) ++ plan.groups.flatMap (·.entries) ++ plan.incomplete
    ++ plan.dropped.map (·.1)

-- What holds of a new group, of every known group and of a group that gains the method holds of
-- all groups after a method has been grouped.
theorem forall_addToGroup (holds : OverloadGroup → Prop) (entry : Entry)
    (groups : List OverloadGroup) (started : holds (OverloadGroup.start entry))
    (kept : ∀ group ∈ groups, holds group)
    (added : ∀ group ∈ groups, group.owns entry.method = true → holds (group.add entry)) :
    ∀ group ∈ addToGroup entry groups, holds group := by
  induction groups with
  | nil => simpa [addToGroup] using started
  | cons head later ih =>
    intro group member
    have tail := ih (fun g m => kept g (List.mem_cons_of_mem head m))
      (fun g m => added g (List.mem_cons_of_mem head m))
    by_cases owned : head.owns entry.method = true
    · rw [addToGroup, if_pos owned, List.mem_cons] at member
      rcases member with rfl | later
      · exact added head List.mem_cons_self owned
      · exact kept group (List.mem_cons_of_mem head later)
    · rw [addToGroup, if_neg owned, List.mem_cons] at member
      rcases member with rfl | later
      · exact kept group List.mem_cons_self
      · exact tail group later

theorem entries_addToGroup (entry : Entry) (groups : List OverloadGroup) :
    ((addToGroup entry groups).flatMap (·.entries)).Perm
      (entry :: groups.flatMap (·.entries)) := by
  induction groups with
  | nil => simp [addToGroup, OverloadGroup.start]
  | cons group later ih =>
    by_cases owned : group.owns entry.method = true
    · simp only [addToGroup, owned, if_true, List.flatMap_cons, OverloadGroup.add,
        List.append_assoc]
      exact List.perm_middle
    · simp only [addToGroup, owned, List.flatMap_cons]
      exact (List.Perm.append_left _ ih).trans List.perm_middle

-- Wherever a method is put, it is one more method of the plan.
theorem placed_put (plan : MemberPlan) (entry : Entry) (placement : Placement) :
    (plan.put entry placement).placed.Perm (entry :: plan.placed) := by
  cases placement with
  | setter name =>
    simp only [put, placed, List.map_append, List.map_cons, List.map_nil, List.append_assoc]
    exact List.perm_middle
  | grouped =>
    simp only [put, placed, List.append_assoc]
    exact (List.Perm.append_left _
      ((entries_addToGroup entry plan.groups).append_right _)).trans List.perm_middle
  | incomplete =>
    simp only [put, placed, ← List.append_assoc]
    exact (List.perm_append_singleton entry _).append_right _
  | dropped reason =>
    simp only [put, placed, List.map_append, List.map_cons, List.map_nil, ← List.append_assoc]
    exact List.perm_append_singleton entry _

theorem placed_run (choose : MemberPlan → Method → Placement) (plan : MemberPlan)
    (entries : List Entry) : (run choose plan entries).placed.Perm (plan.placed ++ entries) := by
  -- By the methods still to be placed; the choice sees a plan that grows.
  induction entries generalizing plan with
  | nil => simp [run]
  | cons entry entries ih =>
    have later := ih (plan.put entry (choose plan entry.method))
    have here := (placed_put plan entry (choose plan entry.method)).append_right entries
    exact (later.trans here).trans List.perm_middle.symm

theorem placed_ofClass (decl : ClassDecl) : (ofClass decl).placed.Perm (entries decl) := by
  rw [ofClass_eq_run]
  -- Two runs: the well-formed methods first, then the malformed ones into the plan they leave.
  refine (placed_run _ _ _).trans ?_
  refine ((placed_run (placeWellFormed decl) {} _).append_right _).trans ?_
  exact List.filter_append_perm (fun entry => entry.method.wellFormed) (entries decl)

section Order

/-- Entries in the order of their declaration. -/
def Increasing (entries : List Entry) : Prop := entries.Pairwise (·.position < ·.position)

theorem positions_entries (decl : ClassDecl) :
    (entries decl).map (·.position) = List.range decl.methods.length := by
  simp [entries, List.map_map, Function.comp_def, ← List.range_eq_range']

theorem method_at (decl : ClassDecl) (entry : Entry) (declared : entry ∈ entries decl) :
    decl.methods[entry.position]? = some entry.method := by
  simp only [entries, List.mem_map] at declared
  obtain ⟨⟨method, position⟩, member, rfl⟩ := declared
  exact List.mem_zipIdx_iff_getElem?.mp member

theorem increasing_entries (decl : ClassDecl) : Increasing (entries decl) := by
  have positions : ((entries decl).map (·.position)).Pairwise (· < ·) := by
    rw [positions_entries]
    exact List.pairwise_lt_range
  exact List.pairwise_map.mp positions

theorem increasing_sublist {kept all : List Entry} (part : kept.Sublist all)
    (order : Increasing all) : Increasing kept :=
  List.Pairwise.sublist part order

/-- The setters and each group of a plan hold entries of a list in the order of that list. -/
structure Follows (order : List Entry) (plan : MemberPlan) : Prop where
  setters : (plan.setters.map (·.entry)).Sublist order
  groups : ∀ group ∈ plan.groups, group.entries.Sublist order

theorem follows_put (order : List Entry) (plan : MemberPlan) (entry : Entry)
    (placement : Placement) (follows : Follows order plan) :
    Follows (order ++ [entry]) (plan.put entry placement) := by
  have setters := follows.setters.trans (List.sublist_append_left order [entry])
  have groups : ∀ group ∈ plan.groups, group.entries.Sublist (order ++ [entry]) :=
    fun group member =>
      (follows.groups group member).trans (List.sublist_append_left order [entry])
  cases placement with
  | setter name =>
    refine ⟨?_, groups⟩
    simpa [put] using follows.setters.append_right [entry]
  | grouped =>
    exact ⟨setters, forall_addToGroup (fun group => group.entries.Sublist (order ++ [entry]))
      entry plan.groups (List.sublist_append_right order [entry]) groups
      (fun group member _ => (follows.groups group member).append_right [entry])⟩
  | incomplete => exact ⟨setters, groups⟩
  | dropped reason => exact ⟨setters, groups⟩

theorem follows_run (choose : MemberPlan → Method → Placement) (order : List Entry)
    (plan : MemberPlan) (entries : List Entry) (follows : Follows order plan) :
    Follows (order ++ entries) (run choose plan entries) := by
  induction entries generalizing order plan with
  | nil => simpa [run] using follows
  | cons entry entries ih =>
    simpa [run] using ih (order ++ [entry]) _ (follows_put order plan entry _ follows)

theorem incomplete_put (plan : MemberPlan) (entry : Entry) (placement : Placement) :
    (plan.put entry placement).incomplete.Sublist (plan.incomplete ++ [entry]) := by
  cases placement with
  | incomplete => exact List.Sublist.refl _
  | setter name => exact List.sublist_append_left _ _
  | grouped => exact List.sublist_append_left _ _
  | dropped reason => exact List.sublist_append_left _ _

theorem incomplete_run (choose : MemberPlan → Method → Placement) (plan : MemberPlan)
    (entries : List Entry) :
    (run choose plan entries).incomplete.Sublist (plan.incomplete ++ entries) := by
  induction entries generalizing plan with
  | nil => simp [run]
  | cons entry entries ih =>
    have here := (incomplete_put plan entry (choose plan entry.method)).append_right entries
    simpa [run] using (ih _).trans here

end Order

section Passes

theorem placeInGroup_cases (plan : MemberPlan) (method : Method) :
    placeInGroup plan method = .grouped ∨
      placeInGroup plan method = .dropped .duplicateSelector := by
  unfold placeInGroup
  split <;> simp

theorem placeWellFormed_ne_incomplete (decl : ClassDecl) (plan : MemberPlan) (method : Method) :
    placeWellFormed decl plan method ≠ .incomplete := by
  have grouped : placeInGroup plan method ≠ .incomplete := by
    rcases placeInGroup_cases plan method with same | same <;> simp [same]
  unfold placeWellFormed placeSetter
  repeat' split
  all_goals first | exact grouped | simp

theorem placeMalformed_cases (plan : MemberPlan) (method : Method) :
    placeMalformed plan method = .incomplete ∨
      ∃ reason, placeMalformed plan method = .dropped reason := by
  unfold placeMalformed
  repeat' split
  all_goals simp

-- No mark is made while well-formed methods are placed.
theorem incomplete_bound (decl : ClassDecl) : (bound decl).incomplete = [] := by
  refine run_induction _ (fun plan => plan.incomplete = []) _ _ rfl ?_
  intro plan entry _ none
  have other := placeWellFormed_ne_incomplete decl plan entry.method
  cases here : placeWellFormed decl plan entry.method with
  | incomplete => exact absurd here other
  | setter name => exact none
  | grouped => exact none
  | dropped reason => exact none

-- Malformed methods never change a setter or a group.
theorem kept_by_malformed (plan : MemberPlan) (entries : List Entry) :
    (run placeMalformed plan entries).setters = plan.setters ∧
      (run placeMalformed plan entries).groups = plan.groups := by
  refine run_induction _ (fun later => later.setters = plan.setters ∧ later.groups = plan.groups)
    _ _ ⟨rfl, rfl⟩ ?_
  intro later entry _ same
  rcases placeMalformed_cases later entry.method with marked | ⟨reason, dropped⟩
  · rw [marked]; exact same
  · rw [dropped]; exact same

theorem setters_ofClass (decl : ClassDecl) : (ofClass decl).setters = (bound decl).setters := by
  rw [ofClass_eq_run]
  exact (kept_by_malformed _ _).1

theorem groups_ofClass (decl : ClassDecl) : (ofClass decl).groups = (bound decl).groups := by
  rw [ofClass_eq_run]
  exact (kept_by_malformed _ _).2

theorem follows_bound (decl : ClassDecl) : Follows (wellFormedEntries decl) (bound decl) := by
  have start : Follows [] ({} : MemberPlan) := ⟨List.Sublist.refl _, by simp⟩
  exact follows_run (placeWellFormed decl) [] {} _ start

theorem incomplete_ofClass (decl : ClassDecl) :
    (ofClass decl).incomplete.Sublist (malformedEntries decl) := by
  rw [ofClass_eq_run]
  simpa [incomplete_bound] using
    incomplete_run placeMalformed (bound decl) (malformedEntries decl)

/-- Each position of the class stands once in the plan, with the method declared there, and each
list of members keeps the order of declaration. -/
theorem positions_placed_once (decl : ClassDecl) :
    ((ofClass decl).placed.map (·.position)).Perm (List.range decl.methods.length) ∧
    (∀ entry ∈ (ofClass decl).placed, decl.methods[entry.position]? = some entry.method) ∧
    Increasing ((ofClass decl).setters.map (·.entry)) ∧
    (∀ group ∈ (ofClass decl).groups, Increasing group.entries) ∧
    Increasing (ofClass decl).incomplete := by
  have all := placed_ofClass decl
  have follows := follows_bound decl
  have wellFormed : Increasing (wellFormedEntries decl) :=
    increasing_sublist List.filter_sublist (increasing_entries decl)
  have malformed : Increasing (malformedEntries decl) :=
    increasing_sublist List.filter_sublist (increasing_entries decl)
  refine ⟨?_, ?_, ?_, ?_, ?_⟩
  · rw [← positions_entries]
    exact all.map _
  · intro entry member
    exact method_at decl entry (all.mem_iff.mp member)
  · rw [setters_ofClass]
    exact increasing_sublist follows.setters wellFormed
  · intro group member
    rw [groups_ofClass] at member
    exact increasing_sublist (follows.groups group member) wellFormed
  · exact increasing_sublist (incomplete_ofClass decl) malformed

end Passes

end MemberPlan

end HeaderBindings
