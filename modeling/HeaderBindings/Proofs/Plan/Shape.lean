import HeaderBindings.Proofs.Plan.Slots

/-!
The shape of a plan as a whole. A group comes before another if one of its methods is declared before
all of the other's; a step keeps the groups in that order because it puts a method that is declared
behind all methods put so far. The other clauses are read off where a settled plan has its methods.
-/

namespace HeaderBindings

namespace OverloadGroup

/-- A method of a group is declared before all methods of another one. -/
def Before (earlier later : OverloadGroup) : Prop :=
  ∃ first ∈ earlier.entries, ∀ entry ∈ later.entries, first.position < entry.position

end OverloadGroup

namespace MemberPlan

/-- Each group has a method, and the groups stand in the order in which they first appear. -/
structure InOrder (groups : List OverloadGroup) : Prop where
  inhabited : ∀ group ∈ groups, group.entries ≠ []
  order : groups.Pairwise OverloadGroup.Before

theorem before_addToGroup (head : OverloadGroup) (later : List OverloadGroup) (entry : Entry)
    (inhabited : head.entries ≠ []) (before : ∀ group ∈ later, head.Before group)
    (last : ∀ known ∈ head.entries, known.position < entry.position) :
    ∀ group ∈ addToGroup entry later, head.Before group := by
  apply forall_addToGroup head.Before
  · obtain ⟨first, member⟩ := List.exists_mem_of_ne_nil _ inhabited
    exact ⟨first, member, by simpa [OverloadGroup.start] using last first member⟩
  · exact before
  · intro group member _
    obtain ⟨first, inside, least⟩ := before group member
    refine ⟨first, inside, ?_⟩
    intro known here
    rcases List.mem_append.mp here with old | new
    · exact least known old
    · rw [List.mem_singleton.mp new]
      exact last first inside

-- A method that is declared behind all grouped ones joins its group or founds the last one.
theorem inOrder_addToGroup (groups : List OverloadGroup) (entry : Entry) (inOrder : InOrder groups)
    (last : ∀ group ∈ groups, ∀ known ∈ group.entries, known.position < entry.position) :
    InOrder (addToGroup entry groups) := by
  constructor
  · apply forall_addToGroup (·.entries ≠ [])
    · simp [OverloadGroup.start]
    · exact inOrder.inhabited
    · simp [OverloadGroup.add]
  · obtain ⟨inhabited, order⟩ := inOrder
    induction groups with
    | nil => simp [addToGroup]
    | cons head later ih =>
      obtain ⟨before, rest⟩ := List.pairwise_cons.mp order
      by_cases owned : head.owns entry.method = true
      · rw [addToGroup, if_pos owned]
        apply List.pairwise_cons.mpr
        refine ⟨?_, rest⟩
        intro group member
        obtain ⟨first, inside, least⟩ := before group member
        exact ⟨first, List.mem_append_left _ inside, least⟩
      · rw [addToGroup, if_neg owned]
        apply List.pairwise_cons.mpr
        constructor
        · exact before_addToGroup head later entry (inhabited head List.mem_cons_self) before
            (last head List.mem_cons_self)
        · exact ih (fun group member => last group (List.mem_cons_of_mem head member))
            (fun group member => inhabited group (List.mem_cons_of_mem head member)) rest

theorem inOrder_run (choose : MemberPlan → Method → Placement) (order : List Entry)
    (plan : MemberPlan) (entries : List Entry) (increasing : Increasing (order ++ entries))
    (follows : Follows order plan) (inOrder : InOrder plan.groups) :
    InOrder (run choose plan entries).groups := by
  -- By the methods still to be placed; those placed so far are the front of the whole order.
  induction entries generalizing order plan with
  | nil => exact inOrder
  | cons entry entries ih =>
    rw [List.append_cons] at increasing
    apply ih (order ++ [entry]) _ increasing (follows_put order plan entry _ follows)
    have behind : ∀ known ∈ order, known.position < entry.position := by
      have front := (List.pairwise_append.mp increasing).1
      intro known member
      exact (List.pairwise_append.mp front).2.2 known member entry (List.mem_singleton.mpr rfl)
    cases choose plan entry.method with
    | grouped =>
      apply inOrder_addToGroup plan.groups entry inOrder
      intro group member known inside
      exact behind known ((follows.groups group member).subset inside)
    | setter name => exact inOrder
    | incomplete => exact inOrder
    | dropped reason => exact inOrder

theorem inOrder_ofClass (decl : ClassDecl) : InOrder (ofClass decl).groups := by
  rw [groups_ofClass]
  have increasing : Increasing (wellFormedEntries decl) :=
    increasing_sublist List.filter_sublist (increasing_entries decl)
  have start : Follows [] ({} : MemberPlan) := ⟨List.Sublist.refl _, by simp⟩
  exact inOrder_run (placeWellFormed decl) [] {} _ increasing start ⟨by simp, List.Pairwise.nil⟩

theorem one_of_setterProperty (method : Method) (name : Text)
    (named : setterProperty? method = some name) :
    method.colonCount = 1 ∧ method.arity = 1 := by
  unfold setterProperty? at named
  split at named
  · cases named
  · next plain =>
    simp only [Bool.or_eq_true, bne_iff_ne, not_or, not_not] at plain
    exact ⟨plain.2, plain.1.2⟩

-- A new setter sets a property that is not declared.
theorem undeclared_of_destination (decl : ClassDecl) (method : Method) (name : Text)
    (place : destination decl method = .newSetter name) : decl.property? name = none := by
  have named := setterProperty_of_destination decl method name place
  unfold destination at place
  rw [named] at place
  split at place
  · cases place
  · dsimp only [setterDestination] at place
    cases found : decl.property? name with
    | none => rfl
    | some property =>
      rw [found] at place
      dsimp only at place
      split at place <;> cases place

/-- What holds between the members of a plan and the declarations of its class. -/
structure WellStructured (decl : ClassDecl) (plan : MemberPlan) : Prop where
  /-- No two groups share a side and a base name. -/
  groupKeys : (plan.groups.map fun group => (group.isStatic, group.base)).Nodup
  groupOrder : plan.groups.Pairwise OverloadGroup.Before
  grouped : ∀ group ∈ plan.groups, group.entries ≠ [] ∧ ∀ entry ∈ group.entries,
    entry.method ∈ decl.methods ∧ entry.method.wellFormed = true ∧
      entry.method.isStatic = group.isStatic ∧ entry.method.baseName = group.base ∧
      entry.method.isInitializer = group.isConstructor
  selectors : ∀ group ∈ plan.groups, (group.entries.map (·.method.selector)).Nodup
  setterNames : (plan.setters.map (·.name)).Nodup
  setterMethods : ∀ setter ∈ plan.setters,
    setter.entry.method ∈ decl.methods ∧ setter.entry.method.isStatic = false ∧
      setter.entry.method.colonCount = 1 ∧ setter.entry.method.arity = 1
  /-- A declared property, readonly or not, gains no setter. -/
  undeclared : ∀ setter ∈ plan.setters, ∀ property ∈ decl.properties, setter.name ≠ property.name
  untaken : ∀ setter ∈ plan.setters, ∀ method ∈ decl.methods, method.isStatic = false →
    setter.name ≠ method.baseName
  marks : ∀ mark ∈ plan.incomplete, mark.method ∈ decl.methods ∧
    mark.method.wellFormed = false ∧ mark.method.baseName ≠ []
  markKeys : (plan.incomplete.map fun mark => (mark.method.isStatic, mark.method.baseName)).Nodup
  unowned : ∀ mark ∈ plan.incomplete, ∀ group ∈ plan.groups, group.owns mark.method = false

/-- The plan of every class is well structured. -/
theorem wellStructured_ofClass (decl : ClassDecl) : WellStructured decl (ofClass decl) := by
  have settled := settled_ofClass decl
  have apart := marksApart_ofClass decl
  have setters : ∀ setter ∈ (ofClass decl).setters, setterProperty? setter.entry.method =
      some setter.name := by
    intro setter known
    exact setterProperty_of_destination decl _ _ (settled.setters setter known).2
  constructor
  case groupKeys => exact settled.keys
  case groupOrder => exact (inOrder_ofClass decl).order
  case grouped =>
    intro group known
    have sound := (settled.groups group known).1
    refine ⟨sound.inhabited, ?_⟩
    intro entry inside
    have key := Prod.mk.inj (sound.key entry inside)
    have member : entry.method ∈ decl.methods := by
      apply method_of_entry
      simp only [placed, List.mem_append, List.mem_flatMap]
      exact Or.inl (Or.inl (Or.inr ⟨group, known, inside⟩))
    exact ⟨member, sound.wellFormed entry inside, key.1, key.2, sound.kind entry inside⟩
  case selectors =>
    intro group known
    exact (settled.groups group known).1.selectors
  case setterNames => exact nodup_setters decl
  case setterMethods =>
    intro setter known
    have named := setters setter known
    obtain ⟨member, _⟩ := slot_of_setter decl setter known
    exact ⟨member, isStatic_of_setterProperty _ _ named, one_of_setterProperty _ _ named⟩
  case undeclared =>
    intro setter known property declared same
    have none := undeclared_of_destination decl _ _ (settled.setters setter known).2
    have other := List.find?_eq_none.mp none property declared
    exact other (by simp [same])
  case untaken =>
    intro setter known method member side
    exact (ne_setter_of_instance decl setter known method member side).symm
  case marks =>
    intro mark known
    have malformed := (List.mem_filter.mp ((incomplete_ofClass decl).subset known)).2
    exact ⟨(slot_of_mark decl mark known).1, by simpa using malformed, apart.named mark known⟩
  case markKeys => exact apart.keys
  case unowned =>
    intro mark known group member
    by_contra owned
    have same := (OverloadGroup.owns_iff group mark.method).mp (by simpa using owned)
    exact apart.unowned mark known (List.mem_map.mpr ⟨group, member, same⟩)

end MemberPlan

end HeaderBindings
