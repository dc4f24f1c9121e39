import HeaderBindings.Proofs.Plan.Partition

/-!
What the groups of a plan look like, and where a well-formed method belongs. A destination is read
off the class alone; what has been placed before a method only decides whether the method repeats
a setter or a selector. Hence two well-formed methods of one side and one selector have one
destination.
-/

namespace HeaderBindings

namespace Method

/-- The side and the base name, which the methods of a group share. -/
def key (method : Method) : Bool × Text := (method.isStatic, method.baseName)

theorem isInitializer_of_key (left right : Method) (same : left.key = right.key) :
    left.isInitializer = right.isInitializer := by
  simp only [key, Prod.mk.injEq] at same
  simp only [isInitializer, same.1, same.2]

theorem arity_of_selector (left right : Method) (leftFormed : left.wellFormed = true)
    (rightFormed : right.wellFormed = true) (same : left.selector = right.selector) :
    left.arity = right.arity := by
  simp only [wellFormed, Bool.and_eq_true, beq_iff_eq] at leftFormed rightFormed
  rw [← leftFormed.2, ← rightFormed.2, colonCount, colonCount, same]

end Method

namespace OverloadGroup

def key (group : OverloadGroup) : Bool × Text := (group.isStatic, group.base)

theorem owns_iff (group : OverloadGroup) (method : Method) :
    group.owns method = true ↔ group.key = method.key := by
  simp [owns, key, Method.key]

/-- A group has a method, and its methods are well formed, share its key and its kind, and have
selectors of their own. -/
structure Sound (group : OverloadGroup) : Prop where
  inhabited : group.entries ≠ []
  wellFormed : ∀ entry ∈ group.entries, entry.method.wellFormed = true
  key : ∀ entry ∈ group.entries, entry.method.key = group.key
  kind : ∀ entry ∈ group.entries, entry.method.isInitializer = group.isConstructor
  selectors : (group.entries.map (·.method.selector)).Nodup

theorem sound_start (entry : Entry) (wellFormed : entry.method.wellFormed = true) :
    (start entry).Sound where
  inhabited := by simp [start]
  wellFormed := by simpa [start] using wellFormed
  key := by simp [start, OverloadGroup.key, Method.key]
  kind := by simp [start]
  selectors := by simp [start]

theorem sound_add (group : OverloadGroup) (entry : Entry) (sound : group.Sound)
    (wellFormed : entry.method.wellFormed = true) (owned : group.owns entry.method = true)
    (fresh : group.declares entry.method = false) : (group.add entry).Sound := by
  have sameKey := (owns_iff group entry.method).mp owned
  obtain ⟨first, member⟩ := List.exists_mem_of_ne_nil _ sound.inhabited
  -- Whether a method makes an instance shows in its key, so the kind is that of any known method.
  have sameKind : entry.method.isInitializer = group.isConstructor := by
    rw [← sound.kind first member]
    exact Method.isInitializer_of_key _ _ (sameKey.symm.trans (sound.key first member).symm)
  have other : ∀ known ∈ group.entries, known.method.selector ≠ entry.method.selector := by
    simpa [declares] using fresh
  refine ⟨by simp [add], ?_, ?_, ?_, ?_⟩
  · intro known member
    rcases List.mem_append.mp member with old | new
    · exact sound.wellFormed known old
    · rw [List.mem_singleton.mp new]; exact wellFormed
  · intro known member
    rcases List.mem_append.mp member with old | new
    · exact sound.key known old
    · rw [List.mem_singleton.mp new]; exact sameKey.symm
  · intro known member
    rcases List.mem_append.mp member with old | new
    · exact sound.kind known old
    · rw [List.mem_singleton.mp new]; exact sameKind
  · simp only [add, List.map_append, List.map_cons, List.map_nil]
    refine List.nodup_append.mpr ⟨sound.selectors, List.nodup_singleton _, ?_⟩
    intro selector known new isNew
    obtain ⟨entry, old, rfl⟩ := List.mem_map.mp known
    rw [List.mem_singleton.mp isNew]
    exact other entry old

theorem entry_of_selector (group : OverloadGroup) (sound : group.Sound) (left right : Entry)
    (leftIn : left ∈ group.entries) (rightIn : right ∈ group.entries)
    (same : left.method.selector = right.method.selector) : left = right :=
  List.inj_on_of_nodup_map sound.selectors leftIn rightIn same

end OverloadGroup

namespace MemberPlan

-- Grouping a method adds its key behind the known ones, unless a group has it.
theorem keys_addToGroup (entry : Entry) (groups : List OverloadGroup) :
    (addToGroup entry groups).map OverloadGroup.key =
      if entry.method.key ∈ groups.map OverloadGroup.key then groups.map OverloadGroup.key
      else groups.map OverloadGroup.key ++ [entry.method.key] := by
  induction groups with
  | nil => simp [addToGroup, OverloadGroup.start, OverloadGroup.key, Method.key]
  | cons group later ih =>
    by_cases owned : group.owns entry.method = true
    · have same := (OverloadGroup.owns_iff group entry.method).mp owned
      simp [addToGroup, owned, ← same, OverloadGroup.add, OverloadGroup.key]
    · have other : entry.method.key ≠ group.key :=
        fun same => owned ((OverloadGroup.owns_iff group entry.method).mpr same.symm)
      rw [addToGroup, if_neg owned, List.map_cons, List.map_cons, ih]
      by_cases known : entry.method.key ∈ later.map OverloadGroup.key
      · rw [if_pos known, if_pos (List.mem_cons_of_mem _ known)]
      · rw [if_neg known, if_neg (by simpa [other] using known), List.cons_append]

/-- Where a well-formed method belongs, whatever has been placed before it. -/
inductive Destination where
  | propertyGetter
  | propertySetter
  | newSetter (name : Text)
  | overload
  deriving DecidableEq, Repr

def setterDestination (decl : ClassDecl) (name : Text) : Destination :=
  match decl.property? name with
  | some property => if !property.readonly && !property.isClass then .propertySetter else .overload
  | none => if (instanceBases decl).contains name then .overload else .newSetter name

def destination (decl : ClassDecl) (method : Method) : Destination :=
  if redeclaresGetter decl method then .propertyGetter
  else match setterProperty? method with
    | some name => setterDestination decl name
    | none => .overload

theorem placeWellFormed_eq (decl : ClassDecl) (plan : MemberPlan) (method : Method) :
    placeWellFormed decl plan method =
      match destination decl method with
      | .propertyGetter => .dropped .propertyGetter
      | .propertySetter => .dropped .propertySetter
      | .newSetter name =>
        if plan.setters.any (·.name == name) then .dropped .duplicateSetter else .setter name
      | .overload => placeInGroup plan method := by
  unfold placeWellFormed destination
  by_cases getter : redeclaresGetter decl method = true
  · simp [getter]
  · cases name? : setterProperty? method with
    | none => simp [getter]
    | some name =>
      simp only [getter, placeSetter, setterDestination]
      cases decl.property? name with
      | none =>
        by_cases taken : (instanceBases decl).contains name = true
        · simp only [taken, if_true, Bool.false_eq_true, if_false]
        · simp only [taken, Bool.false_eq_true, if_false]
      | some property =>
        by_cases writable : (!property.readonly && !property.isClass) = true
        · simp only [writable, if_true, Bool.false_eq_true, if_false]
        · simp only [writable, Bool.false_eq_true, if_false]

-- The destination of a well-formed method depends on its side and selector only.
theorem destination_of_selector (decl : ClassDecl) (left right : Method)
    (leftFormed : left.wellFormed = true) (rightFormed : right.wellFormed = true)
    (side : left.isStatic = right.isStatic) (selector : left.selector = right.selector) :
    destination decl left = destination decl right := by
  have arity := Method.arity_of_selector left right leftFormed rightFormed selector
  have base : left.baseName = right.baseName := by simp only [Method.baseName, selector]
  have colons : left.colonCount = right.colonCount := by simp only [Method.colonCount, selector]
  have getter : redeclaresGetter decl left = redeclaresGetter decl right := by
    simp only [redeclaresGetter, arity, side, selector]
  have setter : setterProperty? left = setterProperty? right := by
    simp only [setterProperty?, arity, side, base, colons]
  simp only [destination, getter, setter]

theorem setterProperty_of_destination (decl : ClassDecl) (method : Method) (name : Text)
    (place : destination decl method = .newSetter name) : setterProperty? method = some name := by
  unfold destination at place
  split at place
  · cases place
  · split at place
    · next found named =>
      unfold setterDestination at place
      repeat' split at place
      all_goals cases place
      exact named
    · cases place

/-- A reason for which a well-formed method is left out, given where it belongs. -/
def Explains : DropReason → Destination → Prop
  | .propertyGetter, place => place = .propertyGetter
  | .propertySetter, place => place = .propertySetter
  | .duplicateSetter, place => ∃ name, place = .newSetter name
  | .duplicateSelector, place => place = .overload
  | _, _ => False

/-- A plan in which every well-formed method stands where it belongs. -/
structure Settled (decl : ClassDecl) (plan : MemberPlan) : Prop where
  setters : ∀ setter ∈ plan.setters,
    setter.entry.method.wellFormed = true ∧
      destination decl setter.entry.method = .newSetter setter.name
  groups : ∀ group ∈ plan.groups, group.Sound ∧
    ∀ entry ∈ group.entries, destination decl entry.method = .overload
  keys : (plan.groups.map OverloadGroup.key).Nodup
  dropped : ∀ drop ∈ plan.dropped, drop.1.method.wellFormed = true →
    Explains drop.2 (destination decl drop.1.method)

theorem settled_drop (decl : ClassDecl) (plan : MemberPlan) (entry : Entry) (reason : DropReason)
    (settled : Settled decl plan)
    (explained : entry.method.wellFormed = true → Explains reason (destination decl entry.method)) :
    Settled decl (plan.put entry (.dropped reason)) := by
  refine ⟨settled.setters, settled.groups, settled.keys, ?_⟩
  intro drop member
  rcases List.mem_append.mp member with old | new
  · exact settled.dropped drop old
  · rw [List.mem_singleton.mp new]; exact explained

theorem settled_group (decl : ClassDecl) (plan : MemberPlan) (entry : Entry)
    (settled : Settled decl plan) (wellFormed : entry.method.wellFormed = true)
    (ordinary : destination decl entry.method = .overload)
    (fresh : ∀ group ∈ plan.groups, group.owns entry.method = true →
      group.declares entry.method = false) :
    Settled decl (plan.put entry .grouped) := by
  refine ⟨settled.setters, ?_, ?_, settled.dropped⟩
  · refine forall_addToGroup _ entry plan.groups ⟨OverloadGroup.sound_start entry wellFormed, ?_⟩
      settled.groups ?_
    · simpa [OverloadGroup.start] using ordinary
    · intro group member owned
      obtain ⟨sound, places⟩ := settled.groups group member
      refine ⟨OverloadGroup.sound_add group entry sound wellFormed owned
        (fresh group member owned), ?_⟩
      intro known here
      rcases List.mem_append.mp here with old | new
      · exact places known old
      · rw [List.mem_singleton.mp new]; exact ordinary
  · simp only [put, keys_addToGroup]
    split
    · exact settled.keys
    · next fresh =>
      refine List.nodup_append.mpr ⟨settled.keys, List.nodup_singleton _, ?_⟩
      intro key known other isOther same
      rw [List.mem_singleton.mp isOther] at same
      exact fresh (same ▸ known)

-- A well-formed method is put where it belongs.
theorem settled_put (decl : ClassDecl) (plan : MemberPlan) (entry : Entry)
    (settled : Settled decl plan) (wellFormed : entry.method.wellFormed = true) :
    Settled decl (plan.put entry (placeWellFormed decl plan entry.method)) := by
  rw [placeWellFormed_eq]
  -- The destination is fixed by the class; only two of its cases look at the plan so far.
  cases place : destination decl entry.method with
  | propertyGetter => exact settled_drop decl plan entry _ settled (fun _ => place)
  | propertySetter => exact settled_drop decl plan entry _ settled (fun _ => place)
  | newSetter name =>
    by_cases taken : plan.setters.any (·.name == name) = true
    · simp only [taken, if_true]
      exact settled_drop decl plan entry _ settled (fun _ => ⟨name, place⟩)
    · simp only [taken, Bool.false_eq_true, if_false]
      refine ⟨?_, settled.groups, settled.keys, settled.dropped⟩
      intro setter member
      rcases List.mem_append.mp member with old | new
      · exact settled.setters setter old
      · rw [List.mem_singleton.mp new]; exact ⟨wellFormed, place⟩
  | overload =>
    by_cases repeated : plan.groups.any
        (fun group => group.owns entry.method && group.declares entry.method) = true
    · simp only [placeInGroup, repeated, if_true]
      exact settled_drop decl plan entry _ settled (fun _ => place)
    · simp only [placeInGroup, repeated, Bool.false_eq_true, if_false]
      refine settled_group decl plan entry settled wellFormed place ?_
      intro group member owned
      by_contra declared
      exact repeated (List.any_eq_true.mpr
        ⟨group, member, by simp [owned, Bool.not_eq_false _ ▸ declared]⟩)

theorem settled_bound (decl : ClassDecl) : Settled decl (bound decl) := by
  refine run_induction _ (Settled decl) _ _ ⟨by simp, by simp, by simp, by simp⟩ ?_
  intro plan entry member settled
  exact settled_put decl plan entry settled (List.mem_filter.mp member).2

/-- Every plan is settled: malformed methods are only marked or left out. -/
theorem settled_ofClass (decl : ClassDecl) : Settled decl (ofClass decl) := by
  rw [ofClass_eq_run]
  refine run_induction _ (Settled decl) _ _ (settled_bound decl) ?_
  intro plan entry member settled
  have malformed : entry.method.wellFormed = false := by
    simpa using (List.mem_filter.mp member).2
  rcases placeMalformed_cases plan entry.method with marked | ⟨reason, dropped⟩
  · rw [marked]
    exact ⟨settled.setters, settled.groups, settled.keys, settled.dropped⟩
  · rw [dropped]
    exact settled_drop decl plan entry reason settled (by simp [malformed])

theorem nodup_placed (decl : ClassDecl) : (ofClass decl).placed.Nodup := by
  refine (placed_ofClass decl).nodup_iff.mpr ?_
  refine List.Nodup.of_map (·.position) ?_
  rw [positions_entries]
  exact List.nodup_range

-- A method of a group is not left out as well.
theorem not_dropped_of_grouped (decl : ClassDecl) (entry : Entry) (group : OverloadGroup)
    (planned : group ∈ (ofClass decl).groups) (grouped : entry ∈ group.entries)
    (reason : DropReason) : (entry, reason) ∉ (ofClass decl).dropped := by
  intro dropped
  have apart := (List.nodup_append.mp (nodup_placed decl)).2.2
  refine apart entry ?_ entry (List.mem_map.mpr ⟨_, dropped, rfl⟩) rfl
  exact List.mem_append_left _
    (List.mem_append_right _ (List.mem_flatMap.mpr ⟨group, planned, grouped⟩))

/-- Two groups of a plan with methods of one key are one group. -/
theorem group_of_key (decl : ClassDecl) (left right : OverloadGroup)
    (leftIn : left ∈ (ofClass decl).groups) (rightIn : right ∈ (ofClass decl).groups)
    (same : left.key = right.key) : left = right :=
  List.inj_on_of_nodup_map (settled_ofClass decl).keys leftIn rightIn same

end MemberPlan

end HeaderBindings
