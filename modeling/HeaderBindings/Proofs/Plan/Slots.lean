import HeaderBindings.Script.Item
import HeaderBindings.Proofs.Plan.Structure

/-!
The names that a plan gives out. A slot is a side of the class with a name on it, before the name is
escaped; which slot a method is found under is read off the class. A plan has a setter, a group or a
mark for exactly these slots, and gives none of them out twice, but that a factory may take the slot
of a static method.
-/

namespace HeaderBindings

namespace OverloadGroup

def slot (group : OverloadGroup) : MemberKey := ⟨group.emitsStatic, group.base⟩

end OverloadGroup

namespace Method

def slot (method : Method) : MemberKey := ⟨method.isStatic, method.baseName⟩

theorem slot_eq_iff (left right : Method) : left.slot = right.slot ↔ left.key = right.key := by
  simp [slot, key]

end Method

namespace MemberPlan

/-- The slots of a plan: of its setters, its groups and its marks. -/
def slots (plan : MemberPlan) : List MemberKey :=
  plan.setters.map (fun setter => ⟨false, setter.name⟩)
    ++ plan.groups.map OverloadGroup.slot
    ++ plan.incomplete.map (·.method.slot)

/-- Whether a well-formed method with a key is grouped. -/
def overloads (decl : ClassDecl) (key : Bool × Text) : Bool :=
  decl.methods.any fun method =>
    method.wellFormed && destination decl method == .overload && method.key == key

/-- The slot that a method is found under. A method that repeats an accessor of a property has none,
nor has a malformed one that a group leaves no place for. -/
def slot? (decl : ClassDecl) (method : Method) : Option MemberKey :=
  if method.wellFormed then
    match destination decl method with
    | .newSetter name => some ⟨false, name⟩
    | .overload => some ⟨method.isStatic || method.isInitializer, method.baseName⟩
    | _ => none
  else if method.baseName.isEmpty || overloads decl method.key then none
  else some method.slot

section Runs

/-- What a step brings about for the method that it puts, and every later step keeps, holds of all
methods after a run. -/
theorem run_forall (choose : MemberPlan → Method → Placement) (holds : MemberPlan → Entry → Prop)
    (entries : List Entry) (plan : MemberPlan)
    (brought : ∀ plan : MemberPlan, ∀ entry ∈ entries,
      holds (plan.put entry (choose plan entry.method)) entry)
    (kept : ∀ (plan : MemberPlan) known, ∀ entry ∈ entries, holds plan known →
      holds (plan.put entry (choose plan entry.method)) known) :
    ∀ entry ∈ entries, holds (run choose plan entries) entry := by
  induction entries generalizing plan with
  | nil => simp
  | cons first later ih =>
    have rest := ih (plan.put first (choose plan first.method))
      (fun plan entry member => brought plan entry (List.mem_cons_of_mem first member))
      (fun plan known entry member => kept plan known entry (List.mem_cons_of_mem first member))
    intro entry member
    rcases List.mem_cons.mp member with rfl | inside
    · have here := brought plan entry List.mem_cons_self
      exact run_induction choose (fun plan => holds plan entry) later _ here
        fun plan other present => kept plan entry other (List.mem_cons_of_mem entry present)
    · exact rest entry inside

theorem keys_subset_put (plan : MemberPlan) (entry : Entry) (placement : Placement) :
    plan.groups.map OverloadGroup.key ⊆
      (plan.put entry placement).groups.map OverloadGroup.key := by
  intro key member
  cases placement with
  | grouped =>
    simp only [put, keys_addToGroup]
    split
    · exact member
    · exact List.mem_append_left _ member
  | setter name => exact member
  | incomplete => exact member
  | dropped reason => exact member

-- A method that is grouped, or repeats a selector of a group, has a group of its key.
theorem key_mem_placeInGroup (plan : MemberPlan) (entry : Entry) :
    entry.method.key ∈
      (plan.put entry (placeInGroup plan entry.method)).groups.map OverloadGroup.key := by
  unfold placeInGroup
  split
  · next repeated =>
    obtain ⟨group, member, owned⟩ := List.any_eq_true.mp repeated
    have same := (OverloadGroup.owns_iff group entry.method).mp (Bool.and_eq_true_iff.mp owned).1
    exact List.mem_map.mpr ⟨group, member, same⟩
  · simp only [put, keys_addToGroup]
    split
    · assumption
    · exact List.mem_append_right _ (List.mem_singleton.mpr rfl)

/-- A plan has what a well-formed method is found under. -/
def Provides (decl : ClassDecl) (plan : MemberPlan) (entry : Entry) : Prop :=
  match destination decl entry.method with
  | .newSetter name => name ∈ plan.setters.map (·.name)
  | .overload => entry.method.key ∈ plan.groups.map OverloadGroup.key
  | _ => True

theorem provides_put (decl : ClassDecl) (plan : MemberPlan) (entry : Entry) :
    Provides decl (plan.put entry (placeWellFormed decl plan entry.method)) entry := by
  unfold Provides
  rw [placeWellFormed_eq]
  cases destination decl entry.method with
  | propertyGetter => trivial
  | propertySetter => trivial
  | overload => exact key_mem_placeInGroup plan entry
  | newSetter name =>
    dsimp only
    split
    · next taken =>
      obtain ⟨setter, member, same⟩ := List.any_eq_true.mp taken
      exact List.mem_map.mpr ⟨setter, member, beq_iff_eq.mp same⟩
    · simp [put]

theorem provides_later (decl : ClassDecl) (plan : MemberPlan) (known entry : Entry)
    (placement : Placement) (provides : Provides decl plan known) :
    Provides decl (plan.put entry placement) known := by
  unfold Provides at provides ⊢
  cases place : destination decl known.method with
  | propertyGetter => trivial
  | propertySetter => trivial
  | overload =>
    rw [place] at provides
    exact keys_subset_put plan entry placement provides
  | newSetter name =>
    rw [place] at provides
    cases placement with
    | setter other => simp only [put, List.map_append]; exact List.mem_append_left _ provides
    | grouped => exact provides
    | incomplete => exact provides
    | dropped reason => exact provides

theorem provides_bound (decl : ClassDecl) (entry : Entry)
    (member : entry ∈ wellFormedEntries decl) : Provides decl (bound decl) entry := by
  apply run_forall (placeWellFormed decl) (Provides decl)
  · intro plan entry _
    exact provides_put decl plan entry
  · intro plan known entry _
    exact provides_later decl plan known entry _
  · exact member

/-- A plan marks a malformed method, unless it has no base name or a group owns it. -/
def Marks (plan : MemberPlan) (entry : Entry) : Prop :=
  entry.method.baseName = [] ∨ entry.method.key ∈ plan.groups.map OverloadGroup.key ∨
    entry.method.key ∈ plan.incomplete.map (·.method.key)

theorem marks_put (plan : MemberPlan) (entry : Entry) :
    Marks (plan.put entry (placeMalformed plan entry.method)) entry := by
  unfold placeMalformed
  split
  · next empty => exact Or.inl (List.isEmpty_iff.mp empty)
  · split
    · next owned =>
      obtain ⟨group, member, owns⟩ := List.any_eq_true.mp owned
      exact Or.inr (Or.inl (List.mem_map.mpr
        ⟨group, member, (OverloadGroup.owns_iff group entry.method).mp owns⟩))
    · split
      · next marked =>
        obtain ⟨mark, member, same⟩ := List.any_eq_true.mp marked
        simp only [Bool.and_eq_true, beq_iff_eq] at same
        exact Or.inr (Or.inr (List.mem_map.mpr ⟨mark, member, Prod.ext same.1 same.2⟩))
      · exact Or.inr (Or.inr (by simp [put]))

theorem marks_later (plan : MemberPlan) (known entry : Entry) (placement : Placement)
    (marks : Marks plan known) : Marks (plan.put entry placement) known := by
  rcases marks with empty | owned | marked
  · exact Or.inl empty
  · exact Or.inr (Or.inl (keys_subset_put plan entry placement owned))
  · apply Or.inr ∘ Or.inr
    cases placement with
    | incomplete => simp only [put, List.map_append]; exact List.mem_append_left _ marked
    | grouped => exact marked
    | setter name => exact marked
    | dropped reason => exact marked

theorem marks_ofClass (decl : ClassDecl) (entry : Entry)
    (member : entry ∈ malformedEntries decl) : Marks (ofClass decl) entry := by
  rw [ofClass_eq_run]
  apply run_forall placeMalformed Marks
  · intro plan entry _
    exact marks_put plan entry
  · intro plan known entry _
    exact marks_later plan known entry _
  · exact member

theorem nodup_setters (decl : ClassDecl) : ((ofClass decl).setters.map (·.name)).Nodup := by
  rw [setters_ofClass]
  apply run_induction (placeWellFormed decl) fun plan => (plan.setters.map (·.name)).Nodup
  · exact List.nodup_nil
  intro plan entry _ apart
  rw [placeWellFormed_eq]
  cases destination decl entry.method with
  | propertyGetter => exact apart
  | propertySetter => exact apart
  | overload =>
    rcases placeInGroup_cases plan entry.method with grouped | dropped
    · rw [grouped]; exact apart
    · rw [dropped]; exact apart
  | newSetter name =>
    dsimp only
    split
    · exact apart
    · next free =>
      have fresh : name ∉ plan.setters.map (·.name) := by simpa using free
      simpa [put] using List.Nodup.concat fresh apart

/-- The marks of a plan have keys of their own, and a mark has a base name and no group. -/
structure MarksApart (plan : MemberPlan) : Prop where
  keys : (plan.incomplete.map (·.method.key)).Nodup
  named : ∀ mark ∈ plan.incomplete, mark.method.baseName ≠ []
  unowned : ∀ mark ∈ plan.incomplete,
    mark.method.key ∉ plan.groups.map OverloadGroup.key

-- A malformed method is marked only if no group and no mark has its key.
theorem marksApart_put (plan : MemberPlan) (entry : Entry) (apart : MarksApart plan) :
    MarksApart (plan.put entry (placeMalformed plan entry.method)) := by
  unfold placeMalformed
  split
  · exact ⟨apart.keys, apart.named, apart.unowned⟩
  · next written =>
    split
    · exact ⟨apart.keys, apart.named, apart.unowned⟩
    · next free =>
      split
      · exact ⟨apart.keys, apart.named, apart.unowned⟩
      · next unmarked =>
        have fresh : entry.method.key ∉ plan.incomplete.map (·.method.key) := by
          intro known
          obtain ⟨mark, member, same⟩ := List.mem_map.mp known
          apply unmarked
          apply List.any_eq_true.mpr
          simp only [Method.key, Prod.mk.injEq] at same
          exact ⟨mark, member, by simp [same.1, same.2]⟩
        have alone : entry.method.key ∉ plan.groups.map OverloadGroup.key := by
          intro known
          obtain ⟨group, member, same⟩ := List.mem_map.mp known
          apply free
          exact List.any_eq_true.mpr
            ⟨group, member, (OverloadGroup.owns_iff group entry.method).mpr same⟩
        constructor
        · simpa [put] using List.Nodup.concat fresh apart.keys
        · intro mark member
          rcases List.mem_append.mp member with old | new
          · exact apart.named mark old
          · rw [List.mem_singleton.mp new]
            exact fun empty => written (List.isEmpty_iff.mpr empty)
        · intro mark member
          rcases List.mem_append.mp member with old | new
          · exact apart.unowned mark old
          · rw [List.mem_singleton.mp new]
            exact alone

theorem marksApart_ofClass (decl : ClassDecl) : MarksApart (ofClass decl) := by
  rw [ofClass_eq_run]
  apply run_induction placeMalformed MarksApart
  · constructor <;> simp [incomplete_bound]
  · intro plan entry _ apart
    exact marksApart_put plan entry apart

end Runs

section Places

variable (decl : ClassDecl)

theorem entry_of_method (method : Method) (member : method ∈ decl.methods) :
    ∃ entry ∈ entries decl, entry.method = method := by
  obtain ⟨position, bound, rfl⟩ := List.getElem_of_mem member
  refine ⟨⟨position, decl.methods[position]⟩, ?_, rfl⟩
  simp only [entries, List.mem_map]
  refine ⟨(decl.methods[position], position), ?_, rfl⟩
  exact List.mem_zipIdx_iff_getElem?.mpr (List.getElem?_eq_getElem bound)

theorem method_of_entry (entry : Entry) (placed : entry ∈ (ofClass decl).placed) :
    entry.method ∈ decl.methods :=
  List.mem_of_getElem? (method_at decl entry ((placed_ofClass decl).mem_iff.mp placed))

/-- The keys of the groups are those of the well-formed methods that are grouped. -/
theorem key_mem_groups_iff (key : Bool × Text) :
    key ∈ (ofClass decl).groups.map OverloadGroup.key ↔ overloads decl key = true := by
  constructor
  · intro known
    obtain ⟨group, member, rfl⟩ := List.mem_map.mp known
    obtain ⟨sound, places⟩ := (settled_ofClass decl).groups group member
    obtain ⟨entry, inside⟩ := List.exists_mem_of_ne_nil _ sound.inhabited
    have placed : entry ∈ (ofClass decl).placed := by
      simp only [placed, List.mem_append, List.mem_flatMap]
      exact Or.inl (Or.inl (Or.inr ⟨group, member, inside⟩))
    apply List.any_eq_true.mpr
    refine ⟨entry.method, method_of_entry decl entry placed, ?_⟩
    simp [sound.wellFormed entry inside, places entry inside, sound.key entry inside]
  · intro grouped
    obtain ⟨method, member, holds⟩ := List.any_eq_true.mp grouped
    simp only [Bool.and_eq_true, beq_iff_eq] at holds
    obtain ⟨⟨wellFormed, place⟩, rfl⟩ := holds
    obtain ⟨entry, declared, rfl⟩ := entry_of_method decl method member
    have provided := provides_bound decl entry (List.mem_filter.mpr ⟨declared, wellFormed⟩)
    rw [groups_ofClass]
    simpa [Provides, place] using provided

theorem slot_of_setter (setter : SetterAccessor) (known : setter ∈ (ofClass decl).setters) :
    setter.entry.method ∈ decl.methods ∧
      slot? decl setter.entry.method = some ⟨false, setter.name⟩ := by
  obtain ⟨wellFormed, place⟩ := (settled_ofClass decl).setters setter known
  constructor
  · apply method_of_entry
    simp only [placed, List.mem_append, List.mem_map]
    exact Or.inl (Or.inl (Or.inl ⟨setter, known, rfl⟩))
  · simp [slot?, wellFormed, place]

theorem slot_of_group (group : OverloadGroup) (known : group ∈ (ofClass decl).groups) :
    ∃ method ∈ decl.methods, method.key = group.key ∧ slot? decl method = some group.slot := by
  obtain ⟨sound, places⟩ := (settled_ofClass decl).groups group known
  obtain ⟨entry, inside⟩ := List.exists_mem_of_ne_nil _ sound.inhabited
  have wellFormed := sound.wellFormed entry inside
  have key := sound.key entry inside
  have parts := Prod.mk.inj key
  refine ⟨entry.method, method_of_entry decl entry ?_, key, ?_⟩
  · simp only [placed, List.mem_append, List.mem_flatMap]
    exact Or.inl (Or.inl (Or.inr ⟨group, known, inside⟩))
  · simp [slot?, wellFormed, places entry inside, parts, sound.kind entry inside,
      OverloadGroup.slot, OverloadGroup.emitsStatic]

theorem slot_of_mark (mark : Entry) (known : mark ∈ (ofClass decl).incomplete) :
    mark.method ∈ decl.methods ∧ slot? decl mark.method = some mark.method.slot := by
  have apart := marksApart_ofClass decl
  have malformed : mark.method.wellFormed = false := by
    simpa using (List.mem_filter.mp ((incomplete_ofClass decl).subset known)).2
  have alone := mt (key_mem_groups_iff decl mark.method.key).mpr (apart.unowned mark known)
  refine ⟨method_of_entry decl mark ?_, ?_⟩
  · simp only [placed, List.mem_append]
    exact Or.inl (Or.inr known)
  · simp [slot?, malformed, apart.named mark known, alone]

/-- What a plan has under a slot for a method: a setter, the method's group or the mark of its
key. -/
inductive Holds (decl : ClassDecl) (method : Method) (slot : MemberKey) : Prop where
  | setter (setter : SetterAccessor) (known : setter ∈ (ofClass decl).setters)
      (same : slot = ⟨false, setter.name⟩) (side : method.isStatic = false)
  | group (group : OverloadGroup) (known : group ∈ (ofClass decl).groups)
      (same : slot = group.slot) (key : group.key = method.key)
  | mark (mark : Entry) (known : mark ∈ (ofClass decl).incomplete)
      (same : slot = mark.method.slot) (key : mark.method.key = method.key)

theorem isStatic_of_setterProperty (method : Method) (name : Text)
    (named : setterProperty? method = some name) : method.isStatic = false := by
  unfold setterProperty? at named
  split at named
  · cases named
  · next plain =>
    by_contra static
    simp [Bool.not_eq_false _ ▸ static] at plain

theorem holds_of_wellFormed (entry : Entry) (declared : entry ∈ entries decl)
    (wellFormed : entry.method.wellFormed = true) (slot : MemberKey)
    (found : slot? decl entry.method = some slot) : Holds decl entry.method slot := by
  have provided := provides_bound decl entry (List.mem_filter.mpr ⟨declared, wellFormed⟩)
  simp only [slot?, wellFormed, if_true] at found
  cases place : destination decl entry.method with
  | propertyGetter => simp [place] at found
  | propertySetter => simp [place] at found
  | newSetter name =>
    simp only [place, Option.some.injEq] at found
    simp only [Provides, place, ← setters_ofClass, List.mem_map] at provided
    obtain ⟨setter, known, rfl⟩ := provided
    have named := setterProperty_of_destination decl _ _ place
    exact .setter setter known found.symm (isStatic_of_setterProperty _ _ named)
  | overload =>
    simp only [place, Option.some.injEq] at found
    simp only [Provides, place, ← groups_ofClass, List.mem_map] at provided
    obtain ⟨group, known, same⟩ := provided
    -- The group's other methods tell its kind, and the kind shows in the key.
    obtain ⟨sound, _⟩ := (settled_ofClass decl).groups group known
    obtain ⟨other, inside⟩ := List.exists_mem_of_ne_nil _ sound.inhabited
    have kind : entry.method.isInitializer = group.isConstructor := by
      rw [← sound.kind other inside]
      exact Method.isInitializer_of_key _ _ (same.symm.trans (sound.key other inside).symm)
    have parts := Prod.mk.inj same
    refine .group group known ?_ same
    rw [← found]
    simp [OverloadGroup.slot, OverloadGroup.emitsStatic, parts, kind]

theorem holds_of_malformed (entry : Entry) (declared : entry ∈ entries decl)
    (malformed : entry.method.wellFormed = false) (slot : MemberKey)
    (found : slot? decl entry.method = some slot) : Holds decl entry.method slot := by
  have marks := marks_ofClass decl entry (List.mem_filter.mpr ⟨declared, by simp [malformed]⟩)
  simp only [slot?, malformed, Bool.false_eq_true, if_false] at found
  split at found
  · cases found
  · next free =>
    simp only [Bool.or_eq_true, List.isEmpty_iff, not_or, Bool.not_eq_true] at free
    rcases marks with empty | owned | marked
    · exact absurd empty free.1
    · rw [key_mem_groups_iff, free.2] at owned
      cases owned
    · obtain ⟨mark, known, same⟩ := List.mem_map.mp marked
      have slots := (Method.slot_eq_iff _ _).mpr same
      exact .mark mark known ((Option.some.inj found).symm.trans slots.symm) same

/-- A method that has a slot finds there what the plan has for it. -/
theorem holds_of_slot (method : Method) (member : method ∈ decl.methods) (slot : MemberKey)
    (found : slot? decl method = some slot) : Holds decl method slot := by
  obtain ⟨entry, declared, rfl⟩ := entry_of_method decl method member
  by_cases wellFormed : entry.method.wellFormed = true
  · exact holds_of_wellFormed decl entry declared wellFormed slot found
  · exact holds_of_malformed decl entry declared (by simpa using wellFormed) slot found

/-- The slots of a plan are those under which the methods of its class are found. -/
theorem mem_slots_iff (slot : MemberKey) :
    slot ∈ (ofClass decl).slots ↔ ∃ method ∈ decl.methods, slot? decl method = some slot := by
  simp only [slots, List.mem_append, List.mem_map]
  constructor
  · rintro ((⟨setter, known, rfl⟩ | ⟨group, known, rfl⟩) | ⟨mark, known, rfl⟩)
    · exact ⟨_, slot_of_setter decl setter known⟩
    · obtain ⟨method, member, _, found⟩ := slot_of_group decl group known
      exact ⟨method, member, found⟩
    · exact ⟨_, slot_of_mark decl mark known⟩
  · rintro ⟨method, member, found⟩
    cases holds_of_slot decl method member slot found with
    | setter setter known same side => exact Or.inl (Or.inl ⟨setter, known, same.symm⟩)
    | group group known same key => exact Or.inl (Or.inr ⟨group, known, same.symm⟩)
    | mark mark known same key => exact Or.inr ⟨mark, known, same.symm⟩

-- The name of a setter is the base name of no instance method.
theorem ne_setter_of_instance (setter : SetterAccessor) (known : setter ∈ (ofClass decl).setters)
    (method : Method) (member : method ∈ decl.methods) (side : method.isStatic = false) :
    method.baseName ≠ setter.name := by
  intro same
  obtain ⟨_, place⟩ := (settled_ofClass decl).setters setter known
  have taken : (instanceBases decl).contains setter.name = true := by
    simp only [instanceBases, List.contains_eq_mem, decide_eq_true_eq, List.mem_map,
      List.mem_filter]
    exact ⟨method, ⟨member, by simp [side]⟩, same⟩
  unfold destination at place
  split at place
  · cases place
  · split at place
    · next name _ =>
      unfold setterDestination at place
      repeat' split at place
      all_goals cases place
      next free => exact free taken
    · cases place

/-- Methods that are found under one slot are declared on one side: no initializer becomes a factory
with the name of a static method. -/
def FactoriesApart : Prop :=
  ∀ left ∈ decl.methods, ∀ right ∈ decl.methods, ∀ slot, slot? decl left = some slot →
    slot? decl right = some slot → left.isStatic = right.isStatic

theorem nodup_slots_of_factoriesApart (apart : FactoriesApart decl) :
    (ofClass decl).slots.Nodup := by
  have settled := settled_ofClass decl
  have marks := marksApart_ofClass decl
  -- Each slot of a group or a mark is that of a method of its key.
  have setters : ((ofClass decl).setters.map fun setter => MemberKey.mk false setter.name).Nodup := by
    apply List.Nodup.map_on _ (List.Nodup.of_map _ (nodup_setters decl))
    intro left leftIn right rightIn same
    exact List.inj_on_of_nodup_map (nodup_setters decl) leftIn rightIn (MemberKey.mk.inj same).2
  have groups : ((ofClass decl).groups.map OverloadGroup.slot).Nodup := by
    apply List.Nodup.map_on _ (List.Nodup.of_map _ settled.keys)
    intro left leftIn right rightIn same
    obtain ⟨first, member, key, found⟩ := slot_of_group decl left leftIn
    obtain ⟨second, member', key', found'⟩ := slot_of_group decl right rightIn
    have sides := apart first member second member' _ found (same ▸ found')
    apply group_of_key decl left right leftIn rightIn
    have names := (MemberKey.mk.inj same).2
    simp only [Method.key, OverloadGroup.key, Prod.mk.injEq] at key key' ⊢
    exact ⟨key.1.symm.trans (sides.trans key'.1), names⟩
  have marked : ((ofClass decl).incomplete.map (·.method.slot)).Nodup := by
    apply List.Nodup.map_on _ (List.Nodup.of_map _ marks.keys)
    intro left leftIn right rightIn same
    exact List.inj_on_of_nodup_map marks.keys leftIn rightIn ((Method.slot_eq_iff _ _).mp same)
  refine List.nodup_append.mpr ⟨List.nodup_append.mpr ⟨setters, groups, ?_⟩, marked, ?_⟩
  · rintro _ own slot other rfl
    obtain ⟨setter, known, rfl⟩ := List.mem_map.mp own
    obtain ⟨group, known', same⟩ := List.mem_map.mp other
    obtain ⟨method, member, key, _⟩ := slot_of_group decl group known'
    simp only [OverloadGroup.slot, OverloadGroup.emitsStatic, MemberKey.mk.injEq,
      Bool.or_eq_false_iff] at same
    simp only [Method.key, OverloadGroup.key, Prod.mk.injEq] at key
    exact ne_setter_of_instance decl setter known method member (key.1.trans same.1.1)
      (key.2.trans same.2)
  · rintro _ own slot other rfl
    obtain ⟨mark, known', same⟩ := List.mem_map.mp other
    obtain ⟨member, found⟩ := slot_of_mark decl mark known'
    rcases List.mem_append.mp own with first | second
    · obtain ⟨setter, known, rfl⟩ := List.mem_map.mp first
      have parts := MemberKey.mk.inj same
      exact ne_setter_of_instance decl setter known mark.method member parts.1 parts.2
    · obtain ⟨group, known, rfl⟩ := List.mem_map.mp second
      obtain ⟨method, declared, key, found'⟩ := slot_of_group decl group known
      have sides := apart mark.method member method declared _ found (same ▸ found')
      apply marks.unowned mark known'
      refine List.mem_map.mpr ⟨group, known, ?_⟩
      have names := (MemberKey.mk.inj same).2
      simp only [Method.key, OverloadGroup.key, Prod.mk.injEq] at key ⊢
      exact ⟨key.1.symm.trans sides.symm, names.symm⟩

theorem factoriesApart_of_nodup_slots (apart : (ofClass decl).slots.Nodup) :
    FactoriesApart decl := by
  obtain ⟨front, marked, unmarked⟩ := List.nodup_append.mp apart
  obtain ⟨_, groups, ungrouped⟩ := List.nodup_append.mp front
  intro left leftIn right rightIn slot leftFound rightFound
  have leftHolds := holds_of_slot decl left leftIn slot leftFound
  have rightHolds := holds_of_slot decl right rightIn slot rightFound
  -- Two places of one slot are one place, since no slot is given out twice.
  have setterGroup : ∀ setter ∈ (ofClass decl).setters, ∀ group ∈ (ofClass decl).groups,
      slot = ⟨false, setter.name⟩ → slot ≠ group.slot := by
    rintro setter known group known' rfl
    exact ungrouped _ (List.mem_map_of_mem known) _ (List.mem_map_of_mem known')
  have setterMark : ∀ setter ∈ (ofClass decl).setters, ∀ mark ∈ (ofClass decl).incomplete,
      slot = ⟨false, setter.name⟩ → slot ≠ mark.method.slot := by
    rintro setter known mark known' rfl
    exact unmarked _ (List.mem_append_left _ (List.mem_map_of_mem known)) _
      (List.mem_map_of_mem known')
  have groupMark : ∀ group ∈ (ofClass decl).groups, ∀ mark ∈ (ofClass decl).incomplete,
      slot = group.slot → slot ≠ mark.method.slot := by
    rintro group known mark known' rfl
    exact unmarked _ (List.mem_append_right _ (List.mem_map_of_mem known)) _
      (List.mem_map_of_mem known')
  cases leftHolds with
  | setter setter known same side =>
    cases rightHolds with
    | setter other known' same' side' => exact side.trans side'.symm
    | group group known' same' key => exact absurd same' (setterGroup setter known group known' same)
    | mark mark known' same' key => exact absurd same' (setterMark setter known mark known' same)
  | group group known same key =>
    cases rightHolds with
    | setter setter known' same' side =>
      exact absurd same (setterGroup setter known' group known same')
    | group other known' same' key' =>
      have one := List.inj_on_of_nodup_map groups known known' (same.symm.trans same')
      exact (Prod.mk.inj (key.symm.trans (one ▸ key'))).1
    | mark mark known' same' key' => exact absurd same' (groupMark group known mark known' same)
  | mark mark known same key =>
    cases rightHolds with
    | setter setter known' same' side =>
      exact absurd same (setterMark setter known' mark known same')
    | group group known' same' key' => exact absurd same (groupMark group known' mark known same')
    | mark other known' same' key' =>
      have one := List.inj_on_of_nodup_map marked known known' (same.symm.trans same')
      exact (Prod.mk.inj (key.symm.trans (one ▸ key'))).1

/-- A plan gives no slot out twice exactly if its factories keep apart from static methods. -/
theorem nodup_slots_iff : (ofClass decl).slots.Nodup ↔ FactoriesApart decl :=
  ⟨factoriesApart_of_nodup_slots decl, nodup_slots_of_factoriesApart decl⟩

end Places

end MemberPlan

end HeaderBindings
