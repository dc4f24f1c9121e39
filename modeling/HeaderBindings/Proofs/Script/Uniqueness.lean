import HeaderBindings.Run.Generate
import HeaderBindings.Proofs.Plan.Slots
import Mathlib.Data.List.Pairwise

/-!
Names of the members of a generated class. A class with two members of one side and one name is
either refused or loses the first of them; the accessors of one property belong together. Names are
taken from properties and from the slots of the plan, and escaping may make two of them equal: the
main statement says of which declarations no two members share a name.
-/

namespace HeaderBindings

namespace Identifier

/-- A name is reserved and another one is what it is escaped to. -/
def Escapes (name other : Text) : Prop := reserved.contains name = true ∧ other = name ++ ['_']

theorem not_reserved_escaped (name : Text) : name ++ ['_'] ∉ reserved := by
  have plain : ∀ word ∈ reserved, word.getLast? ≠ some '_' := by decide
  intro known
  exact plain _ known (by simp)

theorem sanitize_eq_iff (left right : Text) :
    sanitize left = sanitize right ↔ left = right ∨ Escapes left right ∨ Escapes right left := by
  constructor
  · intro same
    unfold sanitize at same
    by_cases l : reserved.contains left = true
    · by_cases r : reserved.contains right = true
      · rw [if_pos l, if_pos r] at same
        exact Or.inl (List.append_cancel_right same)
      · rw [if_pos l, if_neg r] at same
        exact Or.inr (Or.inl ⟨l, same.symm⟩)
    · by_cases r : reserved.contains right = true
      · rw [if_neg l, if_pos r] at same
        exact Or.inr (Or.inr ⟨r, same⟩)
      · rw [if_neg l, if_neg r] at same
        exact Or.inl same
  · rintro (rfl | ⟨known, rfl⟩ | ⟨known, rfl⟩)
    · rfl
    · simp [sanitize, not_reserved_escaped, List.contains_iff_mem.mp known]
    · simp [sanitize, not_reserved_escaped, List.contains_iff_mem.mp known]

end Identifier

/-- The key that a slot is written with. -/
def MemberKey.escaped (slot : MemberKey) : MemberKey := ⟨slot.isStatic, Identifier.sanitize slot.name⟩

/-- Two slots of one side of which the first is escaped to the second. -/
def MemberKey.Escapes (slot other : MemberKey) : Prop :=
  slot.isStatic = other.isStatic ∧ Identifier.Escapes slot.name other.name

theorem MemberKey.escaped_eq_iff (left right : MemberKey) :
    left.escaped = right.escaped ↔ left = right ∨ left.Escapes right ∨ right.Escapes left := by
  obtain ⟨leftSide, leftName⟩ := left
  obtain ⟨rightSide, rightName⟩ := right
  simp only [escaped, MemberKey.mk.injEq, Identifier.sanitize_eq_iff, Escapes]
  constructor
  · rintro ⟨side, same | escapes | escapes⟩
    · exact Or.inl ⟨side, same⟩
    · exact Or.inr (Or.inl ⟨side, escapes⟩)
    · exact Or.inr (Or.inr ⟨side.symm, escapes⟩)
  · rintro (⟨side, same⟩ | ⟨side, escapes⟩ | ⟨side, escapes⟩)
    · exact ⟨side, Or.inl same⟩
    · exact ⟨side, Or.inr (Or.inl escapes)⟩
    · exact ⟨side.symm, Or.inr (Or.inr escapes)⟩

/-- The side and the name that a member is written with. -/
def ScriptMember.key : ScriptMember → MemberKey
  | getter _ isStatic name _ _ => ⟨isStatic, name⟩
  | setter _ isStatic name _ _ => ⟨isStatic, name⟩
  | function _ signature _ => ⟨signature.isStatic, signature.name⟩
  | overloaded dispatch => ⟨dispatch.isStatic, dispatch.name⟩
  | incomplete isStatic name => ⟨isStatic, name⟩

namespace Property

def slot (property : Property) : MemberKey := ⟨property.isClass, property.name⟩

-- A property without a name has no accessor; all accessors of one with a name have its key.
theorem exists_member_iff (property : Property) (className : Text) (key : MemberKey) :
    (∃ member ∈ property.members className, member.key = key) ↔
      property.name ≠ [] ∧ property.slot.escaped = key := by
  unfold members
  by_cases empty : property.name = []
  · simp [empty]
  · simp only [List.isEmpty_iff, empty, if_false, ne_eq, not_false_eq_true, true_and]
    split <;> simp [ScriptMember.key, slot, MemberKey.escaped]

end Property

namespace MemberPlan

theorem keys_members (plan : MemberPlan) (className : Text) :
    (plan.members className).map ScriptMember.key = plan.slots.map MemberKey.escaped := by
  have group (group : OverloadGroup) :
      (group.member className).key = group.slot.escaped := by
    unfold OverloadGroup.member
    split <;> rfl
  simp only [members, slots, List.map_append, List.map_map, Function.comp_def, group]
  rfl

end MemberPlan

namespace ClassDecl

variable (decl : ClassDecl)

/-- The members of a generated class, those together that may share a name: the accessors of one
property. Any other member is alone. -/
def memberBlocks : List (List ScriptMember) :=
  decl.properties.map (·.members decl.name)
    ++ ((MemberPlan.ofClass decl).members decl.name).map fun member => [member]

theorem flatten_memberBlocks : decl.memberBlocks.flatten = decl.scriptMembers := by
  have alone (members : List ScriptMember) :
      (members.map fun member => [member]).flatten = members := by
    induction members with
    | nil => rfl
    | cons member members ih => simp [ih]
  rw [memberBlocks, List.flatten_append, alone, scriptMembers, List.flatMap_def]

/-- No two members have one side and one name, but for the accessors of one property. -/
def UniqueNames : Prop :=
  decl.memberBlocks.Pairwise fun earlier later =>
    ∀ left ∈ earlier, ∀ right ∈ later, left.key ≠ right.key

instance : Decidable decl.UniqueNames := inferInstanceAs (Decidable (List.Pairwise _ _))

/-- What keeps the names of a class apart, said of its declaration: no two of its properties are
written with one key, no method is found under the key of a property, no initializer takes the name
of a static method, and no method has the name that another one is escaped to. -/
structure NamesApart : Prop where
  properties : ((decl.properties.filter (!·.name.isEmpty)).map (·.slot.escaped)).Nodup
  methods : ∀ property ∈ decl.properties, property.name ≠ [] → ∀ method ∈ decl.methods,
    ∀ slot, MemberPlan.slot? decl method = some slot → property.slot.escaped ≠ slot.escaped
  factories : MemberPlan.FactoriesApart decl
  escapes : ∀ left ∈ decl.methods, ∀ right ∈ decl.methods, ∀ slot other,
    MemberPlan.slot? decl left = some slot → MemberPlan.slot? decl right = some other →
      ¬ slot.Escapes other

theorem pairwise_properties_iff :
    (decl.properties.map (·.members decl.name)).Pairwise
        (fun earlier later => ∀ left ∈ earlier, ∀ right ∈ later, left.key ≠ right.key) ↔
      ((decl.properties.filter (!·.name.isEmpty)).map (·.slot.escaped)).Nodup := by
  rw [List.pairwise_map, List.Nodup, List.pairwise_map, List.pairwise_filter]
  apply List.Pairwise.iff
  intro earlier later
  constructor
  · intro apart named named' same
    obtain ⟨left, leftIn, leftKey⟩ := (earlier.exists_member_iff decl.name _).mpr
      ⟨by simpa using named, rfl⟩
    obtain ⟨right, rightIn, rightKey⟩ := (later.exists_member_iff decl.name _).mpr
      ⟨by simpa using named', rfl⟩
    exact apart left leftIn right rightIn (leftKey.trans (same.trans rightKey.symm))
  · intro apart left leftIn right rightIn same
    obtain ⟨named, leftKey⟩ := (earlier.exists_member_iff decl.name _).mp ⟨left, leftIn, rfl⟩
    obtain ⟨named', rightKey⟩ := (later.exists_member_iff decl.name _).mp ⟨right, rightIn, rfl⟩
    exact apart (by simpa using named) (by simpa using named')
      (leftKey.trans (same.trans rightKey.symm))

-- Escaping keeps slots apart, unless one of them is what another one is escaped to.
theorem nodup_escaped_iff (slots : List MemberKey) :
    (slots.map MemberKey.escaped).Nodup ↔
      slots.Nodup ∧ ∀ slot ∈ slots, ∀ other ∈ slots, ¬ slot.Escapes other := by
  constructor
  · intro apart
    refine ⟨List.Nodup.of_map _ apart, ?_⟩
    intro slot member other member' escapes
    have one := List.inj_on_of_nodup_map apart member member'
      ((MemberKey.escaped_eq_iff _ _).mpr (Or.inr (Or.inl escapes)))
    have longer := congrArg List.length (one ▸ escapes.2.2)
    simp at longer
  · rintro ⟨apart, plain⟩
    apply List.Nodup.map_on _ apart
    intro slot member other member' same
    rcases (MemberKey.escaped_eq_iff _ _).mp same with one | escapes | escapes
    · exact one
    · exact absurd escapes (plain slot member other member')
    · exact absurd escapes (plain other member' slot member)

theorem pairwise_methods_iff :
    (((MemberPlan.ofClass decl).members decl.name).map fun member => [member]).Pairwise
        (fun earlier later => ∀ left ∈ earlier, ∀ right ∈ later, left.key ≠ right.key) ↔
      MemberPlan.FactoriesApart decl ∧
        ∀ left ∈ decl.methods, ∀ right ∈ decl.methods, ∀ slot other,
          MemberPlan.slot? decl left = some slot → MemberPlan.slot? decl right = some other →
            ¬ slot.Escapes other := by
  have slots := MemberPlan.mem_slots_iff decl
  have nodup : (((MemberPlan.ofClass decl).members decl.name).map fun member => [member]).Pairwise
      (fun earlier later => ∀ left ∈ earlier, ∀ right ∈ later, left.key ≠ right.key) ↔
        ((MemberPlan.ofClass decl).slots.map MemberKey.escaped).Nodup := by
    rw [← MemberPlan.keys_members _ decl.name, List.Nodup, List.pairwise_map, List.pairwise_map]
    simp
  rw [nodup, nodup_escaped_iff, MemberPlan.nodup_slots_iff]
  refine and_congr_right fun _ => ?_
  constructor
  · intro plain left leftIn right rightIn slot other found found'
    exact plain slot ((slots slot).mpr ⟨left, leftIn, found⟩) other
      ((slots other).mpr ⟨right, rightIn, found'⟩)
  · intro plain slot member other member'
    obtain ⟨left, leftIn, found⟩ := (slots slot).mp member
    obtain ⟨right, rightIn, found'⟩ := (slots other).mp member'
    exact plain left leftIn right rightIn slot other found found'

-- A member is generated for a method under each slot of one, escaped, and under no other key.
theorem exists_generated_iff (key : MemberKey) :
    (∃ member ∈ (MemberPlan.ofClass decl).members decl.name, member.key = key) ↔
      ∃ method ∈ decl.methods, ∃ slot, MemberPlan.slot? decl method = some slot ∧
        slot.escaped = key := by
  rw [← List.mem_map, (MemberPlan.ofClass decl).keys_members decl.name, List.mem_map]
  constructor
  · rintro ⟨slot, given, rfl⟩
    obtain ⟨method, member, found⟩ := (MemberPlan.mem_slots_iff decl slot).mp given
    exact ⟨method, member, slot, found, rfl⟩
  · rintro ⟨method, member, slot, found, rfl⟩
    exact ⟨slot, (MemberPlan.mem_slots_iff decl slot).mpr ⟨method, member, found⟩, rfl⟩

theorem apart_across_iff :
    (∀ earlier ∈ decl.properties.map (·.members decl.name),
      ∀ later ∈ ((MemberPlan.ofClass decl).members decl.name).map fun member => [member],
        ∀ left ∈ earlier, ∀ right ∈ later, left.key ≠ right.key) ↔
      ∀ property ∈ decl.properties, property.name ≠ [] → ∀ method ∈ decl.methods,
        ∀ slot, MemberPlan.slot? decl method = some slot → property.slot.escaped ≠ slot.escaped := by
  constructor
  · intro across property declared named method member slot found same
    obtain ⟨accessor, own, key⟩ := (property.exists_member_iff decl.name _).mpr ⟨named, rfl⟩
    obtain ⟨other, generated, key'⟩ :=
      (decl.exists_generated_iff slot.escaped).mpr ⟨method, member, slot, found, rfl⟩
    exact across _ (List.mem_map_of_mem declared) _ (List.mem_map_of_mem generated) accessor own
      other (List.mem_singleton.mpr rfl) (key.trans (same.trans key'.symm))
  · intro apart earlier first later second accessor own other inside same
    obtain ⟨property, declared, rfl⟩ := List.mem_map.mp first
    obtain ⟨generated, known, rfl⟩ := List.mem_map.mp second
    rw [List.mem_singleton.mp inside] at same
    obtain ⟨method, member, slot, found, key⟩ :=
      (decl.exists_generated_iff _).mp ⟨generated, known, rfl⟩
    obtain ⟨named, key'⟩ := (property.exists_member_iff decl.name _).mp ⟨accessor, own, rfl⟩
    exact apart property declared named method member slot found
      (key'.trans (same.trans key.symm))

/-- No two members of a generated class share a side and a name exactly if the names of its
properties, its methods and its factories are apart in these four ways. -/
theorem uniqueNames_iff : decl.UniqueNames ↔ decl.NamesApart := by
  rw [UniqueNames, memberBlocks, List.pairwise_append, pairwise_properties_iff,
    pairwise_methods_iff, apart_across_iff]
  constructor
  · rintro ⟨properties, ⟨factories, escapes⟩, methods⟩
    exact ⟨properties, methods, factories, escapes⟩
  · rintro ⟨properties, methods, factories, escapes⟩
    exact ⟨properties, ⟨factories, escapes⟩, methods⟩

/-- A class and an extension that declares a property of it again. -/
def widenedPanel : SourceUnit where
  path := "Panel.h".toList
  content :=
    ["@interface Panel : NSObject".toList,
     "@property (readonly) int size;".toList,
     "@end".toList,
     "@interface Panel ()".toList,
     "@property int size;".toList,
     "@end".toList].flatMap (· ++ ['\n'])

/-- Members of a class that has been read do share names: a property that an extension declares
again is written twice. -/
theorem widened_size_twice :
    ¬ ∀ (units : List SourceUnit), ∀ decl ∈ (Run.extractUnits .empty units).1.classes,
      decl.UniqueNames := by
  intro unique
  have twice : ∃ decl ∈ (Run.extractUnits .empty [widenedPanel]).1.classes, ¬ decl.UniqueNames := by
    decide +kernel
  obtain ⟨decl, member, shared⟩ := twice
  exact shared (unique [widenedPanel] decl member)

end ClassDecl

end HeaderBindings
