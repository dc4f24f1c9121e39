import HeaderBindings.Proofs.Plan.Structure
import HeaderBindings.Proofs.Script.Names
import HeaderBindings.Proofs.Script.Writing

/-!
Which methods of a class its generated members still reach. A member used with a number of
arguments makes one call or none; a method is lost silently if no member makes its call, no warning
speaks of it and no accessor of a property makes its call either.
-/

namespace HeaderBindings

namespace ScriptMember

/-- The call that a member makes when it is used with a number of arguments. The branches of an
overloaded member are tried in order. -/
def callAt? : ScriptMember → Nat → Option Call
  | getter _ _ _ _ call, 0 => some call
  | setter _ _ _ _ call, 1 => some call
  | function _ _ body, _ => some body.call
  | overloaded dispatch, count =>
    (dispatch.overloads.find? (·.arity == count)).map (·.body.call)
  | _, _ => none

/-- Whether a member makes a call of a selector on a receiver, for some number of arguments. -/
def Calls (member : ScriptMember) (receiver : Receiver) (selector : Text) : Prop :=
  ∃ count call, member.callAt? count = some call ∧ call.receiver = receiver ∧
    call.selector = selector

end ScriptMember

namespace Method

/-- What a method is sent to: its class, an instance or, for an initializer, a fresh instance. -/
def receiver (method : Method) (className : Text) : Receiver :=
  if method.isInitializer then .fresh className else .ofSide className method.isStatic

theorem isStatic_of_initializer (method : Method) (initializer : method.isInitializer = true) :
    method.isStatic = false := by
  simp only [isInitializer, Bool.and_eq_true, Bool.not_eq_true'] at initializer
  exact initializer.1

-- The receiver tells the side.
theorem isStatic_of_receiver (left right : Method) (className : Text)
    (same : left.receiver className = right.receiver className) :
    left.isStatic = right.isStatic := by
  have side : ∀ isStatic, Receiver.ofSide className isStatic ≠ .fresh className := by
    intro isStatic
    cases isStatic <;> simp [Receiver.ofSide]
  unfold receiver at same
  by_cases l : left.isInitializer = true <;> by_cases r : right.isInitializer = true
  · rw [isStatic_of_initializer left l, isStatic_of_initializer right r]
  · simp only [l, r, if_true, Bool.false_eq_true, if_false] at same
    exact absurd same.symm (side _)
  · simp only [l, r, if_true, Bool.false_eq_true, if_false] at same
    exact absurd same (side _)
  · simp only [l, r, Bool.false_eq_true, if_false] at same
    cases ls : left.isStatic <;> cases rs : right.isStatic <;>
      simp_all [Receiver.ofSide]

theorem isStatic_of_side (method : Method) (className : Text) (isStatic : Bool)
    (same : method.receiver className = .ofSide className isStatic) :
    method.isStatic = isStatic := by
  unfold receiver at same
  by_cases initializer : method.isInitializer = true
  · cases isStatic <;> simp [initializer, Receiver.ofSide] at same
  · cases own : method.isStatic <;> cases isStatic <;> simp_all [Receiver.ofSide]

end Method

namespace OverloadGroup

variable (className : Text) (group : OverloadGroup)

theorem call_statement (method : Method) (arguments : CallArguments) (sound : group.Sound)
    (entry : Entry) (member : entry ∈ group.entries) (same : entry.method = method) :
    (group.statement className method arguments).call =
      ⟨method.receiver className, method.selector, arguments⟩ := by
  have kind := sound.kind entry member
  rw [same] at kind
  unfold statement Method.receiver
  rw [← kind]
  repeat' split
  all_goals rfl

theorem arity_overloadOf (method : Method) :
    (group.overloadOf className method).arity = method.arity :=
  method.length_scriptParams

/-- The branch taken for a number of arguments is that of the method which the group resolves. -/
theorem callAt_dispatch (sound : group.Sound) (count : Nat) :
    ScriptMember.callAt? (.overloaded (group.dispatch className)) count =
      match group.resolve count with
      | .ok entry => some ⟨entry.method.receiver className, entry.method.selector, .all⟩
      | .error _ => none := by
  simp only [ScriptMember.callAt?, dispatch, methods, List.find?_map, Function.comp_def,
    arity_overloadOf, resolve]
  cases found : group.entries.find? (·.method.arity == count) with
  | none => rfl
  | some entry =>
    have member := List.mem_of_find?_eq_some found
    simp [overloadOf, call_statement className group entry.method .all sound entry member rfl]

theorem member_eq_function (entry : Entry) (alone : group.entries = [entry]) :
    group.member className = group.function className entry.method := by
  simp [member, methods, alone]

theorem member_eq_dispatch (overloaded : ∀ entry, group.entries ≠ [entry]) :
    group.member className = .overloaded (group.dispatch className) := by
  unfold member methods
  split
  · next method alone =>
    obtain ⟨entry, single, _⟩ := List.map_eq_singleton_iff.mp alone
    exact absurd single (overloaded entry)
  · rfl

theorem mem_of_resolve (count : Nat) (entry : Entry) (resolved : group.resolve count = .ok entry) :
    entry ∈ group.entries ∧ entry.method.arity = count := by
  unfold resolve at resolved
  split at resolved
  · next here =>
    cases resolved
    exact ⟨List.mem_of_find?_eq_some here, by simpa using List.find?_some here⟩
  · cases resolved

-- Whatever a group's member calls is a method of the group.
theorem entry_of_calls (sound : group.Sound) (receiver : Receiver) (selector : Text)
    (calls : (group.member className).Calls receiver selector) :
    ∃ entry ∈ group.entries, entry.method.receiver className = receiver ∧
      entry.method.selector = selector := by
  obtain ⟨count, call, made, target, named⟩ := calls
  by_cases single : ∃ only, group.entries = [only]
  · obtain ⟨only, alone⟩ := single
    have member : only ∈ group.entries := by simp [alone]
    rw [member_eq_function className group only alone] at made
    have same := call_statement className group only.method (.named only.method.paramNames) sound
      only member rfl
    simp only [function, ScriptMember.callAt?, same, Option.some.injEq] at made
    subst made
    exact ⟨only, member, target, named⟩
  · rw [member_eq_dispatch className group (fun only alone => single ⟨only, alone⟩),
      callAt_dispatch className group sound] at made
    cases resolved : group.resolve count with
    | error fault => simp [resolved] at made
    | ok found =>
      simp only [resolved, Option.some.injEq] at made
      subst made
      exact ⟨found, (mem_of_resolve group count found resolved).1, target, named⟩

/-- A group's member calls the method of an entry exactly if the group resolves the entry's own
number of arguments to it. -/
theorem calls_member_iff (sound : group.Sound) (entry : Entry) (member : entry ∈ group.entries) :
    (group.member className).Calls (entry.method.receiver className) entry.method.selector ↔
      group.resolve entry.method.arity = .ok entry := by
  by_cases single : ∃ only, group.entries = [only]
  · obtain ⟨only, alone⟩ := single
    rw [alone, List.mem_singleton] at member
    subst member
    rw [member_eq_function className group entry alone]
    constructor
    · intro _
      simp [resolve, alone]
    · intro _
      exact ⟨0, _, rfl, by
        rw [call_statement className group entry.method _ sound entry (by simp [alone]) rfl],
        by rw [call_statement className group entry.method _ sound entry (by simp [alone]) rfl]⟩
  · rw [member_eq_dispatch className group (fun only alone => single ⟨only, alone⟩)]
    constructor
    -- Selectors differ in a group, so a branch with the entry's selector is the entry's own.
    · rintro ⟨count, call, made, _, selector⟩
      rw [callAt_dispatch className group sound] at made
      cases resolved : group.resolve count with
      | error fault => simp [resolved] at made
      | ok found =>
        simp only [resolved, Option.some.injEq] at made
        obtain ⟨here, arity⟩ := mem_of_resolve group count found resolved
        subst made
        have same := entry_of_selector group sound found entry here member selector
        rw [← same, arity, resolved]
    · intro resolved
      refine ⟨entry.method.arity,
        ⟨entry.method.receiver className, entry.method.selector, .all⟩, ?_, rfl, rfl⟩
      rw [callAt_dispatch className group sound, resolved]

end OverloadGroup

-- A method that makes a setter is an instance method and no initializer.
theorem SetterAccessor.receiver_of_property (method : Method) (name className : Text)
    (named : MemberPlan.setterProperty? method = some name) :
    method.receiver className = .handle := by
  unfold MemberPlan.setterProperty? at named
  split at named
  · cases named
  · next plain =>
    have side : method.isStatic = false := by
      by_contra static
      simp [Bool.not_eq_false _ ▸ static] at plain
    split at named
    · next c rest starts =>
      have base := (Text.after_eq_some_iff _ _ _).mp starts
      have other : method.isInitializer = false := by
        simp [Method.isInitializer, base, Text.after?]
      simp [Method.receiver, other, side, Receiver.ofSide]
    · cases named

theorem SetterAccessor.calls_member_iff (setter : SetterAccessor) (receiver : Receiver)
    (selector : Text) :
    setter.member.Calls receiver selector ↔
      receiver = .handle ∧ selector = setter.entry.method.selector := by
  constructor
  · rintro ⟨count, call, made, rfl, rfl⟩
    unfold SetterAccessor.member at made
    match count, made with
    | 1, made => cases made; exact ⟨rfl, rfl⟩
  · rintro ⟨rfl, rfl⟩
    exact ⟨1, _, rfl, rfl, rfl⟩

theorem Property.receiver_of_calls (property : Property) (className : Text)
    (member : ScriptMember) (accessor : member ∈ property.members className)
    (receiver : Receiver) (selector : Text) (calls : member.Calls receiver selector) :
    receiver = .ofSide className property.isClass := by
  obtain ⟨count, call, made, rfl, _⟩ := calls
  have kinds : ∃ doc name type call,
      call.receiver = Receiver.ofSide className property.isClass ∧
        (member = .getter doc property.isClass name type call ∨
          member = .setter doc property.isClass name type call) := by
    unfold Property.members at accessor
    split at accessor
    · cases accessor
    · simp only at accessor
      split at accessor
      · exact ⟨_, _, _, _, rfl, Or.inl (List.mem_singleton.mp accessor)⟩
      · rcases List.mem_cons.mp accessor with first | second
        · exact ⟨_, _, _, _, rfl, Or.inl first⟩
        · exact ⟨_, _, _, _, rfl, Or.inr (List.mem_singleton.mp second)⟩
  obtain ⟨doc, name, type, own, side, rfl | rfl⟩ := kinds
  · match count, made with
    | 0, made => cases made; exact side
  · match count, made with
    | 1, made => cases made; exact side

namespace ClassDecl

variable (decl : ClassDecl)

/-- Some member of the generated class calls a method on what the method is sent to. -/
def Reaches (method : Method) : Prop :=
  ∃ member ∈ decl.scriptMembers, member.Calls (method.receiver decl.name) method.selector

/-- The generated file warns about a method. -/
def Reports (bridge : Text) (classes : ClassSet) (entry : Entry) : Prop :=
  ∃ reason, (entry, reason) ∈ (MemberPlan.ofClass decl).dropped ∧ reason.isWarning = true ∧
    { message := MemberPlan.dropMessage decl.name (entry, reason) } ∈
      (GeneratedFile.ofClass bridge classes decl).diagnostics

/-- A method declares an accessor of a property again: one of the property's own members, on the
same side, calls its selector. -/
def RepeatsAccessor (method : Method) : Prop :=
  ∃ property ∈ decl.properties, property.isClass = method.isStatic ∧
    ∃ member ∈ property.members decl.name,
      member.Calls (.ofSide decl.name method.isStatic) method.selector

/-- A method stands in a group that resolves its number of arguments to another method. -/
def Shadowed (entry : Entry) : Prop :=
  ∃ group ∈ (MemberPlan.ofClass decl).groups, entry ∈ group.entries ∧
    group.resolve entry.method.arity ≠ .ok entry

/-- A method is left out, and not even warned about. -/
def Omitted (entry : Entry) : Prop :=
  ∃ reason, (entry, reason) ∈ (MemberPlan.ofClass decl).dropped ∧ reason.isWarning = false

theorem reports_iff (bridge : Text) (classes : ClassSet) (entry : Entry) :
    decl.Reports bridge classes entry ↔
      ∃ reason, (entry, reason) ∈ (MemberPlan.ofClass decl).dropped ∧ reason.isWarning = true := by
  constructor
  · rintro ⟨reason, dropped, warning, _⟩
    exact ⟨reason, dropped, warning⟩
  · rintro ⟨reason, dropped, warning⟩
    refine ⟨reason, dropped, warning, ?_⟩
    rw [GeneratedFile.diagnostics_ofClass]
    exact List.mem_map.mpr ⟨(entry, reason), List.mem_filter.mpr ⟨dropped, warning⟩, rfl⟩

theorem member_of_group (group : OverloadGroup)
    (planned : group ∈ (MemberPlan.ofClass decl).groups) :
    group.member decl.name ∈ decl.scriptMembers := by
  simp only [scriptMembers, MemberPlan.members, List.mem_append, List.mem_map]
  exact Or.inr (Or.inl (Or.inr ⟨group, planned, rfl⟩))

theorem member_of_setter (setter : SetterAccessor)
    (planned : setter ∈ (MemberPlan.ofClass decl).setters) :
    setter.member ∈ decl.scriptMembers := by
  simp only [scriptMembers, MemberPlan.members, List.mem_append, List.mem_map]
  exact Or.inr (Or.inl (Or.inl ⟨setter, planned, rfl⟩))

-- What a generated member can be; a mark calls nothing.
theorem cases_of_calls (member : ScriptMember) (generated : member ∈ decl.scriptMembers)
    (receiver : Receiver) (selector : Text) (calls : member.Calls receiver selector) :
    (∃ property ∈ decl.properties, member ∈ property.members decl.name) ∨
      (∃ setter ∈ (MemberPlan.ofClass decl).setters, member = setter.member) ∨
      ∃ group ∈ (MemberPlan.ofClass decl).groups, member = group.member decl.name := by
  simp only [scriptMembers, MemberPlan.members, List.mem_append, List.mem_flatMap,
    List.mem_map] at generated
  rcases generated with own | ((⟨setter, planned, rfl⟩ | ⟨group, planned, rfl⟩) | ⟨_, _, rfl⟩)
  · exact Or.inl own
  · exact Or.inr (Or.inl ⟨setter, planned, rfl⟩)
  · exact Or.inr (Or.inr ⟨group, planned, rfl⟩)
  · obtain ⟨count, call, made, _⟩ := calls
    cases made

/-- Every well-formed method that is neither omitted nor shadowed is reached or warned about. -/
theorem reached_or_reported (bridge : Text) (classes : ClassSet) (entry : Entry)
    (declared : entry ∈ MemberPlan.entries decl) (wellFormed : entry.method.wellFormed = true)
    (present : ¬ decl.Omitted entry) (first : ¬ decl.Shadowed entry) :
    decl.Reaches entry.method ∨ decl.Reports bridge classes entry := by
  have settled := MemberPlan.settled_ofClass decl
  have placed := (MemberPlan.placed_ofClass decl).mem_iff.mpr declared
  simp only [MemberPlan.placed, List.mem_append, List.mem_map, List.mem_flatMap] at placed
  -- Every method stands somewhere in the plan, a well-formed one under no mark.
  rcases placed with ((⟨setter, planned, rfl⟩ | ⟨group, planned, here⟩) | marked)
    | ⟨⟨_, reason⟩, dropped, rfl⟩
  · left
    obtain ⟨_, place⟩ := settled.setters setter planned
    refine ⟨setter.member, decl.member_of_setter setter planned, ?_⟩
    have named := MemberPlan.setterProperty_of_destination decl _ _ place
    rw [SetterAccessor.receiver_of_property _ _ decl.name named]
    exact (setter.calls_member_iff _ _).mpr ⟨rfl, rfl⟩
  · left
    refine ⟨group.member decl.name, decl.member_of_group group planned, ?_⟩
    refine (group.calls_member_iff decl.name (settled.groups group planned).1 entry here).mpr ?_
    by_contra other
    exact first ⟨group, planned, here, other⟩
  · have malformed := (MemberPlan.incomplete_ofClass decl).mem marked
    have := (List.mem_filter.mp malformed).2
    simp [wellFormed] at this
  · right
    refine (decl.reports_iff bridge classes _).mpr ⟨reason, dropped, ?_⟩
    by_contra quiet
    exact present ⟨reason, dropped, by simpa using quiet⟩

theorem destination_of_omitted (entry : Entry) (wellFormed : entry.method.wellFormed = true)
    (omitted : decl.Omitted entry) :
    MemberPlan.destination decl entry.method = .propertyGetter ∨
      MemberPlan.destination decl entry.method = .propertySetter := by
  obtain ⟨reason, dropped, quiet⟩ := omitted
  have fits := (MemberPlan.settled_ofClass decl).dropped _ dropped wellFormed
  cases reason with
  | propertyGetter => exact Or.inl fits
  | propertySetter => exact Or.inr fits
  | _ => cases quiet

theorem destination_of_shadowed (entry : Entry) (shadowed : decl.Shadowed entry) :
    MemberPlan.destination decl entry.method = .overload := by
  obtain ⟨group, planned, here, _⟩ := shadowed
  exact ((MemberPlan.settled_ofClass decl).groups group planned).2 entry here

theorem not_reported (bridge : Text) (classes : ClassSet) (entry : Entry)
    (wellFormed : entry.method.wellFormed = true)
    (missing : decl.Omitted entry ∨ decl.Shadowed entry) :
    ¬ decl.Reports bridge classes entry := by
  intro reported
  obtain ⟨reason, dropped, warning⟩ := (decl.reports_iff bridge classes entry).mp reported
  rcases missing with omitted | ⟨group, planned, here, _⟩
  · have fits := (MemberPlan.settled_ofClass decl).dropped _ dropped wellFormed
    rcases decl.destination_of_omitted entry wellFormed omitted with place | place <;>
      cases reason <;> simp_all [MemberPlan.Explains, DropReason.isWarning]
  · exact MemberPlan.not_dropped_of_grouped decl entry group planned here reason dropped

-- A setter's selector and side fix where its method belongs, which is in no group.
theorem uncalled_by_setter (entry : Entry) (wellFormed : entry.method.wellFormed = true)
    (missing : decl.Omitted entry ∨ decl.Shadowed entry) (setter : SetterAccessor)
    (planned : setter ∈ (MemberPlan.ofClass decl).setters) :
    ¬ setter.member.Calls (entry.method.receiver decl.name) entry.method.selector := by
  intro calls
  obtain ⟨receiver, selector⟩ := (setter.calls_member_iff _ _).mp calls
  obtain ⟨setterFormed, place⟩ := (MemberPlan.settled_ofClass decl).setters setter planned
  have named := MemberPlan.setterProperty_of_destination decl _ _ place
  have side := Method.isStatic_of_receiver entry.method setter.entry.method decl.name
    (receiver.trans (SetterAccessor.receiver_of_property _ _ decl.name named).symm)
  rw [← MemberPlan.destination_of_selector decl _ _ wellFormed setterFormed side selector] at place
  rcases missing with omitted | shadowed
  · rcases decl.destination_of_omitted entry wellFormed omitted with other | other <;>
      simp [place] at other
  · simp [decl.destination_of_shadowed entry shadowed] at place

-- A group that calls the method's selector holds a method of the same key, so it is the method's own
-- group, and resolves the number of arguments to another method.
theorem uncalled_by_group (entry : Entry) (wellFormed : entry.method.wellFormed = true)
    (missing : decl.Omitted entry ∨ decl.Shadowed entry) (group : OverloadGroup)
    (planned : group ∈ (MemberPlan.ofClass decl).groups) :
    ¬ (group.member decl.name).Calls (entry.method.receiver decl.name) entry.method.selector := by
  intro calls
  have settled := MemberPlan.settled_ofClass decl
  obtain ⟨sound, places⟩ := settled.groups group planned
  obtain ⟨called, inside, receiver, selector⟩ := group.entry_of_calls decl.name sound _ _ calls
  have side := Method.isStatic_of_receiver called.method entry.method decl.name receiver
  have place := places called inside
  rw [MemberPlan.destination_of_selector decl _ _ (sound.wellFormed called inside) wellFormed side
    selector] at place
  rcases missing with omitted | ⟨home, homePlanned, here, other⟩
  · rcases decl.destination_of_omitted entry wellFormed omitted with other | other <;>
      simp [place] at other
  · have base : called.method.baseName = entry.method.baseName := by
      simp only [Method.baseName, selector]
    have sameKey : group.key = home.key := by
      rw [← sound.key called inside, ← (settled.groups home homePlanned).1.key entry here,
        Method.key, Method.key, side, base]
    have same := MemberPlan.group_of_key decl group home planned homePlanned sameKey
    subst same
    exact other ((group.calls_member_iff decl.name sound entry here).mp calls)

theorem not_reached (entry : Entry) (wellFormed : entry.method.wellFormed = true)
    (missing : decl.Omitted entry ∨ decl.Shadowed entry)
    (own : ¬ decl.RepeatsAccessor entry.method) : ¬ decl.Reaches entry.method := by
  rintro ⟨member, generated, calls⟩
  rcases decl.cases_of_calls member generated _ _ calls with
    ⟨property, known, accessor⟩ | ⟨setter, planned, rfl⟩ | ⟨group, planned, rfl⟩
  · have receiver := property.receiver_of_calls decl.name member accessor _ _ calls
    have side := Method.isStatic_of_side entry.method decl.name property.isClass receiver
    rw [receiver, ← side] at calls
    exact own ⟨property, known, side.symm, member, accessor, calls⟩
  · exact decl.uncalled_by_setter entry wellFormed missing setter planned calls
  · exact decl.uncalled_by_group entry wellFormed missing group planned calls

/-- A well-formed method is lost without a word exactly if no accessor of a property on its side
calls its selector and it is either left out as such an accessor or stands in its group behind
another method of as many parameters. -/
theorem lost_silently_iff (bridge : Text) (classes : ClassSet) (entry : Entry)
    (declared : entry ∈ MemberPlan.entries decl) (wellFormed : entry.method.wellFormed = true) :
    ¬ (decl.Reaches entry.method ∨ decl.Reports bridge classes entry ∨
        decl.RepeatsAccessor entry.method) ↔
      ¬ decl.RepeatsAccessor entry.method ∧ (decl.Omitted entry ∨ decl.Shadowed entry) := by
  constructor
  · intro lost
    refine ⟨fun repeated => lost (Or.inr (Or.inr repeated)), ?_⟩
    by_contra none
    rcases decl.reached_or_reported bridge classes entry declared wellFormed
      (fun omitted => none (Or.inl omitted)) (fun shadowed => none (Or.inr shadowed))
      with reached | reported
    · exact lost (Or.inl reached)
    · exact lost (Or.inr (Or.inl reported))
  · rintro ⟨own, missing⟩ (reached | reported | repeated)
    · exact decl.not_reached entry wellFormed missing own reached
    · exact decl.not_reported bridge classes entry wellFormed missing reported
    · exact own repeated

/-- Two methods of one base name with a parameter for each of two labels. -/
def twoMoves : ClassDecl :=
  let params : List Parameter := [⟨"x".toList, "CGFloat".toList, false, []⟩,
    ⟨"y".toList, "CGFloat".toList, false, []⟩]
  { name := "Panel".toList
    methods :=
      [{ selector := "move:to:".toList, params := params, returnType := "void".toList,
         isStatic := false },
       { selector := "move:by:".toList, params := params, returnType := "void".toList,
         isStatic := false }] }

/-- The second of two moves. -/
def secondMove : Entry := ⟨1, twoMoves.methods[1]⟩

theorem secondMove_shadowed : twoMoves.Shadowed secondMove :=
  ⟨⟨false, "move".toList, false, MemberPlan.entries twoMoves⟩, by decide, by decide, by decide⟩

theorem secondMove_unrepeated : ¬ twoMoves.RepeatsAccessor secondMove.method := by
  rintro ⟨property, member, _⟩
  cases member

theorem lost_silently_second_move :
    secondMove ∈ MemberPlan.entries twoMoves ∧ secondMove.method.wellFormed = true ∧
      (¬ (twoMoves.Reaches secondMove.method ∨
          twoMoves.Reports ScriptModule.defaultBridge ClassSet.empty secondMove ∨
          twoMoves.RepeatsAccessor secondMove.method) ↔
        ¬ twoMoves.RepeatsAccessor secondMove.method ∧
          (twoMoves.Omitted secondMove ∨ twoMoves.Shadowed secondMove)) :=
  ⟨by decide, by decide, twoMoves.lost_silently_iff ScriptModule.defaultBridge ClassSet.empty
    secondMove (by decide) (by decide)⟩

/-- Not every well-formed method is reached, reported or an accessor declared again: of two
overloads with one number of arguments the second is none of these. -/
theorem second_move_lost :
    ¬ ∀ (decl : ClassDecl) (entry : Entry), entry ∈ MemberPlan.entries decl →
      entry.method.wellFormed = true →
        decl.Reaches entry.method ∨
          decl.Reports ScriptModule.defaultBridge ClassSet.empty entry ∨
          decl.RepeatsAccessor entry.method := by
  intro kept
  rcases kept twoMoves secondMove (by decide) (by decide) with reached | reported | repeated
  · exact twoMoves.not_reached secondMove (by decide) (Or.inr secondMove_shadowed)
      secondMove_unrepeated reached
  · exact twoMoves.not_reported _ _ secondMove (by decide) (Or.inr secondMove_shadowed) reported
  · exact secondMove_unrepeated repeated

end ClassDecl

end HeaderBindings
