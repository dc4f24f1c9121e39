import HeaderBindings.Proofs.Script.Legality
import HeaderBindings.Proofs.Script.Uniqueness

/-!
Hygiene of generated bodies. A body passes its parameters on, and refers to other names besides: to
the bridge's functions, to the class, to what a dispatch declares. Headers choose the names of
parameters and members, so that a parameter may stand for such a name, and a member for the handle
that bodies read. The main statement says of which declarations nothing of that kind is generated.
-/

namespace HeaderBindings

open Reading

section References

def Receiver.references : Receiver → List Text
  | .fresh _ => ["allocate".toList]
  | .handle | .classNamed _ => []

def Call.references (call : Call) : List Text := "invoke".toList :: call.receiver.references

/-- The names that a statement refers to besides the arguments that it passes on. -/
def Statement.references : Statement → List Text
  | .perform call | .giveBack call _ => call.references
  | .construct className call => className :: call.references

namespace ScriptMember

/-- The names of the parameters of a member's body. A mark is filled with a body later on. -/
def parameters : ScriptMember → List Text
  | getter .. => []
  | setter .. => ["value".toList]
  | function _ signature _ => signature.params.map (·.name)
  | overloaded dispatch => dispatch.params.map (·.name) ++ ["rest".toList]
  | incomplete .. => ["args".toList]

/-- The names that a member's body refers to as something else than a parameter. -/
def references : ScriptMember → List Text
  | getter _ _ _ _ call | setter _ _ _ _ call => call.references
  | function _ _ body => body.references
  | overloaded dispatch =>
    ["args".toList, "arguments".toList, "Error".toList]
      ++ dispatch.overloads.flatMap (·.body.references)
  | incomplete .. => ["Error".toList]

/-- No parameter is named like another one or like what the body refers to as something else. -/
def Hygienic (member : ScriptMember) : Prop :=
  member.parameters.Nodup ∧ ∀ name ∈ member.parameters, name ∉ member.references

instance (member : ScriptMember) : Decidable member.Hygienic := inferInstanceAs (Decidable (_ ∧ _))

theorem hygienic_getter (doc : DocBlock) (isStatic : Bool) (name : Text) (type : ScriptType)
    (call : Call) : (getter doc isStatic name type call).Hygienic :=
  ⟨List.nodup_nil, fun _ member => nomatch member⟩

theorem hygienic_setter (doc : DocBlock) (isStatic : Bool) (name : Text) (type : ScriptType)
    (call : Call) (none : call.receiver.references = []) :
    (setter doc isStatic name type call).Hygienic := by
  refine ⟨List.nodup_singleton _, fun param member => ?_⟩
  rw [List.mem_singleton.mp member, references, Call.references, none]
  decide

end ScriptMember

theorem Receiver.references_ofSide (className : Text) (isStatic : Bool) :
    (Receiver.ofSide className isStatic).references = [] := by
  cases isStatic <;> rfl

/-- The key of a member that would stand for the handle that the bodies of instances read. -/
def handleKey : MemberKey := ⟨false, "handle".toList⟩

/-- The bodies of a class mean what they are written for: no parameter stands for a name that a body
refers to as something else, and no member for the handle. -/
def ClassDecl.Hygienic (decl : ClassDecl) : Prop :=
  ∀ member ∈ decl.scriptMembers, member.Hygienic ∧ member.key ≠ handleKey

instance (decl : ClassDecl) : Decidable decl.Hygienic :=
  inferInstanceAs (Decidable (∀ member ∈ decl.scriptMembers, _))

end References

section Occurrences

namespace Reading

mutual

/-- The names that occur in an expression. -/
def Expression.names : Expression → List Text
  | .name text => [text]
  | .this | .text _ | .template _ | .number _ => []
  | .property object _ => object.names
  | .array items => items.names
  | .call callee items => callee.names ++ items.names
  | .construct className items => className :: items.names
  | .equal left right => left.names ++ right.names

def Items.names : Items → List Text
  | .nil => []
  | .item value later => value.names ++ later.names
  | .spread list later => list.names ++ later.names

end

mutual

def Instruction.names : Instruction → List Text
  | .declare name value => name :: value.names
  | .perform value | .giveBack value | .throw value => value.names
  | .leave => []
  | .branch test body => test.names ++ namesOfAll body

def namesOfAll : List Instruction → List Text
  | [] => []
  | instruction :: later => instruction.names ++ namesOfAll later

end

theorem namesOfAll_eq (instructions : List Instruction) :
    namesOfAll instructions = instructions.flatMap Instruction.names := by
  induction instructions with
  | nil => rfl
  | cons instruction later ih => rw [namesOfAll, ih, List.flatMap_cons]

end Reading

def CallArguments.names : CallArguments → List Text
  | .named names => names
  | .all => ["args".toList]

theorem CallArguments.names_items (arguments : CallArguments) :
    arguments.items.names = arguments.names := by
  cases arguments with
  | all => rfl
  | named names =>
    induction names with
    | nil => rfl
    | cons name names ih => exact congrArg (name :: ·) ih

-- A statement, as it is read, names what it refers to and then what it passes on.
theorem Statement.names_instruction (statement : Statement) :
    statement.instruction.names = statement.references ++ statement.call.arguments.names := by
  have called (call : Call) :
      call.expression.names = call.references ++ call.arguments.names := by
    obtain ⟨receiver, selector, arguments⟩ := call
    have passed := arguments.names_items
    cases receiver <;>
      simp [Call.expression, Call.references, Receiver.references, Receiver.expression,
        Expression.names, Items.names, passed]
  cases statement with
  | perform call => exact called call
  | giveBack call type => exact called call
  | construct className call =>
    simp [Statement.instruction, Statement.references, Statement.call, Instruction.names,
      Expression.names, Items.names, called]

namespace Dispatch

theorem names_elements (names : List Text) : (elements names).names = names ++ ["rest".toList] := by
  induction names with
  | nil => rfl
  | cons name names ih => exact congrArg (name :: ·) ih

theorem mem_names_body (dispatch : Dispatch)
    (all : ∀ overload ∈ dispatch.overloads, overload.body.call.arguments = .all) (name : Text) :
    name ∈ namesOfAll dispatch.body ↔
      name ∈ (ScriptMember.overloaded dispatch).references ∨
        name ∈ (ScriptMember.overloaded dispatch).parameters := by
  have gathered : name ∈ dispatch.gatheringInstruction.names ↔
      name = "args".toList ∨ name ∈ (ScriptMember.overloaded dispatch).parameters ∨
        name = "arguments".toList := by
    simp [gatheringInstruction, Instruction.names, Expression.names, Items.names, names_elements,
      ScriptMember.parameters, or_assoc]
  have branch : ∀ overload ∈ dispatch.overloads,
      (name ∈ overload.branch.names ↔ name = "args".toList ∨ name ∈ overload.body.references) := by
    intro overload member
    have leaving : namesOfAll (if overload.body.leaves then [] else [.leave]) = [] := by
      split <;> rfl
    simp [Overload.branch, Instruction.names, Expression.names, namesOfAll, leaving,
      Statement.names_instruction, all overload member, CallArguments.names]
    tauto
  -- The branches name what is gathered, which has been named already.
  have branches : (name = "args".toList ∨
      ∃ overload ∈ dispatch.overloads, name ∈ overload.branch.names) ↔
      name = "args".toList ∨ ∃ overload ∈ dispatch.overloads, name ∈ overload.body.references := by
    constructor
    · rintro (own | ⟨overload, member, inside⟩)
      · exact Or.inl own
      · exact ((branch overload member).mp inside).imp_right fun referred =>
          ⟨overload, member, referred⟩
    · rintro (own | ⟨overload, member, referred⟩)
      · exact Or.inl own
      · exact Or.inr ⟨overload, member, (branch overload member).mpr (Or.inr referred)⟩
  have failing : name ∈ dispatch.failing.names ↔ name = "Error".toList := by
    simp [Dispatch.failing, Instruction.names, Expression.names, Items.names]
  rw [namesOfAll_eq]
  simp only [body, List.flatMap_cons, List.flatMap_append, List.flatMap_nil, List.append_nil,
    List.flatMap_map, List.mem_append, List.mem_flatMap, gathered, failing,
    ScriptMember.references, List.mem_cons, List.not_mem_nil, or_false]
  grind only

end Dispatch

end Occurrences

namespace OverloadGroup

variable (className : Text) (group : OverloadGroup)

theorem arguments_statement (method : Method) (arguments : CallArguments) :
    (group.statement className method arguments).call.arguments = arguments := by
  unfold statement
  split
  · rfl
  · dsimp only
    split <;> rfl

/-- The names of a group's parameters that are made from names of the header. -/
def parameters : List Text :=
  match group.methods with
  | [method] => method.paramNames
  | _ => group.unionNames

theorem parameters_function (method : Method) :
    (group.function className method).parameters = method.paramNames := by
  rw [← group.names_formals className method, Signature.formals, List.map_map]
  rfl

/-- A group's member, as it is read, names what it refers to and its parameters, and nothing else. -/
theorem mem_names_definition (name : Text) :
    name ∈ namesOfAll ((group.definition className).body.getD []) ↔
      name ∈ (group.member className).references ∨ name ∈ (group.member className).parameters := by
  rcases group.single_or_several className with
    ⟨method, _, _, definition, member⟩ | ⟨_, _, definition, member⟩
  · rw [definition, member, parameters_function]
    simp [Signature.definition, namesOfAll, Statement.names_instruction, arguments_statement,
      CallArguments.names, function, ScriptMember.references]
  · rw [definition, member]
    refine (group.dispatch className).mem_names_body ?_ name
    intro overload known
    obtain ⟨method, _, rfl⟩ := List.mem_map.mp known
    exact group.arguments_statement className method .all

end OverloadGroup

section Names

namespace Identifier

theorem numbered_ne {name : Text} (underscore : '_' ∉ name) (base : Text) (n : Nat) :
    numbered base n ≠ name := by
  rintro rfl
  simp [numbered] at underscore

theorem not_reserved_sanitize (name : Text) : sanitize name ∉ reserved := by
  unfold sanitize
  split
  · exact not_reserved_escaped name
  · next free => simpa using free

/-- A name that is given to a parameter, if at all, as a header has it: no reserved word, nothing
that escaping or numbering makes, and nothing that stands in for a missing name. -/
structure Plain (name : Text) : Prop where
  written : name ≠ []
  known : name ∉ reserved
  underscore : '_' ∉ name
  made : ∀ n, "arg".toList ++ Text.ofNat n ≠ name

variable {name : Text} (plain : Plain name)

include plain

theorem Plain.sanitize_eq_iff (other : Text) : sanitize other = name ↔ other = name := by
  unfold sanitize
  constructor
  · intro same
    split at same
    · exact absurd (same ▸ by simp) plain.underscore
    · exact same
  · rintro rfl
    simp [plain.known]

theorem Plain.wishedName_eq_iff (param : Parameter) (index : Nat) :
    param.wishedName index = name ↔ param.name = name := by
  unfold Parameter.wishedName
  split
  · next empty =>
    rw [List.isEmpty_iff.mp empty]
    exact iff_of_false (plain.made index) plain.written.symm
  · exact plain.sanitize_eq_iff param.name

theorem Plain.unused_eq_iff (inUse : List Text) (base : Text) :
    unused inUse base = name ↔ base = name ∧ name ∉ inUse := by
  obtain ⟨free, form⟩ := unused_cases inUse base
  constructor
  · intro same
    rcases form with wish | ⟨n, number⟩
    · exact ⟨wish.symm.trans same, same ▸ free⟩
    · exact absurd (number.symm.trans same) (numbered_ne plain.underscore base n)
  · rintro ⟨rfl, free⟩
    simp [unused, free]

-- The first wish for a plain name gets it, and no other wish does.
theorem Plain.getElem_distinct_iff (inUse bases : List Text) (position : Nat) :
    (distinct inUse bases)[position]? = some name ↔
      name ∉ inUse ∧ bases.findIdx? (· == name) = some position := by
  induction bases generalizing inUse position with
  | nil => simp [distinct]
  | cons base bases ih =>
    have first := plain.unused_eq_iff inUse base
    rw [List.findIdx?_cons]
    cases position with
    | zero =>
      rw [distinct, List.getElem?_cons_zero, Option.some_inj, first]
      by_cases same : base = name <;> simp [same]
    | succ position =>
      rw [distinct, List.getElem?_cons_succ, ih]
      by_cases same : base = name
      · -- The wish takes the name, or it is in use already: no later one gets it.
        have taken : name ∈ inUse ++ [unused inUse base] := by
          by_cases known : name ∈ inUse
          · exact List.mem_append_left _ known
          · exact List.mem_append_right _ (List.mem_singleton.mpr (first.mpr ⟨same, known⟩).symm)
        rw [if_pos (beq_iff_eq.mpr same)]
        exact iff_of_false (fun got => got.1 taken) (by simp)
      · have other : unused inUse base ≠ name := fun taken => same (first.mp taken).1
        simp [same, other.symm]

theorem Plain.mem_distinct_iff (inUse bases : List Text) :
    name ∈ distinct inUse bases ↔ name ∉ inUse ∧ name ∈ bases := by
  have here : (∃ position, bases.findIdx? (· == name) = some position) ↔ name ∈ bases := by
    rw [← Option.isSome_iff_exists, List.findIdx?_isSome]
    simp
  simp only [List.mem_iff_getElem? (l := distinct inUse bases), plain.getElem_distinct_iff,
    exists_and_left, here]

end Identifier

section Groups

namespace OverloadGroup

/-- A group takes a name of the header for a parameter: the first method with a parameter at some
position has the name there, and not before. -/
def Takes (group : OverloadGroup) (name : Text) : Prop :=
  ∃ position method, group.methods.find? (position < ·.arity) = some method ∧
    method.params.findIdx? (·.name == name) = some position

theorem arity_le_width (group : OverloadGroup) (method : Method) (own : method ∈ group.methods) :
    method.arity ≤ group.width := by
  have reached : ∀ (arities : List Nat) (bound : Nat), bound ≤ arities.foldl Nat.max bound ∧
      ∀ arity ∈ arities, arity ≤ arities.foldl Nat.max bound := by
    intro arities
    induction arities with
    | nil => simp
    | cons arity arities ih =>
      intro bound
      obtain ⟨above, each⟩ := ih (Nat.max bound arity)
      refine ⟨(Nat.le_max_left bound arity).trans above, ?_⟩
      rintro other (_ | ⟨_, later⟩)
      · exact (Nat.le_max_right bound arity).trans above
      · exact each other later
  exact (reached _ 0).2 _ (List.mem_map_of_mem own)

end OverloadGroup

variable {name : Text} (plain : Identifier.Plain name)

include plain

theorem Method.getElem_paramNames_iff (method : Method) (position : Nat) :
    method.paramNames[position]? = some name ↔
      method.params.findIdx? (·.name == name) = some position := by
  have wished : ∀ (params : List Parameter) (start : Nat),
      ((params.zipIdx start).map fun param => param.1.wishedName param.2).findIdx? (· == name) =
        params.findIdx? (·.name == name) := by
    intro params
    induction params with
    | nil => exact fun start => rfl
    | cons param params ih =>
      intro start
      have head : (param.wishedName start == name) = (param.name == name) :=
        Bool.eq_iff_iff.mpr (by simpa using plain.wishedName_eq_iff param start)
      simp only [List.zipIdx_cons, List.map_cons, List.findIdx?_cons, ih, head]
  rw [paramNames, plain.getElem_distinct_iff, wished]
  simp

namespace OverloadGroup

variable (group : OverloadGroup)

theorem nameAt_eq_iff (position : Nat) :
    group.nameAt position = name ↔
      ∃ method, group.methods.find? (position < ·.arity) = some method ∧
        method.params.findIdx? (·.name == name) = some position := by
  have missing (method : Method) : method.paramNames[position]? = none ↔
      (!decide (position < method.arity)) = true := by
    simp [method.length_paramNames]
  have found : group.nameAt position = name ↔
      group.methods.findSome? (·.paramNames[position]?) = some name := by
    unfold nameAt
    cases group.methods.findSome? (·.paramNames[position]?) with
    | none => simpa using plain.made position
    | some first => simp
  rw [found, List.findSome?_eq_some_iff]
  constructor
  · rintro ⟨earlier, method, later, methods, here, none⟩
    have given := (Method.getElem_paramNames_iff plain method position).mp here
    refine ⟨method, List.find?_eq_some_iff_append.mpr ⟨?_, earlier, later, methods, ?_⟩, given⟩
    · obtain ⟨inside, _⟩ := List.getElem?_eq_some_iff.mp here
      simpa [method.length_paramNames] using inside
    · exact fun other member => (missing other).mp (none other member)
  · rintro ⟨method, first, given⟩
    obtain ⟨_, earlier, later, methods, none⟩ := List.find?_eq_some_iff_append.mp first
    exact ⟨earlier, method, later, methods,
      (Method.getElem_paramNames_iff plain method position).mpr given,
      fun other member => (missing other).mpr (none other member)⟩

theorem mem_parameters_iff (free : name ∉ ["args".toList, "rest".toList]) :
    name ∈ group.parameters ↔ group.Takes name := by
  unfold parameters
  split
  · next method alone =>
    rw [List.mem_iff_getElem?]
    refine exists_congr fun position => ?_
    rw [Method.getElem_paramNames_iff plain, alone]
    constructor
    · intro given
      obtain ⟨inside, _⟩ := List.findIdx?_eq_some_iff_getElem.mp given
      exact ⟨method, by simp [Method.arity, inside], given⟩
    · rintro ⟨first, found, given⟩
      rwa [← List.mem_singleton.mp (List.mem_of_find?_eq_some found)]
  · rw [unionNames_eq, plain.mem_distinct_iff]
    simp only [free, not_false_eq_true, true_and, List.mem_map, List.mem_range]
    refine exists_congr fun position => ?_
    rw [group.nameAt_eq_iff plain]
    refine and_iff_right_of_imp ?_
    rintro ⟨method, found, _⟩
    have inside : position < method.arity := by simpa using List.find?_some found
    exact inside.trans_le (group.arity_le_width method (List.mem_of_find?_eq_some found))

end OverloadGroup

end Groups

end Names

namespace OverloadGroup

variable (className : Text) (group : OverloadGroup)

/-- What every statement of a group refers to: a function of the bridge and, where an instance is
made, the other one and the class. -/
def outer : List Text :=
  if group.isConstructor then [className, "invoke".toList, "allocate".toList]
  else ["invoke".toList]

theorem references_statement (method : Method) (arguments : CallArguments) :
    (group.statement className method arguments).references = group.outer className := by
  unfold statement outer
  split
  · rfl
  · dsimp only
    cases method.isStatic <;> split <;> rfl

/-- No name of a header gets a parameter the name under which a body finds all its arguments. -/
theorem arguments_not_mem_parameters : "arguments".toList ∉ group.parameters := by
  have single (method : Method) : "arguments".toList ∉ method.paramNames := by
    intro member
    obtain ⟨wish, known, form⟩ := Identifier.mem_distinct _ _ _ member
    obtain ⟨⟨param, index⟩, _, rfl⟩ := List.mem_map.mp known
    rcases form with same | ⟨n, same⟩
    · unfold Parameter.wishedName at same
      split at same
      · have number : "uments".toList = Text.ofNat index := List.append_cancel_left
          (show "arg".toList ++ "uments".toList = "arg".toList ++ Text.ofNat index from same)
        have digit := Text.digits_ofNat index 'u' (number ▸ by decide)
        exact absurd digit (by decide)
      · exact Identifier.not_reserved_sanitize param.name (same ▸ by decide)
    · exact absurd same.symm (Identifier.numbered_ne (by decide) _ n)
  unfold parameters
  split
  · exact single _
  · intro member
    obtain ⟨method, _, base, known, same | ⟨n, same⟩⟩ := group.mem_unionNames _ member
    · exact single method (same ▸ known)
    · exact absurd same.symm (Identifier.numbered_ne (by decide) base n)

/-- No parameter of a group's member stands for a name that its body refers to. The names are those
of the header, but for the class: a class may be named like a numbered or escaped parameter, or like
the parameter that takes what is left over. -/
structure Unhidden : Prop where
  invoke : ¬ group.Takes "invoke".toList
  error : group.isOverloaded = true → ¬ group.Takes "Error".toList
  allocate : group.isConstructor = true → ¬ group.Takes "allocate".toList
  constructor : group.isConstructor = true → className ∉ group.parameters
  rest : group.isConstructor = true → group.isOverloaded = true → className ≠ "rest".toList

theorem plain_names : ∀ name ∈ ["invoke".toList, "allocate".toList, "Error".toList],
    Identifier.Plain name := by
  simp only [List.forall_mem_cons, List.not_mem_nil, false_imp_iff, implies_true, and_true]
  exact ⟨⟨by decide, by decide, by decide, by simp⟩, ⟨by decide, by decide, by decide, by simp⟩,
    ⟨by decide, by decide, by decide, by simp⟩⟩

theorem takes_iff (name : Text)
    (known : name ∈ ["invoke".toList, "allocate".toList, "Error".toList]) :
    group.Takes name ↔ name ∈ group.parameters :=
  (group.mem_parameters_iff (plain_names name known) (by revert name; decide)).symm

theorem free_outer_iff :
    (∀ name ∈ group.parameters, name ∉ group.outer className) ↔
      ¬ group.Takes "invoke".toList ∧ (group.isConstructor = true →
        ¬ group.Takes "allocate".toList ∧ className ∉ group.parameters) := by
  rw [group.takes_iff _ (by decide), group.takes_iff _ (by decide)]
  have swapped : (∀ name ∈ group.parameters, name ∉ group.outer className) ↔
      ∀ name ∈ group.outer className, name ∉ group.parameters :=
    ⟨fun free name outer member => free name member outer,
      fun free name member outer => free name outer member⟩
  rw [swapped]
  unfold outer
  cases group.isConstructor with
  | true => simp; tauto
  | false => simp

theorem hygienic_function_iff (method : Method) (alone : group.methods = [method]) :
    (group.function className method).Hygienic ↔
      ∀ name ∈ group.parameters, name ∉ group.outer className := by
  have names : group.parameters = method.paramNames := by simp [parameters, alone]
  rw [ScriptMember.Hygienic, parameters_function, names]
  simp only [method.nodup_paramNames, true_and, function, ScriptMember.references,
    references_statement]

section Several

variable (several : ∀ method, group.methods ≠ [method])

include several

theorem parameters_of_several : group.parameters = group.unionNames := by
  unfold parameters
  split
  · next method alone => exact absurd alone (several method)
  · rfl

-- Of the names that a dispatch has of its own, a parameter can only have that of the error.
theorem eq_error_of_parameter (name : Text) (given : name ∈ group.parameters)
    (own : name ∈ ["args".toList, "arguments".toList, "Error".toList]) : name = "Error".toList := by
  obtain ⟨_, args, _⟩ := group.nodup_unionNames
  rw [← group.parameters_of_several several] at args
  rcases List.mem_cons.mp own with rfl | later
  · exact absurd given args
  · rcases List.mem_cons.mp later with rfl | last
    · exact absurd given group.arguments_not_mem_parameters
    · exact List.mem_singleton.mp last

theorem parameters_overloaded :
    (ScriptMember.overloaded (group.dispatch className)).parameters =
      group.parameters ++ ["rest".toList] := by
  rw [group.parameters_of_several several]
  rfl

omit several in
theorem mem_references_overloaded (inhabited : group.methods ≠ []) (name : Text) :
    name ∈ (ScriptMember.overloaded (group.dispatch className)).references ↔
      name ∈ ["args".toList, "arguments".toList, "Error".toList] ∨ name ∈ group.outer className := by
  obtain ⟨first, member⟩ := List.exists_mem_of_ne_nil _ inhabited
  simp only [ScriptMember.references, List.mem_append, List.mem_flatMap, dispatch, List.mem_map]
  refine or_congr_right ⟨?_, fun outer => ⟨_, ⟨first, member, rfl⟩, ?_⟩⟩
  · rintro ⟨_, ⟨method, _, rfl⟩, outer⟩
    exact group.references_statement className method .all ▸ outer
  · exact (group.references_statement className first .all).symm ▸ outer

theorem hygienic_overloaded_iff (inhabited : group.methods ≠ []) :
    (ScriptMember.overloaded (group.dispatch className)).Hygienic ↔
      (∀ name ∈ group.parameters, name ∉ group.outer className) ∧
        "Error".toList ∉ group.parameters ∧ "rest".toList ∉ group.outer className := by
  obtain ⟨apart, _, rest⟩ := group.nodup_unionNames
  rw [← group.parameters_of_several several] at apart rest
  rw [ScriptMember.Hygienic, group.parameters_overloaded className several]
  simp only [group.mem_references_overloaded className inhabited, not_or]
  constructor
  · rintro ⟨-, clear⟩
    have last := clear _ (List.mem_append_right _ (List.mem_singleton_self _))
    refine ⟨fun name member => (clear name (List.mem_append_left _ member)).2, fun error => ?_,
      last.2⟩
    exact (clear _ (List.mem_append_left _ error)).1 (by simp)
  · rintro ⟨clear, error, last⟩
    refine ⟨List.nodup_append.mpr ⟨apart, List.nodup_singleton _, ?_⟩, ?_⟩
    · rintro name member other isRest same
      rw [List.mem_singleton.mp isRest] at same
      exact rest (same ▸ member)
    · intro name member
      rcases List.mem_append.mp member with inside | isRest
      · have plain := group.eq_error_of_parameter several name inside
        exact ⟨fun own => error (plain own ▸ inside), clear name inside⟩
      · rw [List.mem_singleton.mp isRest]
        exact ⟨by decide, last⟩

end Several

theorem isOverloaded_iff (inhabited : group.entries ≠ []) :
    group.isOverloaded = true ↔ ∀ method, group.methods ≠ [method] := by
  have count : group.methods.length = group.entries.length := List.length_map _
  have some : 0 < group.entries.length := List.length_pos_iff.mpr inhabited
  rw [isOverloaded, decide_eq_true_iff, ← count]
  constructor
  · intro more method alone
    rw [alone, List.length_singleton] at more
    exact absurd more (by decide)
  · intro several
    by_contra few
    obtain ⟨method, alone⟩ := List.length_eq_one_iff.mp (show group.methods.length = 1 by omega)
    exact several method alone

theorem rest_outer_iff :
    "rest".toList ∉ group.outer className ↔
      (group.isConstructor = true → className ≠ "rest".toList) := by
  have other : "rest".toList ∉ ["invoke".toList, "allocate".toList] := by decide
  unfold outer
  cases group.isConstructor with
  | true =>
    rw [if_pos rfl, List.mem_cons, or_iff_left other]
    exact ⟨fun free _ same => free same.symm, fun free same => free rfl same.symm⟩
  | false => simp

/-- A group's member is hygienic exactly if no parameter stands for a name of its body. -/
theorem hygienic_member_iff (inhabited : group.entries ≠ []) :
    (group.member className).Hygienic ↔ group.Unhidden className := by
  have count := group.isOverloaded_iff inhabited
  rcases group.single_or_several className with
    ⟨method, alone, _, _, member⟩ | ⟨several, _, _, member⟩
  · have single : ¬ group.isOverloaded = true := fun more => count.mp more method alone
    rw [member, group.hygienic_function_iff className method alone, free_outer_iff]
    constructor
    · rintro ⟨invoke, made⟩
      exact ⟨invoke, fun more => absurd more single, fun kind => (made kind).1,
        fun kind => (made kind).2, fun _ more => absurd more single⟩
    · exact fun clear => ⟨clear.invoke, fun kind => ⟨clear.allocate kind, clear.constructor kind⟩⟩
  · have overloaded := count.mpr several
    have methods : group.methods ≠ [] := by simpa [methods] using inhabited
    rw [member, group.hygienic_overloaded_iff className several methods, free_outer_iff,
      rest_outer_iff, ← group.takes_iff "Error".toList (by decide)]
    constructor
    · rintro ⟨⟨invoke, made⟩, error, last⟩
      exact ⟨invoke, fun _ => error, fun kind => (made kind).1, fun kind => (made kind).2,
        fun kind _ => last kind⟩
    · exact fun clear => ⟨⟨clear.invoke,
        fun kind => ⟨clear.allocate kind, clear.constructor kind⟩⟩, clear.error overloaded,
        fun kind => clear.rest kind overloaded⟩

end OverloadGroup

namespace ClassDecl

variable (decl : ClassDecl)

theorem escaped_eq_handleKey_iff (slot : MemberKey) : slot.escaped = handleKey ↔ slot = handleKey := by
  have plain : Identifier.Plain "handle".toList := ⟨by decide, by decide, by decide, by simp⟩
  obtain ⟨side, name⟩ := slot
  simp only [MemberKey.escaped, handleKey, MemberKey.mk.injEq, plain.sanitize_eq_iff]

/-- What keeps the bodies of a class hygienic, said of its declaration: no parameter of a group
stands for a name of its body, and neither a property nor a method is found under the name of the
handle. -/
structure Unhidden : Prop where
  bodies : ∀ group ∈ (MemberPlan.ofClass decl).groups, group.Unhidden decl.name
  properties : ∀ property ∈ decl.properties, property.slot ≠ handleKey
  methods : ∀ method ∈ decl.methods, MemberPlan.slot? decl method ≠ some handleKey

theorem hygienic_accessor (property : Property) (member : ScriptMember)
    (own : member ∈ property.members decl.name) : member.Hygienic := by
  have target := Receiver.references_ofSide decl.name property.isClass
  unfold Property.members at own
  split at own
  · cases own
  · dsimp only at own
    split at own
    · rw [List.mem_singleton.mp own]
      exact ScriptMember.hygienic_getter _ _ _ _ _
    · rcases List.mem_cons.mp own with rfl | second
      · exact ScriptMember.hygienic_getter _ _ _ _ _
      · rw [List.mem_singleton.mp second]
        exact ScriptMember.hygienic_setter _ _ _ _ _ target

-- Only the members of groups depend on names of the header.
theorem hygienic_members_iff :
    (∀ member ∈ decl.scriptMembers, member.Hygienic) ↔
      ∀ group ∈ (MemberPlan.ofClass decl).groups, group.Unhidden decl.name := by
  have body (group : OverloadGroup) (planned : group ∈ (MemberPlan.ofClass decl).groups) :=
    group.hygienic_member_iff decl.name
      ((MemberPlan.settled_ofClass decl).groups group planned).1.inhabited
  constructor
  · intro hygienic group planned
    refine (body group planned).mp (hygienic _ ?_)
    simp only [scriptMembers, MemberPlan.members, List.mem_append, List.mem_map]
    exact Or.inr (Or.inl (Or.inr ⟨group, planned, rfl⟩))
  · intro clear member generated
    simp only [scriptMembers, MemberPlan.members, List.mem_append, List.mem_map,
      List.mem_flatMap] at generated
    rcases generated with
      ⟨property, _, own⟩ | (⟨setter, _, rfl⟩ | ⟨group, planned, rfl⟩) | ⟨mark, _, rfl⟩
    · exact decl.hygienic_accessor property member own
    · exact ScriptMember.hygienic_setter _ _ _ _ _ rfl
    · exact (body group planned).mpr (clear group planned)
    · exact ⟨List.nodup_singleton _, by simp [ScriptMember.parameters, ScriptMember.references]⟩

theorem no_handle_iff :
    (∀ member ∈ decl.scriptMembers, member.key ≠ handleKey) ↔
      (∀ property ∈ decl.properties, property.slot ≠ handleKey) ∧
        ∀ method ∈ decl.methods, MemberPlan.slot? decl method ≠ some handleKey := by
  have accessors (property : Property) : (∃ member ∈ property.members decl.name,
      member.key = handleKey) ↔ property.slot = handleKey := by
    rw [property.exists_member_iff, escaped_eq_handleKey_iff]
    refine and_iff_right_of_imp fun same => ?_
    rw [show property.name = "handle".toList from congrArg MemberKey.name same]
    decide
  have generated : (∃ member ∈ (MemberPlan.ofClass decl).members decl.name,
      member.key = handleKey) ↔
        ∃ method ∈ decl.methods, MemberPlan.slot? decl method = some handleKey := by
    simp only [decl.exists_generated_iff, escaped_eq_handleKey_iff, exists_eq_right]
  constructor
  · intro free
    refine ⟨fun property declared same => ?_, fun method member found => ?_⟩
    · obtain ⟨accessor, own, key⟩ := (accessors property).mpr same
      refine free accessor (List.mem_append_left _ ?_) key
      exact List.mem_flatMap.mpr ⟨property, declared, own⟩
    · obtain ⟨other, own, key⟩ := generated.mpr ⟨method, member, found⟩
      exact free other (List.mem_append_right _ own) key
  · rintro ⟨properties, methods⟩ member known key
    rcases List.mem_append.mp known with accessor | other
    · obtain ⟨property, declared, own⟩ := List.mem_flatMap.mp accessor
      exact properties property declared ((accessors property).mp ⟨member, own, key⟩)
    · obtain ⟨method, declared, found⟩ := generated.mp ⟨member, other, key⟩
      exact methods method declared found

/-- The bodies of a generated class are hygienic exactly if its declaration hides nothing. -/
theorem hygienic_iff_unhidden : decl.Hygienic ↔ decl.Unhidden := by
  rw [Hygienic, forall₂_and, hygienic_members_iff, no_handle_iff]
  exact ⟨fun ⟨bodies, properties, methods⟩ => ⟨bodies, properties, methods⟩,
    fun clear => ⟨clear.bodies, clear.properties, clear.methods⟩⟩

/-- A method with a parameter that has the name of the bridge's function. -/
def runningPanel : SourceUnit where
  path := "Panel.h".toList
  content :=
    ["@interface Panel : NSObject".toList,
     "- (void)run:(int)invoke;".toList,
     "@end".toList].flatMap (· ++ ['\n'])

/-- Bodies of a class that has been read are not all hygienic: the parameter stands for the function
that the body means to call. -/
theorem invoke_param_captures :
    ¬ ∀ (units : List SourceUnit), ∀ decl ∈ (Run.extractUnits .empty units).1.classes,
      decl.Hygienic := by
  intro hygienic
  have captured : ∃ decl ∈ (Run.extractUnits .empty [runningPanel]).1.classes, ¬ decl.Hygienic := by
    decide +kernel
  obtain ⟨decl, member, caught⟩ := captured
  exact caught (hygienic [runningPanel] decl member)

end ClassDecl

end HeaderBindings
