import HeaderBindings.Proofs.Reading.Running
import HeaderBindings.Proofs.Script.Legality

/-!
Running the member of a group. It does what the group's resolution says: the method that takes the
number of arguments is invoked on what it is sent to, with just these arguments, and nothing else
happens; without such a method every test fails and the member throws. Names decide whether the text
means that: the bridge's functions, the class and the error must not stand behind other names.
-/

namespace HeaderBindings

open Reading

namespace OverloadGroup

variable (className : Text) (group : OverloadGroup)

section Statements

/-- What a method is sent to, once an instance is allocated where the group makes one. -/
def targeted (bridge : Bridge) (handle : Value) (method : Method) (history : List Effect) :
    Value × List Effect :=
  if group.isConstructor then
    (bridge.answer (history ++ [.allocated className]), history ++ [.allocated className])
  else if method.isStatic then (.text className, history)
  else (handle, history)

/-- One invocation of a method, after what has happened before, and what comes back. -/
def performed (bridge : Bridge) (handle : Value) (method : Method) (history : List Effect)
    (arguments : List Value) : Value × List Effect :=
  let target := group.targeted className bridge handle method history
  let later := target.2 ++ [.invoked target.1 method.selector arguments]
  (if group.isConstructor then .instanceOf className (bridge.answer later)
    else if method.scriptReturn.isVoid then .undefined
    else bridge.answer later, later)

/-- A scope in which the names that a member relies on mean what the module imports. -/
structure Hears (scope : Scope) : Prop where
  invoke : scope.find? "invoke".toList = some .invoker
  allocate : group.isConstructor = true → scope.find? "allocate".toList = some .allocator
  constructor : group.isConstructor = true → scope.find? className = some (.classNamed className)

variable (bridge : Bridge) (scope : Scope) (handle : Value)

/-- What the name of a method's target is read as. -/
def receiver (method : Method) : Receiver :=
  if group.isConstructor then .fresh className else .ofSide className method.isStatic

theorem statement_eq (method : Method) (arguments : CallArguments) :
    let call : Call := ⟨group.receiver className method, method.selector, arguments⟩
    group.statement className method arguments =
      if group.isConstructor then .construct className call
      else if method.scriptReturn.isVoid then .perform call
      else .giveBack call method.scriptReturn := by
  unfold statement receiver
  cases group.isConstructor <;> rfl

theorem yields_receiver (hears : group.Hears className scope) (method : Method)
    (own : group.isConstructor = false → method.isStatic = false →
      scope.this = .instanceOf className handle) (history : List Effect) :
    Yields (evaluate bridge scope (group.receiver className method).expression) history
      (group.targeted className bridge handle method history).1
      (group.targeted className bridge handle method history).2 := by
  unfold receiver targeted
  cases kind : group.isConstructor with
  | true =>
    have inner : Yields (evaluateItems bridge scope (.item (.text className) .nil)) history
        [.text className] history := rfl
    exact yields_apply (hears.allocate kind) inner (yields_ask bridge (.allocated className) history)
  | false =>
    cases side : method.isStatic with
    | true => exact rfl
    | false =>
      have this : Yields (evaluate bridge scope .this) history (.instanceOf className handle)
          history := by
        rw [evaluate, own kind side]
        rfl
      exact this.bind rfl

-- A call invokes its selector on its target with the values that its arguments pass on.
theorem yields_call (hears : group.Hears className scope) (method : Method)
    (own : group.isConstructor = false → method.isStatic = false →
      scope.this = .instanceOf className handle)
    (arguments : CallArguments) (values : List Value)
    (passed : ∀ history, Yields (evaluateItems bridge scope arguments.items) history values history)
    (history : List Effect) :
    let target := group.targeted className bridge handle method history
    let later := target.2 ++ [.invoked target.1 method.selector values]
    Yields
      (evaluate bridge scope
        (Call.expression ⟨group.receiver className method, method.selector, arguments⟩))
      history (bridge.answer later) later := by
  intro target later
  have first := group.yields_receiver className bridge scope handle hears method own history
  have selector : Yields (evaluate bridge scope (.text method.selector)) target.2
      (.text method.selector) target.2 := rfl
  have items := yields_item first (yields_item selector (passed target.2))
  exact yields_apply hears.invoke items (yields_ask bridge _ target.2)

-- A statement performs its method and leaves the member, unless nothing comes back.
theorem yields_statement (hears : group.Hears className scope) (method : Method)
    (own : group.isConstructor = false → method.isStatic = false →
      scope.this = .instanceOf className handle)
    (arguments : CallArguments) (values : List Value)
    (passed : ∀ history, Yields (evaluateItems bridge scope arguments.items) history values history)
    (history : List Effect) :
    let done := group.performed className bridge handle method history values
    Yields (execute bridge scope (group.statement className method arguments).instruction) history
        (if (group.statement className method arguments).leaves then .left done.1 else .next scope)
        done.2 ∧
      ((group.statement className method arguments).leaves = false → done.1 = .undefined) := by
  intro done
  have called := group.yields_call className bridge scope handle hears method own arguments values
    passed history
  dsimp only at called
  simp only [done, performed, statement_eq]
  cases kind : group.isConstructor with
  | true =>
    refine ⟨?_, by simp [Statement.leaves]⟩
    exact (yields_construct (hears.constructor kind) (yields_single called) rfl).bind rfl
  | false =>
    cases none : method.scriptReturn.isVoid with
    | true => exact ⟨called.bind rfl, by simp⟩
    | false => exact ⟨called.bind rfl, by simp [Statement.leaves]⟩

end Statements

section Names

/-- The names that a member's body binds. -/
def bound : List Text :=
  match group.methods with
  | [method] => method.paramNames
  | _ => "args".toList :: (group.unionNames ++ ["rest".toList])

/-- No name that a member relies on is hidden by one that its body binds or by the class. -/
structure Clear : Prop where
  invoke : "invoke".toList ∉ group.bound ∧ className ≠ "invoke".toList
  allocate : group.isConstructor = true →
    "allocate".toList ∉ group.bound ∧ className ≠ "allocate".toList
  constructor : group.isConstructor = true → className ∉ group.bound ∧ className ∉ keywords
  error : (∀ method, group.methods ≠ [method]) → "Error".toList ∉ group.bound

/-- The scope of a member's body. -/
structure Inside (scope : Scope) : Prop where
  className : scope.className = className
  bound : ∀ name, name ∈ scope.locals.map Prod.fst ↔ name ∈ group.bound

theorem hears_of_clear (scope : Scope) (inside : group.Inside className scope)
    (clear : group.Clear className) : group.Hears className scope := by
  have outer : ∀ name, name ∉ keywords → name ∉ group.bound → scope.find? name =
      if name = scope.className then some (.classNamed name) else Scope.imported name :=
    fun name plain free =>
      find_outer scope name plain fun member => free ((inside.bound name).mp member)
  refine ⟨?_, fun kind => ?_, fun kind => ?_⟩
  · rw [outer _ (by decide) clear.invoke.1, inside.className, if_neg (Ne.symm clear.invoke.2)]
    rfl
  · obtain ⟨free, other⟩ := clear.allocate kind
    rw [outer _ (by decide) free, inside.className, if_neg (Ne.symm other)]
    rfl
  · obtain ⟨free, plain⟩ := clear.constructor kind
    rw [outer _ plain free, inside.className, if_pos rfl]

/-- What a member is called on: an instance with a handle or, for a static one, the class. -/
def caller (handle : Value) : Value :=
  if group.emitsStatic then .classNamed className else .instanceOf className handle

theorem caller_of_method (sound : group.Sound) (handle : Value) (method : Method)
    (own : method ∈ group.methods) (kind : group.isConstructor = false)
    (side : method.isStatic = false) :
    group.caller className handle = .instanceOf className handle := by
  obtain ⟨entry, member, rfl⟩ := List.mem_map.mp own
  have same := sound.key entry member
  simp only [Method.key, key, Prod.mk.injEq] at same
  simp [caller, emitsStatic, kind, ← same.1, side]

end Names

section Single

variable (named : group.Named) (sound : group.Sound) (method : Method)
  (alone : group.methods = [method]) (arguments : List Value) (this : Value)

/-- The scope of the body of a member with one method. -/
def singleScope (method : Method) : Scope :=
  { className := className
    this := this
    arguments := arguments
    locals := method.paramNames.zip (fitted method.arity arguments) }

theorem scopeOf_single (body : Option (List Instruction)) :
    ((group.signatureOf className method).definition body).scopeOf className this arguments =
      singleScope className arguments this method := by
  have plain : ∀ formal ∈ (group.signatureOf className method).formals, formal.rest = false := by
    intro formal member
    obtain ⟨param, _, rfl⟩ := List.mem_map.mp member
    rfl
  have count : (group.signatureOf className method).formals.length = method.arity := by
    rw [Signature.formals, List.length_map]
    exact method.length_scriptParams
  simp only [Definition.scopeOf, singleScope, Signature.definition,
    bindFormals_plain _ plain, names_formals, count]

include alone in
theorem inside_single :
    group.Inside className (singleScope className arguments this method) := by
  refine ⟨rfl, fun name => ?_⟩
  have same : method.paramNames.length = (fitted method.arity arguments).length := by
    rw [method.length_paramNames, length_fitted]
  simp [singleScope, bound, alone, List.map_fst_zip same.le]

include named alone in
theorem find_paramName (lawful : group.Lawful) (pair : Text × Value)
    (member : pair ∈ method.paramNames.zip (fitted method.arity arguments)) :
    (singleScope className arguments this method).find? pair.1 = some pair.2 := by
  have own : method ∈ group.methods := by simp [alone]
  have known := (List.of_mem_zip member).1
  have param := method.isParameter_paramNames (group.named_of_mem named method own) pair.1 known
  refine find_local _ pair.1 ?_ _ (lookup_zip _ _ method.nodup_paramNames pair member)
  intro keyword
  have await := param.keyword keyword
  exact lawful.params method own (await ▸ known)

include named sound alone in
/-- A member with one method performs it with its parameters. -/
theorem outcome_single (lawful : group.Lawful) (clear : group.Clear className) (bridge : Bridge)
    (handle : Value) :
    let done := group.performed className bridge handle method []
      (fitted method.arity arguments)
    (group.definition className).outcome bridge className (group.caller className handle) arguments =
      (.ok done.1, done.2) := by
  intro done
  have own : method ∈ group.methods := by simp [alone]
  let scope := singleScope className arguments (group.caller className handle) method
  have hears := group.hears_of_clear className scope
    (group.inside_single className method alone arguments _) clear
  have same : method.paramNames.length = (fitted method.arity arguments).length := by
    rw [method.length_paramNames, length_fitted]
  have found := group.find_paramName className named method alone arguments
    (group.caller className handle) lawful
  have passed := yields_names bridge scope method.paramNames _ same found .nil [] (fun _ => rfl)
  rw [List.append_nil] at passed
  obtain ⟨executed, nothing⟩ := group.yields_statement className bridge scope handle hears method
    (group.caller_of_method className sound handle method own) (.named method.paramNames) _ passed []
  have called : Yields ((group.definition className).call bridge className
      (group.caller className handle) arguments) [] done.1 done.2 := by
    rw [group.definition_of_single className method alone, Definition.call, scopeOf_single]
    -- A void method's statement does not leave the member: its body ends, and gives nothing back.
    cases leaves : (group.statement className method (.named method.paramNames)).leaves with
    | true =>
      rw [leaves, if_pos rfl] at executed
      exact (executeAll_left bridge scope [] executed).bind rfl
    | false =>
      rw [leaves, if_neg (by simp)] at executed
      have ended : Yields (executeAll bridge scope
          [(group.statement className method (.named method.paramNames)).instruction]) []
          (.next scope) done.2 :=
        (executeAll_next bridge scope executed).trans rfl
      rw [nothing leaves]
      exact ended.bind rfl
  exact called

end Single

section Several

variable (named : group.Named) (sound : group.Sound)
  (several : ∀ method, group.methods ≠ [method]) (arguments : List Value) (this : Value)

/-- The values of the implementation's parameters. -/
def unionValues : List (Text × Value) :=
  group.unionNames.zip (fitted group.unionNames.length arguments)
    ++ [("rest".toList, .array (arguments.drop group.unionNames.length))]

/-- The scope of the body of an overloaded member, before the arguments are gathered. -/
def openScope : Scope :=
  { className := className
    this := this
    arguments := arguments
    locals := group.unionValues arguments }

/-- The scope behind the gathering of the arguments. -/
def gatheredScope : Scope :=
  (group.openScope className arguments this).bind "args".toList (.array arguments)

theorem scopeOf_several :
    (group.dispatch className).definition.scopeOf className this arguments =
      group.openScope className arguments this := by
  have plain : ∀ formal ∈ group.unionParams.map UnionParam.formal, formal.rest = false := by
    intro formal member
    obtain ⟨param, _, rfl⟩ := List.mem_map.mp member
    rfl
  have names : (group.unionParams.map UnionParam.formal).map (·.name) = group.unionNames := by
    simp [unionNames, UnionParam.formal, Function.comp_def]
  have count : (group.unionParams.map UnionParam.formal).length = group.unionNames.length := by
    simp [unionNames]
  have bound := bindFormals_append (group.unionParams.map UnionParam.formal) plain arguments
    [Dispatch.restFormal]
  rw [names, count] at bound
  show Scope.mk className this arguments
    (bindFormals (group.unionParams.map UnionParam.formal ++ [Dispatch.restFormal]) arguments) = _
  rw [bound]
  rfl

theorem names_unionValues :
    (group.unionValues arguments).map Prod.fst = group.unionNames ++ ["rest".toList] := by
  have same : group.unionNames.length = (fitted group.unionNames.length arguments).length := by
    rw [length_fitted]
  simp [unionValues, List.map_fst_zip same.le]

include several in
theorem bound_of_several : group.bound = "args".toList :: (group.unionNames ++ ["rest".toList]) := by
  unfold bound
  split
  · next method alone => exact absurd alone (several method)
  · rfl

include several in
theorem inside_several : group.Inside className (group.gatheredScope className arguments this) := by
  refine ⟨rfl, fun name => ?_⟩
  rw [group.bound_of_several several, ← group.names_unionValues arguments]
  rfl

include named in
theorem find_unionName (lawful : group.Lawful) (pair : Text × Value)
    (member : pair ∈ group.unionNames.zip (fitted group.unionNames.length arguments)) :
    (group.openScope className arguments this).find? pair.1 = some pair.2 := by
  obtain ⟨apart, _, _⟩ := group.nodup_unionNames
  have known := (List.of_mem_zip member).1
  refine find_local _ pair.1 (group.not_keyword_unionNames named lawful pair.1 known) _ ?_
  show (group.unionValues arguments).lookup pair.1 = some pair.2
  rw [unionValues, List.lookup_append, lookup_zip _ _ apart pair member]
  rfl

theorem find_rest :
    (group.openScope className arguments this).find? "rest".toList =
      some (.array (arguments.drop group.unionNames.length)) := by
  obtain ⟨_, _, noRest⟩ := group.nodup_unionNames
  refine find_local _ _ (by decide) _ ?_
  show (group.unionValues arguments).lookup "rest".toList = _
  have unbound : (group.unionNames.zip (fitted group.unionNames.length arguments)).lookup
      "rest".toList = none := by
    rw [List.lookup_eq_none_iff]
    intro pair member
    have known := (List.of_mem_zip member).1
    simpa using fun same : "rest".toList = pair.1 => noRest (same ▸ known)
  rw [unionValues, List.lookup_append, unbound]
  rfl

theorem unbound_args :
    (group.openScope className arguments this).locals.lookup "args".toList = none := by
  obtain ⟨_, noArgs, _⟩ := group.nodup_unionNames
  rw [List.lookup_eq_none_iff]
  intro pair member
  have known : pair.1 ∈ group.unionNames ++ ["rest".toList] := by
    rw [← group.names_unionValues arguments]
    exact List.mem_map.mpr ⟨pair, member, rfl⟩
  have other : "args".toList ≠ pair.1 := by
    intro same
    rcases List.mem_append.mp (same ▸ known) with name | last
    · exact noArgs name
    · exact absurd (List.mem_singleton.mp last) (by decide)
  simpa using other

include named in
-- Missing arguments are padded up to the width of the group, and surplus ones come behind.
theorem yields_elements (lawful : group.Lawful) (bridge : Bridge) (history : List Effect) :
    Yields
      (evaluate bridge (group.openScope className arguments this)
        (.array (Dispatch.elements group.unionNames)))
      history
      (.array (fitted group.unionNames.length arguments ++ arguments.drop group.unionNames.length))
      history := by
  have same : group.unionNames.length = (fitted group.unionNames.length arguments).length := by
    rw [length_fitted]
  have found := group.find_unionName className named arguments this lawful
  have spread : ∀ history, Yields
      (evaluateItems bridge (group.openScope className arguments this)
        (.spread (.name "rest".toList) .nil))
      history (arguments.drop group.unionNames.length) history :=
    fun history => yields_spread (yields_name (group.find_rest className arguments this) history)
  have elements := yields_names bridge _ group.unionNames _ same found _ _ spread history
  exact elements.bind rfl

include named in
/-- The arguments are gathered whole, whatever the width of the group. -/
theorem yields_gathering (lawful : group.Lawful) (bridge : Bridge) (history : List Effect) :
    Yields
      (execute bridge (group.openScope className arguments this)
        (group.dispatch className).gatheringInstruction)
      history (.next (group.gatheredScope className arguments this)) history := by
  let scope := group.openScope className arguments this
  have list := group.yields_elements className named arguments this lawful bridge history
  have given : Yields (evaluate bridge scope (.name "arguments".toList)) history
      (.array arguments) history := yields_name (find_arguments scope) history
  have zero : Yields (evaluate bridge scope (.number 0)) history (.number 0) history := rfl
  have bounds := yields_item zero (yields_single (yields_length given))
  -- The slice ends at the number of arguments, so the padding falls away again.
  have cut : ((fitted group.unionNames.length arguments
      ++ arguments.drop group.unionNames.length).take arguments.length).drop 0 = arguments := by
    rw [take_fitted, List.drop_zero]
  have sent : Yields
      (send (.array (fitted group.unionNames.length arguments
          ++ arguments.drop group.unionNames.length))
        "slice".toList [.number 0, .number arguments.length]) history (.array arguments) history := by
    show Yields (pure (Value.array _)) history (Value.array arguments) history
    rw [cut]
    rfl
  have fresh : (scope.locals.lookup "args".toList).isSome = false := by
    rw [group.unbound_args className arguments this]
    rfl
  refine (yields_send list bounds sent).bind ?_
  rw [fresh]
  rfl

theorem find_args :
    (group.gatheredScope className arguments this).find? "args".toList = some (.array arguments) :=
  find_local _ _ (by decide) (.array arguments) (by simp [gatheredScope, Scope.bind])

-- In an overloaded member all arguments are passed on.
theorem yields_all (bridge : Bridge) (history : List Effect) :
    Yields
      (evaluateItems bridge (group.gatheredScope className arguments this) CallArguments.all.items)
      history arguments history := by
  exact yields_spread (yields_name (find_args className group arguments this) history)

theorem yields_test (bridge : Bridge) (method : Method) (history : List Effect) :
    Yields
      (evaluate bridge (group.gatheredScope className arguments this)
        (.equal (.property (.name "args".toList) "length".toList)
          (.number (group.overloadOf className method).arity)))
      history (.boolean (method.arity == arguments.length)) history := by
  have named : Yields
      (evaluate bridge (group.gatheredScope className arguments this) (.name "args".toList)) history
      (.array arguments) history := yields_name (find_args className group arguments this) history
  have count := yields_length named
  have number : Yields (evaluate bridge (group.gatheredScope className arguments this)
      (.number method.arity)) history (.number method.arity) history := rfl
  have arity : (group.overloadOf className method).arity = method.arity := method.length_scriptParams
  rw [arity, Bool.beq_comm]
  exact yields_equal count number

include several in
-- Behind all tests the member throws.
theorem stops_failing (clear : group.Clear className) (bridge : Bridge) (history : List Effect) :
    ∃ value, Stops
      (execute bridge (group.gatheredScope className arguments this) (group.dispatch className).failing)
      history (.thrown value) history := by
  have free : "Error".toList ∉ (group.gatheredScope className arguments this).locals.map Prod.fst :=
    fun member => clear.error several
      (((group.inside_several className several arguments this).bound _).mp member)
  have meaning := find_outer (group.gatheredScope className arguments this) _ (by decide) free
  have built : ∃ value, Yields (evaluate bridge (group.gatheredScope className arguments this)
      (.construct "Error".toList (.item (.template (group.dispatch className).message) .nil)))
      history value history := by
    rw [evaluate, meaning]
    split
    · exact ⟨_, rfl⟩
    · exact ⟨_, rfl⟩
  obtain ⟨value, yielded⟩ := built
  exact ⟨value, yielded.bind_stops rfl⟩

/-- The branch for a method of the group. -/
def branchOf (entry : Entry) : Instruction := (group.overloadOf className entry.method).branch

theorem body_dispatch :
    (group.dispatch className).body = (group.dispatch className).gatheringInstruction ::
      (group.entries.map (group.branchOf className) ++ [(group.dispatch className).failing]) := by
  simp [Dispatch.body, branchOf, dispatch, methods, Function.comp_def]

theorem branch_misses (bridge : Bridge) (entry : Entry) (other : entry.method.arity ≠ arguments.length)
    (later : List Instruction) (history : List Effect) :
    let scope := group.gatheredScope className arguments this
    (executeAll bridge scope (group.branchOf className entry :: later)).run.run history =
      (executeAll bridge scope later).run.run (history ++ [.tested false]) := by
  intro scope
  have test := group.yields_test className arguments this bridge entry.method history
  rw [beq_false_of_ne other] at test
  exact executeAll_next bridge scope (branch_passed bridge scope test)

include sound several in
theorem branch_performs (clear : group.Clear className) (bridge : Bridge) (handle : Value)
    (caller : this = group.caller className handle) (entry : Entry) (own : entry ∈ group.entries)
    (fits : entry.method.arity = arguments.length) (later : List Instruction)
    (history : List Effect) :
    let done := group.performed className bridge handle entry.method (history ++ [.tested true])
      arguments
    Yields
      (executeAll bridge (group.gatheredScope className arguments this)
        (group.branchOf className entry :: later))
      history (.left done.1) done.2 := by
  intro done
  let scope := group.gatheredScope className arguments this
  have method : entry.method ∈ group.methods := List.mem_map.mpr ⟨entry, own, rfl⟩
  have hears := group.hears_of_clear className scope
    (group.inside_several className several arguments this) clear
  have test := group.yields_test className arguments this bridge entry.method history
  rw [fits, beq_self_eq_true] at test
  -- The statement starts behind the test, which is in the trace by now.
  obtain ⟨executed, nothing⟩ := group.yields_statement className bridge scope handle hears
    entry.method
    (fun kind side => caller.trans
      (group.caller_of_method className sound handle entry.method method kind side))
    .all arguments (group.yields_all className arguments this bridge) (history ++ [.tested true])
  refine executeAll_left bridge scope later (branch_taken bridge scope test ?_)
  show Yields (executeAll bridge scope
    ((group.statement className entry.method .all).instruction ::
      if (group.statement className entry.method .all).leaves then [] else [.leave])) _ _ _
  -- Either the statement returns, or the branch has a return of its own behind it.
  by_cases leaves : (group.statement className entry.method .all).leaves = true
  · rw [if_pos leaves] at executed
    exact executeAll_left bridge scope _ executed
  · rw [if_neg leaves] at executed ⊢
    have left : Yields (executeAll bridge scope [.leave]) done.2 (.left done.1) done.2 := by
      rw [nothing ((Bool.not_eq_true _).mp leaves)]
      rfl
    exact (executeAll_next bridge scope executed).trans left

include sound several in
/-- The branches from some entry on: the first method that takes the number of arguments is
performed, behind a failed test for each method before it. -/
theorem branches_perform (clear : group.Clear className) (bridge : Bridge) (handle : Value)
    (caller : this = group.caller className handle) (entries : List Entry)
    (known : ∀ entry ∈ entries, entry ∈ group.entries) (last : List Instruction) (entry : Entry)
    (found : entries.find? (·.method.arity == arguments.length) = some entry)
    (history : List Effect) :
    ∃ k, entries[k]? = some entry ∧
      let done := group.performed className bridge handle entry.method
        (history ++ List.replicate k (.tested false) ++ [.tested true]) arguments
      Yields
        (executeAll bridge (group.gatheredScope className arguments this)
          (entries.map (group.branchOf className) ++ last))
        history (.left done.1) done.2 := by
  -- By the entries, as the search for one of so many parameters goes through them.
  induction entries generalizing history with
  | nil => cases found
  | cons first later ih =>
    by_cases fits : first.method.arity = arguments.length
    · rw [List.find?_cons_of_pos (by simpa using fits)] at found
      cases found
      refine ⟨0, rfl, ?_⟩
      have performed := group.branch_performs className sound several arguments this clear bridge
        handle caller entry (known entry List.mem_cons_self) fits
        (later.map (group.branchOf className) ++ last) history
      simpa using performed
    · rw [List.find?_cons_of_neg (by simpa using fits)] at found
      obtain ⟨k, here, performed⟩ := ih
        (fun next member => known next (List.mem_cons_of_mem first member)) found
        (history ++ [.tested false])
      refine ⟨k + 1, by simpa using here, ?_⟩
      have missed := group.branch_misses className arguments this bridge first fits
        (later.map (group.branchOf className) ++ last) history
      simp only [List.append_assoc, List.singleton_append] at performed
      rw [List.replicate_succ, List.append_assoc, List.cons_append]
      exact missed.trans performed

-- The branches of methods that do not take the number of arguments only test it.
theorem branches_miss (bridge : Bridge) (entries : List Entry) (last : List Instruction)
    (missed : ∀ entry ∈ entries, entry.method.arity ≠ arguments.length) (history : List Effect) :
    let scope := group.gatheredScope className arguments this
    (executeAll bridge scope (entries.map (group.branchOf className) ++ last)).run.run history =
      (executeAll bridge scope last).run.run
        (history ++ List.replicate entries.length (.tested false)) := by
  intro scope
  induction entries generalizing history with
  | nil => simp
  | cons first later ih =>
    have here := group.branch_misses className arguments this bridge first
      (missed first List.mem_cons_self) (later.map (group.branchOf className) ++ last) history
    have rest := ih (fun next member => missed next (List.mem_cons_of_mem first member))
      (history ++ [.tested false])
    rw [List.append_assoc] at rest
    exact here.trans rest

include several in
/-- Without a method that takes the number of arguments all tests fail and the member throws. -/
theorem branches_throw (clear : group.Clear className) (bridge : Bridge) (entries : List Entry)
    (found : entries.find? (·.method.arity == arguments.length) = none) (history : List Effect) :
    ∃ value, Stops
      (executeAll bridge (group.gatheredScope className arguments this)
        (entries.map (group.branchOf className) ++ [(group.dispatch className).failing]))
      history (.thrown value) (history ++ List.replicate entries.length (.tested false)) := by
  obtain ⟨value, stopped⟩ := group.stops_failing className several arguments this clear bridge
    (history ++ List.replicate entries.length (.tested false))
  have missed : ∀ entry ∈ entries, entry.method.arity ≠ arguments.length :=
    fun entry member => by simpa using List.find?_eq_none.mp found entry member
  have misses := group.branches_miss className arguments this bridge entries
    [(group.dispatch className).failing] missed history
  exact ⟨value, misses.trans (executeAll_stops bridge _ [] stopped)⟩

/-- What an overloaded member has to do: perform the method that the group resolves the number of
arguments to, behind a failed test for each method before it, or throw behind as many failed tests
as there are methods. -/
def Dispatches (bridge : Bridge) (handle : Value) (outcome : Except Stop Value × List Effect) : Prop :=
  match group.resolve arguments.length with
  | .ok entry => ∃ k, group.entries[k]? = some entry ∧
      let done := group.performed className bridge handle entry.method
        (List.replicate k (.tested false) ++ [.tested true]) arguments
      outcome = (.ok done.1, done.2)
  | .error _ => ∃ value,
      outcome = (.error (.thrown value), List.replicate group.entries.length (.tested false))

include named sound several in
/-- An overloaded member dispatches as its group resolves. -/
theorem outcome_several (lawful : group.Lawful) (clear : group.Clear className) (bridge : Bridge)
    (handle : Value) :
    group.Dispatches className arguments bridge handle
      ((group.definition className).outcome bridge className (group.caller className handle)
        arguments) := by
  let this := group.caller className handle
  let branches := group.entries.map (group.branchOf className)
    ++ [(group.dispatch className).failing]
  have gathered := group.yields_gathering className named arguments this lawful bridge []
  have body : (executeAll bridge (group.openScope className arguments this)
      (group.dispatch className).body).run.run [] =
        (executeAll bridge (group.gatheredScope className arguments this) branches).run.run [] := by
    rw [body_dispatch]
    exact executeAll_next bridge _ gathered
  unfold Dispatches resolve Definition.outcome
  rw [group.definition_of_several className several, Definition.call, scopeOf_several]
  cases found : group.entries.find? (·.method.arity == arguments.length) with
  | some entry =>
    obtain ⟨k, here, performed⟩ := group.branches_perform className sound several arguments this
      clear bridge handle rfl group.entries (fun _ member => member)
      [(group.dispatch className).failing] entry found []
    refine ⟨k, here, ?_⟩
    have executed := body.trans performed
    exact Yields.bind executed rfl
  | none =>
    obtain ⟨value, stopped⟩ := group.branches_throw className several arguments this clear bridge
      group.entries found []
    have executed := body.trans stopped
    exact ⟨value, Stops.bind executed _⟩

end Several

section Agreement

/-- The text of a group's member writes a method that does what the group resolves: it performs the
method of a group of one with the parameters, and dispatches among several. -/
def Agrees (bridge : Bridge) (handle : Value) (arguments : List Value) : Prop :=
  ∃ method, method? (group.source className) = some method ∧
    let outcome := method.outcome bridge className (group.caller className handle) arguments
    match group.entries with
    | [entry] =>
      let done := group.performed className bridge handle entry.method []
        (fitted entry.method.arity arguments)
      outcome = (.ok done.1, done.2)
    | _ => group.Dispatches className arguments bridge handle outcome

variable (decl : ClassDecl) (named : decl.Named)
  (planned : group ∈ (MemberPlan.ofClass decl).groups)

include named planned in
theorem agrees_of_clear (lawful : group.Lawful) (clear : group.Clear decl.name) (bridge : Bridge)
    (handle : Value) (arguments : List Value) : group.Agrees decl.name bridge handle arguments := by
  have own := group.named_of_class decl named planned
  have sound := ((MemberPlan.settled_ofClass decl).groups group planned).1
  refine ⟨group.definition decl.name,
    (group.method_of_source_iff decl.name named.name own sound _).mpr ⟨lawful, rfl⟩, ?_⟩
  dsimp only
  split
  · next entry alone =>
    exact group.outcome_single decl.name own sound entry.method (by simp [methods, alone]) arguments
      lawful clear bridge handle
  · next other =>
    refine group.outcome_several decl.name own sound ?_ arguments lawful clear bridge handle
    intro method alone
    obtain ⟨entry, single, _⟩ := List.map_eq_singleton_iff.mp alone
    exact other entry single

end Agreement

end OverloadGroup

end HeaderBindings
