import HeaderBindings.Proofs.Script.Dispatching
import Mathlib.Data.Fintype.EquivFin

/-!
Names that hide what a member relies on. Where a parameter or the class stands for a function of the
bridge, for the class or for the error, the member fails on missing arguments already, so that a
group's member dispatches as the group resolves exactly if no name is hidden.
-/

namespace HeaderBindings

open Reading

section Scopes

/-- A value that can be neither called nor constructed, as missing arguments and lists of them. -/
def Inert (value : Value) : Prop := value = .undefined ∨ ∃ elements, value = .array elements

theorem Inert.fails_apply {value : Value} (inert : Inert value) (bridge : Bridge)
    (arguments : List Value) (history : List Effect) :
    Fails (apply bridge value arguments) history := by
  rcases inert with rfl | ⟨elements, rfl⟩ <;> exact fails_throw history

theorem Inert.fails_construct {value : Value} (inert : Inert value) (arguments : List Value)
    (history : List Effect) : Fails (construct value arguments) history := by
  rcases inert with rfl | ⟨elements, rfl⟩ <;> exact fails_throw history

/-- A name that cannot be called. -/
def Unheard (scope : Scope) (name : Text) : Prop :=
  ∀ value, scope.find? name = some value → ∀ bridge arguments history,
    Fails (apply bridge value arguments) history

/-- A name that cannot be constructed. -/
def Unbuilt (scope : Scope) (name : Text) : Prop :=
  ∀ value, scope.find? name = some value → ∀ arguments history,
    Fails (construct value arguments) history

variable (bridge : Bridge) (scope : Scope) (name : Text)

theorem fails_call (unheard : Unheard scope name) (items : Items) (history : List Effect) :
    Fails (evaluate bridge scope (.call (.name name) items)) history := by
  show Fails (do
    let callee ← resolved (scope.find? name)
    let arguments ← evaluateItems bridge scope items
    apply bridge callee arguments) history
  cases meaning : scope.find? name with
  | none => exact (fails_throw history).bind _
  | some value =>
    have found : Yields (resolved (some value)) history value history := rfl
    exact found.bind_fails ((ends_evaluateItems bridge scope items history).bind_fails
      fun arguments later => unheard value meaning bridge arguments later)

theorem fails_construct (unbuilt : Unbuilt scope name) (items : Items) (history : List Effect) :
    Fails (evaluate bridge scope (.construct name items)) history := by
  rw [evaluate]
  cases meaning : scope.find? name with
  | none => exact (fails_throw history).bind _
  | some value =>
    have found : Yields (resolved (some value)) history value history := rfl
    exact found.bind_fails ((ends_evaluateItems bridge scope items history).bind_fails
      fun arguments later => unbuilt value meaning arguments later)

theorem fails_items {value : Expression} {history : List Effect}
    (failed : Fails (evaluate bridge scope value) history) (later : Items) :
    Fails (evaluateItems bridge scope (.item value later)) history := by
  rw [evaluateItems]
  exact failed.bind _

variable (inert : ∀ pair ∈ scope.locals, Inert pair.2)

include inert

-- A name that the scope binds to something inert, and any keyword, means nothing else.
theorem inert_of_find (hidden : name ∈ scope.locals.map Prod.fst ∨ name ∈ keywords) (value : Value)
    (found : scope.find? name = some value) : Inert value := by
  unfold Scope.find? at found
  split at found
  · cases found
    exact Or.inr ⟨_, rfl⟩
  · split at found
    · cases found
    · next plain =>
      have known := hidden.resolve_right (by simpa using plain)
      split at found
      · next bound =>
        cases found
        obtain ⟨front, back, split, _⟩ := List.lookup_eq_some_iff.mp bound
        exact inert (name, value) (by simp [split])
      · next unbound =>
        obtain ⟨pair, member, rfl⟩ := List.mem_map.mp known
        simpa using List.lookup_eq_none_iff.mp unbound pair member

theorem unheard_of_local (hidden : name ∈ scope.locals.map Prod.fst) : Unheard scope name :=
  fun value found bridge arguments history =>
    (inert_of_find scope name inert (Or.inl hidden) value found).fails_apply bridge arguments history

theorem unbuilt_of_hidden (hidden : name ∈ scope.locals.map Prod.fst ∨ name ∈ keywords) :
    Unbuilt scope name :=
  fun value found arguments history =>
    (inert_of_find scope name inert hidden value found).fails_construct arguments history

omit inert in
theorem unheard_of_class (plain : name ∉ keywords) (free : name ∉ scope.locals.map Prod.fst)
    (same : scope.className = name) : Unheard scope name := by
  intro value found bridge arguments history
  rw [find_outer scope name plain free, if_pos same.symm] at found
  cases found
  exact fails_throw history

end Scopes

namespace OverloadGroup

variable (className : Text) (group : OverloadGroup)

/-- A scope that hides something that every statement of the group relies on. -/
def Hides (scope : Scope) : Prop :=
  Unheard scope "invoke".toList ∨
    group.isConstructor = true ∧ (Unheard scope "allocate".toList ∨ Unbuilt scope className)

theorem fails_statement (scope : Scope) (hides : group.Hides className scope) (bridge : Bridge)
    (method : Method) (arguments : CallArguments) (history : List Effect) :
    Fails (execute bridge scope (group.statement className method arguments).instruction) history := by
  let call : Call := ⟨group.receiver className method, method.selector, arguments⟩
  -- Whatever the statement evaluates, it evaluates the call, or it constructs the class with it.
  have evaluated : (∀ history, Fails (evaluate bridge scope call.expression) history) ∨
      group.isConstructor = true ∧ Unbuilt scope className := by
    rcases hides with invoke | ⟨kind, allocate | built⟩
    · exact Or.inl (fails_call bridge scope _ invoke _)
    · have target : group.receiver className method = .fresh className := by
        simp [receiver, kind]
      have receiver : ∀ history, Fails (evaluate bridge scope call.receiver.expression) history := by
        intro history
        simp only [call, target]
        exact fails_call bridge scope _ allocate _ history
      exact Or.inl fun history =>
        (ends_evaluate bridge scope (.name "invoke".toList) history).bind_fails
          fun _ middle => (fails_items bridge scope (receiver middle) _).bind _
    · exact Or.inr ⟨kind, built⟩
  rw [statement_eq]
  cases kind : group.isConstructor with
  | true =>
    -- The class is looked up before its arguments: that fails, or it leads on to what does.
    have constructed : Fails (evaluate bridge scope
        (.construct className (.item call.expression .nil))) history := by
      rcases evaluated with failed | ⟨_, built⟩
      · rw [evaluate]
        exact (ends_resolved _ history).bind_fails
          fun _ middle => (fails_items bridge scope (failed middle) _).bind _
      · exact fails_construct bridge scope className built _ history
    exact constructed.bind _
  | false =>
    have failed := evaluated.resolve_right (by simp [kind])
    cases method.scriptReturn.isVoid with
    | true => exact (failed history).bind _
    | false => exact (failed history).bind _

section Scopes

variable (scope : Scope) (inside : group.Inside className scope)
  (inert : ∀ pair ∈ scope.locals, Inert pair.2)

include inside inert

theorem unheard_of_hidden (name : Text) (plain : name ∉ keywords)
    (hidden : name ∈ group.bound ∨ className = name) : Unheard scope name := by
  by_cases known : name ∈ scope.locals.map Prod.fst
  · exact unheard_of_local scope name inert known
  · refine unheard_of_class scope name plain known ?_
    rw [inside.className]
    exact hidden.resolve_left fun member => known ((inside.bound name).mpr member)

-- A scope that hides nothing has names that hide nothing.
theorem clear_of_scope (shown : ¬ group.Hides className scope)
    (error : (∀ method, group.methods ≠ [method]) → "Error".toList ∉ group.bound) :
    group.Clear className := by
  have heard : ∀ name, name ∉ keywords → ¬ Unheard scope name →
      name ∉ group.bound ∧ className ≠ name := by
    intro name plain heard
    have hidden := group.unheard_of_hidden className scope inside inert name plain
    exact ⟨fun member => heard (hidden (Or.inl member)), fun same => heard (hidden (Or.inr same))⟩
  refine ⟨heard _ (by decide) fun unheard => shown (Or.inl unheard), fun kind => ?_, fun kind => ?_,
    error⟩
  · exact heard _ (by decide) fun unheard => shown (Or.inr ⟨kind, Or.inl unheard⟩)
  · have built : ¬ Unbuilt scope className := fun unbuilt => shown (Or.inr ⟨kind, Or.inr unbuilt⟩)
    exact ⟨fun member => built (unbuilt_of_hidden scope className inert
        (Or.inl ((inside.bound className).mpr member))),
      fun keyword => built (unbuilt_of_hidden scope className inert (Or.inr keyword))⟩

end Scopes

section Missing

theorem inert_fitted (count : Nat) (arguments : List Value)
    (missing : ∀ value ∈ arguments, value = .undefined) (names : List Text) :
    ∀ pair ∈ names.zip (fitted count arguments), Inert pair.2 := by
  have values : ∀ value ∈ fitted count arguments, value = .undefined := by
    induction count generalizing arguments with
    | zero => simp [fitted]
    | succ count ih =>
      intro value member
      rcases List.mem_cons.mp member with rfl | later
      · cases arguments with
        | nil => rfl
        | cons first rest => exact missing first List.mem_cons_self
      · exact ih arguments.tail (fun next member => missing next (List.mem_of_mem_tail member)) value
          later
  intro pair member
  exact Or.inl (values _ (List.of_mem_zip member).2)

theorem inert_gatheredScope (this : Value) (arguments : List Value)
    (missing : ∀ value ∈ arguments, value = .undefined) :
    ∀ pair ∈ (group.gatheredScope className arguments this).locals, Inert pair.2 := by
  intro pair member
  rcases List.mem_cons.mp member with rfl | opened
  · exact Or.inr ⟨_, rfl⟩
  · rcases List.mem_append.mp opened with param | rest
    · exact inert_fitted _ _ missing _ pair param
    · rw [List.mem_singleton.mp rest]
      exact Or.inr ⟨_, rfl⟩

end Missing

section Calls

variable (bridge : Bridge) (this : Value)

theorem fails_single (method : Method) (alone : group.methods = [method]) (arguments : List Value)
    (hides : group.Hides className (singleScope className arguments this method))
    (history : List Effect) :
    Fails ((group.definition className).call bridge className this arguments) history := by
  rw [group.definition_of_single className method alone, Definition.call, scopeOf_single]
  have failed := group.fails_statement className _ hides bridge method (.named method.paramNames)
    history
  exact (executeAll_fails bridge _ [] failed).bind _

theorem clear_single (method : Method) (alone : group.methods = [method])
    (works : ¬ Fails ((group.definition className).call bridge className this []) []) :
    group.Clear className := by
  refine group.clear_of_scope className (singleScope className [] this method)
    (group.inside_single className method alone [] this) ?_ ?_ ?_
  · exact inert_fitted method.arity [] (by simp) method.paramNames
  · exact fun hides => works (group.fails_single className bridge this method alone [] hides [])
  · exact fun several => absurd alone (several method)

variable (named : group.Named) (several : ∀ method, group.methods ≠ [method])
  (lawful : group.Lawful) (arguments : List Value)

include named several lawful

-- An overloaded member fails if what is behind the gathering fails.
theorem fails_several (history : List Effect)
    (failed : Fails
      (executeAll bridge (group.gatheredScope className arguments this)
        (group.entries.map (group.branchOf className) ++ [(group.dispatch className).failing]))
      history) :
    Fails ((group.definition className).call bridge className this arguments) history := by
  have gathered := group.yields_gathering className named arguments this lawful bridge history
  have body : Fails (executeAll bridge (group.openScope className arguments this)
      (group.dispatch className).body) history := by
    obtain ⟨later, stopped⟩ := failed
    rw [body_dispatch]
    exact ⟨later, (executeAll_next bridge _ gathered).trans stopped⟩
  rw [group.definition_of_several className several, Definition.call, scopeOf_several]
  exact body.bind _

-- What is hidden is missed in the first branch already, if it is taken.
theorem fails_first (entry : Entry) (later : List Entry) (entries : group.entries = entry :: later)
    (fits : entry.method.arity = arguments.length)
    (hides : group.Hides className (group.gatheredScope className arguments this))
    (history : List Effect) :
    Fails ((group.definition className).call bridge className this arguments) history := by
  refine group.fails_several className bridge this named several lawful arguments history ?_
  have test := group.yields_test className arguments this bridge entry.method history
  rw [fits, beq_self_eq_true] at test
  have failed := group.fails_statement className _ hides bridge entry.method .all
    (history ++ [.tested true])
  rw [entries, List.map_cons, List.cons_append]
  exact executeAll_fails bridge _ _
    (branch_taken_fails bridge _ test (executeAll_fails bridge _ _ failed))

-- A parameter that stands for the error leaves nothing to throw.
theorem fails_error (hidden : "Error".toList ∈ group.bound)
    (missing : ∀ value ∈ arguments, value = .undefined)
    (missed : ∀ entry ∈ group.entries, entry.method.arity ≠ arguments.length)
    (history : List Effect) :
    Fails ((group.definition className).call bridge className this arguments) history := by
  refine group.fails_several className bridge this named several lawful arguments history ?_
  have inert := group.inert_gatheredScope className this arguments missing
  have known := ((group.inside_several className several arguments this).bound _).mpr hidden
  have unbuilt := unbuilt_of_hidden _ _ inert (Or.inl known)
  have failed := fails_construct bridge _ _ unbuilt
    (.item (.template (group.dispatch className).message) .nil)
    (history ++ List.replicate group.entries.length (.tested false))
  have thrown : Fails (execute bridge (group.gatheredScope className arguments this)
      (group.dispatch className).failing)
      (history ++ List.replicate group.entries.length (.tested false)) := failed.bind _
  obtain ⟨later, stopped⟩ := executeAll_fails bridge _ [] thrown
  exact ⟨later, (group.branches_miss className arguments this bridge group.entries _ missed
    history).trans stopped⟩

-- Two calls with undefined arguments show all hidden names: one that takes the first branch, and one
-- that takes none.
theorem clear_several (sound : group.Sound)
    (works : ∀ arguments,
      ¬ Fails ((group.definition className).call bridge className this arguments) []) :
    group.Clear className := by
  obtain ⟨entry, later, entries⟩ := List.exists_cons_of_ne_nil sound.inhabited
  have missing : ∀ count, ∀ value ∈ List.replicate count Value.undefined, value = .undefined :=
    fun count value member => List.eq_of_mem_replicate member
  let fitting := List.replicate entry.method.arity Value.undefined
  refine group.clear_of_scope className (group.gatheredScope className fitting this)
    (group.inside_several className several fitting this)
    (group.inert_gatheredScope className this fitting (missing _)) ?_ ?_
  · exact fun hides => works fitting (group.fails_first className bridge this named several lawful
      fitting entry later entries (by simp [fitting]) hides [])
  · intro _ hidden
    -- The throw is reached with a number of arguments that no method takes.
    obtain ⟨count, other⟩ := Infinite.exists_notMem_finset
      (group.entries.map (·.method.arity)).toFinset
    have missed : ∀ entry ∈ group.entries,
        entry.method.arity ≠ (List.replicate count Value.undefined).length := by
      intro entry member same
      rw [List.length_replicate] at same
      exact other (List.mem_toFinset.mpr (List.mem_map.mpr ⟨entry, member, same⟩))
    exact works _ (group.fails_error className bridge this named several lawful _ hidden
      (missing count) missed [])

end Calls

section Agreement

variable (decl : ClassDecl) (named : decl.Named)
  (planned : group ∈ (MemberPlan.ofClass decl).groups)

-- A group that resolves never asks for a failure.
theorem not_dispatches_failed (arguments : List Value) (bridge : Bridge) (handle : Value)
    (later : List Effect) :
    ¬ group.Dispatches className arguments bridge handle (.error .failed, later) := by
  unfold Dispatches
  split
  · rintro ⟨k, _, same⟩
    cases same
  · rintro ⟨value, same⟩
    cases same

include named planned in
theorem not_fails_of_agrees (bridge : Bridge) (handle : Value) (arguments : List Value)
    (agrees : group.Agrees decl.name bridge handle arguments) :
    group.Lawful ∧ ¬ Fails ((group.definition decl.name).call bridge decl.name
      (group.caller decl.name handle) arguments) [] := by
  have own := group.named_of_class decl named planned
  have sound := ((MemberPlan.settled_ofClass decl).groups group planned).1
  obtain ⟨method, written, outcome⟩ := agrees
  obtain ⟨lawful, rfl⟩ := (group.method_of_source_iff decl.name named.name own sound method).mp written
  refine ⟨lawful, ?_⟩
  rintro ⟨later, stopped⟩
  have failed : (group.definition decl.name).outcome bridge decl.name (group.caller decl.name handle)
      arguments = (.error .failed, later) := stopped
  simp only [failed] at outcome
  split at outcome
  · cases outcome
  · exact group.not_dispatches_failed decl.name arguments bridge handle later outcome

include named planned in
/-- If a member agrees with its group even where arguments are missing, no name is hidden. -/
theorem clear_of_agrees
    (agrees : ∀ bridge handle arguments, group.Agrees decl.name bridge handle arguments) :
    group.Lawful ∧ group.Clear decl.name := by
  let bridge : Bridge := ⟨fun _ => .undefined⟩
  have own := group.named_of_class decl named planned
  have sound := ((MemberPlan.settled_ofClass decl).groups group planned).1
  have works := fun arguments =>
    group.not_fails_of_agrees decl named planned bridge .undefined arguments (agrees _ _ _)
  have lawful := (works []).1
  refine ⟨lawful, ?_⟩
  by_cases single : ∃ method, group.methods = [method]
  · obtain ⟨method, alone⟩ := single
    exact group.clear_single decl.name bridge _ method alone (works []).2
  · have several : ∀ method, group.methods ≠ [method] := fun method alone => single ⟨method, alone⟩
    exact group.clear_several decl.name bridge _ own several lawful sound
      fun arguments => (works arguments).2

include named planned in
/-- For every number of arguments a group's member does what the group resolves, exactly if the text
is a method at all and no name that it relies on is hidden. -/
theorem agrees_iff_clear :
    (∀ bridge handle arguments, group.Agrees decl.name bridge handle arguments) ↔
      group.Lawful ∧ group.Clear decl.name :=
  ⟨group.clear_of_agrees decl named planned, fun ⟨lawful, clear⟩ =>
    group.agrees_of_clear decl named planned lawful clear⟩

end Agreement

section Sizes

/-- A class with two initializers of one base name. -/
def sizes (className : Text) : ClassDecl :=
  let width : Parameter := ⟨"width".toList, "CGFloat".toList, false, []⟩
  let height : Parameter := ⟨"height".toList, "CGFloat".toList, false, []⟩
  { name := className
    methods :=
      [{ selector := "initWithWidth:".toList, params := [width],
         returnType := "instancetype".toList, isStatic := false },
       { selector := "initWithWidth:height:".toList, params := [width, height],
         returnType := "instancetype".toList, isStatic := false }] }

def sizesGroup (className : Text) : OverloadGroup :=
  ⟨false, "initWithWidth".toList, true, MemberPlan.entries (sizes className)⟩

theorem named_sizes (className : Text) (identifier : isIdentifier className = true) :
    (sizes className).Named := by
  have each : ∀ method ∈ (sizes []).methods, isIdentifier method.baseName = true ∧
      method.selector.all (fun c => Token.isNameChar c || c == ':') = true ∧
      ∀ param ∈ method.params, param.name = [] ∨ isIdentifier param.name = true := by
    decide
  refine ⟨identifier, fun method member => ?_⟩
  obtain ⟨base, selector, params⟩ := each method member
  exact ⟨base, by simpa using selector, params⟩

/-- Named as usual, the class dispatches as its group resolves. -/
theorem agrees_panel_sizes :
    (sizes "Panel".toList).Named ∧
      sizesGroup "Panel".toList ∈ (MemberPlan.ofClass (sizes "Panel".toList)).groups ∧
      ∀ bridge handle arguments,
        (sizesGroup "Panel".toList).Agrees "Panel".toList bridge handle arguments := by
  have named := named_sizes "Panel".toList (by decide)
  have planned : sizesGroup "Panel".toList ∈
      (MemberPlan.ofClass (sizes "Panel".toList)).groups := by decide
  have lawful : (sizesGroup "Panel".toList).Lawful := ⟨by decide, by decide⟩
  have clear : (sizesGroup "Panel".toList).Clear "Panel".toList :=
    ⟨by decide, fun _ => by decide, fun _ => by decide, fun _ => by decide⟩
  exact ⟨named, planned, ((sizesGroup "Panel".toList).agrees_iff_clear (sizes "Panel".toList)
    named planned).mpr ⟨lawful, clear⟩⟩

/-- Not every class of named parts does so, although no parameter has the name of the class or of a
function of the bridge: the class may have the name under which arguments are gathered. -/
theorem args_sizes_disagree :
    ¬ ∀ decl : ClassDecl, decl.Named →
      (∀ method ∈ decl.methods, ∀ param ∈ method.params,
        param.name ≠ decl.name ∧ param.name ≠ "invoke".toList ∧ param.name ≠ "allocate".toList) →
      ∀ group ∈ (MemberPlan.ofClass decl).groups, ∀ bridge handle arguments,
        group.Agrees decl.name bridge handle arguments := by
  intro agrees
  have named := named_sizes "args".toList (by decide)
  have planned : sizesGroup "args".toList ∈
      (MemberPlan.ofClass (sizes "args".toList)).groups := by decide
  have clear := ((sizesGroup "args".toList).clear_of_agrees (sizes "args".toList) named planned
    (agrees _ named (by decide) _ planned)).2
  exact (clear.constructor rfl).1 (by decide)

end Sizes

end OverloadGroup

end HeaderBindings
