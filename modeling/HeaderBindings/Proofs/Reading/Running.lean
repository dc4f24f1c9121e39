import HeaderBindings.Proofs.Reading.Evaluation

/-!
Reasoning about runs. A run from a history yields a value and a longer history, or it fails; an
expression does one or the other and never throws. A run that yields is followed step by step, and
one bad step makes the whole run fail.
-/

namespace HeaderBindings

namespace Reading

variable {α β : Type}

section Outcomes

def Yields (run : Run α) (history : List Effect) (value : α) (later : List Effect) : Prop :=
  run.run.run history = (.ok value, later)

def Stops (run : Run α) (history : List Effect) (stop : Stop) (later : List Effect) : Prop :=
  run.run.run history = (.error stop, later)

def Fails (run : Run α) (history : List Effect) : Prop := ∃ later, Stops run history .failed later

/-- A run that does not throw. -/
def Ends (run : Run α) (history : List Effect) : Prop :=
  (∃ value later, Yields run history value later) ∨ Fails run history

theorem stops_throw (stop : Stop) (history : List Effect) :
    Stops (throw stop : Run α) history stop history := rfl

theorem fails_throw (history : List Effect) : Fails (throw .failed : Run α) history :=
  ⟨history, stops_throw .failed history⟩

theorem Yields.bind {first : Run α} {next : α → Run β} {history middle later : List Effect}
    {value : α} {result : β} (before : Yields first history value middle)
    (after : Yields (next value) middle result later) :
    Yields (first >>= next) history result later := by
  unfold Yields at *
  simp only [ExceptT.run_bind, StateT.run_bind, before]
  exact after

theorem Yields.bind_stops {first : Run α} {next : α → Run β} {history middle later : List Effect}
    {value : α} {stop : Stop} (before : Yields first history value middle)
    (after : Stops (next value) middle stop later) :
    Stops (first >>= next) history stop later := by
  unfold Yields Stops at *
  simp only [ExceptT.run_bind, StateT.run_bind, before]
  exact after

theorem Stops.bind {first : Run α} {history later : List Effect} {stop : Stop}
    (before : Stops first history stop later) (next : α → Run β) :
    Stops (first >>= next) history stop later := by
  unfold Stops at *
  simp only [ExceptT.run_bind, StateT.run_bind, before]
  rfl

theorem Fails.bind {first : Run α} {history : List Effect} (before : Fails first history)
    (next : α → Run β) : Fails (first >>= next) history := by
  obtain ⟨later, stopped⟩ := before
  exact ⟨later, stopped.bind next⟩

theorem Yields.bind_fails {first : Run α} {next : α → Run β} {history middle : List Effect}
    {value : α} (before : Yields first history value middle) (after : Fails (next value) middle) :
    Fails (first >>= next) history := by
  obtain ⟨later, stopped⟩ := after
  exact ⟨later, before.bind_stops stopped⟩

theorem Ends.bind {first : Run α} {next : α → Run β} {history : List Effect}
    (before : Ends first history) (after : ∀ value middle, Ends (next value) middle) :
    Ends (first >>= next) history := by
  rcases before with ⟨value, middle, yielded⟩ | failed
  · rcases after value middle with ⟨result, later, next⟩ | failed
    · exact Or.inl ⟨result, later, yielded.bind next⟩
    · exact Or.inr (yielded.bind_fails failed)
  · exact Or.inr (failed.bind next)

theorem Ends.bind_fails {first : Run α} {next : α → Run β} {history : List Effect}
    (before : Ends first history) (after : ∀ value middle, Fails (next value) middle) :
    Fails (first >>= next) history := by
  rcases before with ⟨value, middle, yielded⟩ | failed
  · exact yielded.bind_fails (after value middle)
  · exact failed.bind next

theorem ends_pure (value : α) (history : List Effect) : Ends (pure value : Run α) history :=
  Or.inl ⟨value, history, rfl⟩

theorem ends_throw (history : List Effect) : Ends (throw .failed : Run α) history :=
  Or.inr (fails_throw history)

theorem yields_ask (bridge : Bridge) (effect : Effect) (history : List Effect) :
    Yields (bridge.ask effect) history (bridge.answer (history ++ [effect]))
      (history ++ [effect]) := rfl

end Outcomes

section Expressions

variable (bridge : Bridge) (scope : Scope)

theorem ends_resolved (meaning : Option Value) (history : List Effect) :
    Ends (resolved meaning) history := by
  cases meaning with
  | none => exact ends_throw history
  | some value => exact ends_pure value history

theorem ends_apply (callee : Value) (arguments : List Value) (history : List Effect) :
    Ends (apply bridge callee arguments) history := by
  unfold apply
  split
  · exact Or.inl ⟨_, _, yields_ask bridge _ history⟩
  · exact Or.inl ⟨_, _, yields_ask bridge _ history⟩
  · exact ends_throw history

theorem ends_construct (callee : Value) (arguments : List Value) (history : List Effect) :
    Ends (construct callee arguments) history := by
  unfold construct
  split
  · exact ends_pure _ history
  · exact ends_pure _ history
  · exact ends_throw history

theorem ends_propertyOf (object : Value) (name : Text) (history : List Effect) :
    Ends (propertyOf object name) history := by
  unfold propertyOf
  repeat' split
  all_goals first | exact ends_pure _ history | exact ends_throw history

theorem ends_send (object : Value) (name : Text) (arguments : List Value) (history : List Effect) :
    Ends (send object name arguments) history := by
  unfold send
  repeat' split
  all_goals first | exact ends_pure _ history | exact ends_throw history

theorem ends_elementsOf (list : Value) (history : List Effect) :
    Ends (elementsOf list) history := by
  unfold elementsOf
  split
  · exact ends_pure _ history
  · exact ends_throw history

theorem ends_equal (left right : Value) (history : List Effect) :
    Ends (equal left right) history := by
  unfold equal
  split
  · exact ends_pure _ history
  · exact ends_throw history

mutual

/-- Only an instruction throws; an expression has a value or no meaning. -/
theorem ends_evaluate (expression : Expression) (history : List Effect) :
    Ends (evaluate bridge scope expression) history := by
  cases expression with
  | name name => exact ends_resolved _ history
  | this | text _ | template _ | number _ => exact ends_pure _ history
  | property object name =>
    exact (ends_evaluate object history).bind fun value middle => ends_propertyOf value name middle
  | array items =>
    exact (ends_evaluateItems items history).bind fun _ middle => ends_pure _ middle
  | call callee items =>
    -- A call of a property is sent to the object; any other callee is a value of its own.
    cases callee with
    | property object name =>
      exact (ends_evaluate object history).bind fun target middle =>
        (ends_evaluateItems items middle).bind fun arguments later =>
          ends_send target name arguments later
    | _ =>
      exact (ends_evaluate _ history).bind fun target middle =>
        (ends_evaluateItems items middle).bind fun arguments later =>
          ends_apply bridge target arguments later
  | construct className items =>
    exact (ends_resolved _ history).bind fun callee middle =>
      (ends_evaluateItems items middle).bind fun arguments later =>
        ends_construct callee arguments later
  | equal left right =>
    exact (ends_evaluate left history).bind fun first middle =>
      (ends_evaluate right middle).bind fun second later => ends_equal first second later

theorem ends_evaluateItems (items : Items) (history : List Effect) :
    Ends (evaluateItems bridge scope items) history := by
  cases items with
  | nil => exact ends_pure _ history
  | item value later =>
    exact (ends_evaluate value history).bind fun _ middle =>
      (ends_evaluateItems later middle).bind fun _ last => ends_pure _ last
  | spread list later =>
    exact (ends_evaluate list history).bind fun _ middle =>
      (ends_elementsOf _ middle).bind fun _ next =>
        (ends_evaluateItems later next).bind fun _ last => ends_pure _ last

end

end Expressions

section Instructions

variable (bridge : Bridge) (scope : Scope)

theorem executeAll_next {instruction : Instruction} {later : List Instruction} {inner : Scope}
    {history middle : List Effect}
    (before : Yields (execute bridge scope instruction) history (.next inner) middle) :
    (executeAll bridge scope (instruction :: later)).run.run history =
      (executeAll bridge inner later).run.run middle := by
  unfold Yields at before
  simp only [executeAll, ExceptT.run_bind, StateT.run_bind, before]
  rfl

theorem executeAll_left {instruction : Instruction} (later : List Instruction) {value : Value}
    {history middle : List Effect}
    (before : Yields (execute bridge scope instruction) history (.left value) middle) :
    Yields (executeAll bridge scope (instruction :: later)) history (.left value) middle := by
  rw [executeAll]
  exact before.bind rfl

theorem executeAll_fails {instruction : Instruction} (later : List Instruction)
    {history : List Effect} (before : Fails (execute bridge scope instruction) history) :
    Fails (executeAll bridge scope (instruction :: later)) history := by
  rw [executeAll]
  exact before.bind _

theorem executeAll_stops {instruction : Instruction} (later : List Instruction)
    {history middle : List Effect} {stop : Stop}
    (before : Stops (execute bridge scope instruction) history stop middle) :
    Stops (executeAll bridge scope (instruction :: later)) history stop middle := by
  rw [executeAll]
  exact before.bind _

variable {test : Expression} {body : List Instruction} {history : List Effect}

theorem branch_taken {value : Value} {later : List Effect}
    (holds : Yields (evaluate bridge scope test) history (.boolean true) history)
    (inside : Yields (executeAll bridge scope body) (history ++ [.tested true]) (.left value) later) :
    Yields (execute bridge scope (.branch test body)) history (.left value) later := by
  rw [execute]
  refine holds.bind ?_
  have noted : Yields (tested (.boolean true)) history true (history ++ [.tested true]) := rfl
  refine noted.bind ?_
  exact inside.bind rfl

theorem branch_taken_fails
    (holds : Yields (evaluate bridge scope test) history (.boolean true) history)
    (inside : Fails (executeAll bridge scope body) (history ++ [.tested true])) :
    Fails (execute bridge scope (.branch test body)) history := by
  rw [execute]
  refine holds.bind_fails ?_
  have noted : Yields (tested (.boolean true)) history true (history ++ [.tested true]) := rfl
  refine noted.bind_fails ?_
  exact inside.bind _

theorem branch_passed
    (missed : Yields (evaluate bridge scope test) history (.boolean false) history) :
    Yields (execute bridge scope (.branch test body)) history (.next scope)
      (history ++ [.tested false]) := by
  rw [execute]
  refine missed.bind ?_
  have noted : Yields (tested (.boolean false)) history false (history ++ [.tested false]) := rfl
  exact noted.bind rfl

end Instructions

section Scopes

/-- The values of so many parameters: an argument each, or nothing where there is none. -/
def fitted : Nat → List Value → List Value
  | 0, _ => []
  | count + 1, arguments => arguments.headD .undefined :: fitted count arguments.tail

theorem length_fitted (count : Nat) (arguments : List Value) :
    (fitted count arguments).length = count := by
  induction count generalizing arguments with
  | zero => rfl
  | succ count ih => simp [fitted, ih]

-- What the parameters take and what is left, cut to the number of arguments, is the arguments.
theorem take_fitted (count : Nat) (arguments : List Value) :
    (fitted count arguments ++ arguments.drop count).take arguments.length = arguments := by
  induction count generalizing arguments with
  | zero => simp [fitted]
  | succ count ih =>
    cases arguments with
    | nil => simp
    | cons first later => simpa [fitted] using ih later

variable (formals : List Formal) (plain : ∀ formal ∈ formals, formal.rest = false)
  (arguments : List Value)

include plain

theorem bindFormals_append (later : List Formal) :
    bindFormals (formals ++ later) arguments =
      (formals.map (·.name)).zip (fitted formals.length arguments)
        ++ bindFormals later (arguments.drop formals.length) := by
  induction formals generalizing arguments with
  | nil => simp [fitted]
  | cons formal formals ih =>
    have single := plain formal List.mem_cons_self
    have tail := ih (fun next member => plain next (List.mem_cons_of_mem formal member))
      arguments.tail
    simp [bindFormals, single, tail, fitted]

theorem bindFormals_plain :
    bindFormals formals arguments = (formals.map (·.name)).zip (fitted formals.length arguments) := by
  simpa [bindFormals] using bindFormals_append formals plain arguments []

omit plain

theorem lookup_zip (names : List Text) (values : List Value) (apart : names.Nodup)
    (pair : Text × Value) (member : pair ∈ names.zip values) :
    (names.zip values).lookup pair.1 = some pair.2 := by
  induction names generalizing values with
  | nil => cases member
  | cons name names ih =>
    cases values with
    | nil => cases member
    | cons value values =>
      obtain ⟨fresh, rest⟩ := List.nodup_cons.mp apart
      rcases List.mem_cons.mp member with rfl | later
      · simp
      · have known := (List.of_mem_zip later).1
        have other : pair.1 ≠ name := fun same => fresh (same ▸ known)
        rw [List.zip_cons_cons, List.lookup_cons, beq_false_of_ne other]
        exact ih values rest later

end Scopes

section Meanings

variable (scope : Scope) (name : Text)

theorem find_local (plain : name ∉ keywords) (value : Value)
    (bound : scope.locals.lookup name = some value) : scope.find? name = some value := by
  have other : name ≠ "arguments".toList := by
    rintro rfl
    exact plain (by decide)
  unfold Scope.find?
  rw [if_neg other, if_neg (by simpa using plain), bound]

theorem find_outer (plain : name ∉ keywords) (free : name ∉ scope.locals.map Prod.fst) :
    scope.find? name =
      if name = scope.className then some (.classNamed name) else Scope.imported name := by
  have other : name ≠ "arguments".toList := by
    rintro rfl
    exact plain (by decide)
  have unbound : scope.locals.lookup name = none := by
    rw [List.lookup_eq_none_iff]
    intro pair member
    simpa using fun same : name = pair.1 => free (same ▸ List.mem_map.mpr ⟨pair, member, rfl⟩)
  unfold Scope.find?
  rw [if_neg other, if_neg (by simpa using plain), unbound]

theorem find_arguments : scope.find? "arguments".toList = some (.array scope.arguments) := by
  unfold Scope.find?
  rw [if_pos rfl]

end Meanings

section Values

variable {bridge : Bridge} {scope : Scope} {name : Text} {history middle later : List Effect}

theorem yields_name {value : Value} (found : scope.find? name = some value)
    (history : List Effect) : Yields (evaluate bridge scope (.name name)) history value history := by
  rw [evaluate, found]
  rfl

theorem yields_item {first : Expression} {items : Items} {value : Value} {values : List Value}
    (before : Yields (evaluate bridge scope first) history value middle)
    (behind : Yields (evaluateItems bridge scope items) middle values later) :
    Yields (evaluateItems bridge scope (.item first items)) history (value :: values) later := by
  rw [evaluateItems]
  exact before.bind (behind.bind rfl)

theorem yields_single {first : Expression} {value : Value}
    (before : Yields (evaluate bridge scope first) history value later) :
    Yields (evaluateItems bridge scope (.item first .nil)) history [value] later :=
  yields_item before rfl

theorem yields_spread {list : Expression} {elements : List Value}
    (before : Yields (evaluate bridge scope list) history (.array elements) later) :
    Yields (evaluateItems bridge scope (.spread list .nil)) history elements later := by
  have all : Yields (elementsOf (.array elements)) later elements later := rfl
  have none : Yields (evaluateItems bridge scope .nil) later [] later := rfl
  rw [evaluateItems, ← List.append_nil elements]
  refine before.bind ?_
  refine all.bind ?_
  refine none.bind ?_
  rfl

theorem yields_length {list : Expression} {elements : List Value}
    (before : Yields (evaluate bridge scope list) history (.array elements) later) :
    Yields (evaluate bridge scope (.property list "length".toList)) history
      (.number elements.length) later := by
  rw [evaluate]
  exact before.bind rfl

theorem yields_send {object : Expression} {items : Items} {target value : Value}
    {arguments : List Value} {last : List Effect}
    (before : Yields (evaluate bridge scope object) history target middle)
    (passed : Yields (evaluateItems bridge scope items) middle arguments later)
    (sent : Yields (send target name arguments) later value last) :
    Yields (evaluate bridge scope (.call (.property object name) items)) history value last := by
  rw [evaluate]
  exact before.bind (passed.bind sent)

theorem yields_apply {items : Items} {callee value : Value} {arguments : List Value}
    (found : scope.find? name = some callee)
    (passed : Yields (evaluateItems bridge scope items) history arguments middle)
    (applied : Yields (apply bridge callee arguments) middle value later) :
    Yields (evaluate bridge scope (.call (.name name) items)) history value later :=
  (yields_name found history).bind (passed.bind applied)

theorem yields_construct {items : Items} {callee value : Value} {arguments : List Value}
    (found : scope.find? name = some callee)
    (passed : Yields (evaluateItems bridge scope items) history arguments middle)
    (constructed : Yields (construct callee arguments) middle value later) :
    Yields (evaluate bridge scope (.construct name items)) history value later := by
  rw [evaluate, found]
  have meaning : Yields (resolved (some callee)) history callee history := rfl
  exact meaning.bind (passed.bind constructed)

theorem yields_equal {left right : Expression} {first second : Nat}
    (before : Yields (evaluate bridge scope left) history (.number first) middle)
    (after : Yields (evaluate bridge scope right) middle (.number second) later) :
    Yields (evaluate bridge scope (.equal left right)) history (.boolean (first == second)) later := by
  rw [evaluate]
  exact before.bind (after.bind rfl)

variable (scope) (bridge)

/-- Items that are names yield the values of the names, in front of those of later items. -/
theorem yields_names (names : List Text) (values : List Value)
    (same : names.length = values.length)
    (found : ∀ pair ∈ names.zip values, scope.find? pair.1 = some pair.2) (ending : Items)
    (rest : List Value)
    (behind : ∀ history, Yields (evaluateItems bridge scope ending) history rest history)
    (history : List Effect) :
    Yields
      (evaluateItems bridge scope (names.foldr (fun name later => .item (.name name) later) ending))
      history (values ++ rest) history := by
  induction names generalizing values with
  | nil =>
    cases values with
    | nil => exact behind history
    | cons value values => simp at same
  | cons name names ih =>
    cases values with
    | nil => simp at same
    | cons value values =>
      have later := ih values (by simpa using same)
        fun pair member => found pair (List.mem_cons_of_mem _ member)
      exact yields_item (yields_name (found (name, value) List.mem_cons_self) history) later

end Values

end Reading

end HeaderBindings
