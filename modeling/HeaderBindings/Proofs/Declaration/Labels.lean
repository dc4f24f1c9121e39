import HeaderBindings.Proofs.Declaration.Method
import HeaderBindings.Proofs.Token.Rendering

/-!
Method declarations in which labels behind the first one may be empty, so that bare colons are written.
A name before a colon is read as a label whether or not it is a parameter's name, so that each bare
colon takes the name before it for its label, and the parameter of that name is lost.
-/

namespace HeaderBindings

open Method.Reader

section Written

/-- The tokens of a component whose label may be empty. -/
def WrittenComponent.bareTokens (component : WrittenComponent) : List Token :=
  (if component.label.isEmpty then [] else [.identifier component.label]) ++
    .colon :: ((component.type?.map enclosed).getD [] ++ [.identifier component.name])

/-- A method with components, in which only the first label has to be there. -/
structure LabelledMethod where
  isStatic : Bool
  returnType : List Token
  first : WrittenComponent
  later : List WrittenComponent
  variadic : Bool
  macros : List WrittenMacro
  deriving DecidableEq, Repr

/-- The labels and the parameters that components are read as: behind a label, a component whose name
stands before a bare colon leaves its name to the next one. -/
def readParts (label : Text) (here : WrittenComponent) :
    List WrittenComponent → List (Text × Option Parameter)
  | [] => [(label, some here.param)]
  | next :: later =>
    if next.label.isEmpty then (label, none) :: readParts here.name next later
    else (label, some here.param) :: readParts next.label next later

namespace LabelledMethod

variable (written : LabelledMethod)

def parts : List WrittenComponent := written.first :: written.later

def tokens : List Token :=
  (if written.isStatic then .plus else .minus) ::
    (enclosed written.returnType ++ (written.parts.flatMap WrittenComponent.bareTokens
      ++ (if written.variadic then [.comma, .ellipsis] else []))
      ++ written.macros.flatMap WrittenMacro.tokens)

/-- The selector and the parameters that a declaration declares. -/
def selector : Text := written.parts.flatMap fun component => component.label ++ [':']

def params : List Parameter := written.parts.map WrittenComponent.param

/-- The method that a declaration is read as. -/
def method : Method :=
  let parts := readParts written.first.label written.first written.later
  { selector := parts.flatMap fun part => part.1 ++ [':']
    params := parts.filterMap (·.2)
    returnType := (NativeType.ofTokens written.returnType).name
    returnNullable := (NativeType.ofTokens written.returnType).nullable
    isStatic := written.isStatic
    availability := written.macros.findSome? WrittenMacro.availability? }

structure Sound : Prop where
  returnType : Enclosable written.returnType
  labelled : written.first.label ≠ []
  types : ∀ component ∈ written.parts, ∀ type ∈ component.type?, Enclosable type
  calls : ∀ item ∈ written.macros, ∀ call ∈ item.call?, Enclosable call

/-- No bare colon is written. -/
def Labelled : Prop := ∀ component ∈ written.later, component.label ≠ []

end LabelledMethod

end Written

section Reading

-- A name before a colon is no parameter.
theorem component_before_colon (written : WrittenComponent)
    (types : ∀ type ∈ written.type?, Enclosable type) (rest : List Token) :
    component ((written.type?.map enclosed).getD [] ++ .identifier written.name :: .colon :: rest) =
      .ok (⟨written.nativeType, none⟩, .identifier written.name :: .colon :: rest) := by
  unfold component
  cases type : written.type? with
  | none => simp [Token.parenGroup?, Token.group?, WrittenComponent.nativeType, type, componentName]
  | some tokens =>
    have group := parenGroup_enclosed tokens (.identifier written.name :: .colon :: rest)
      (types tokens (by simp [type]))
    simp [group, WrittenComponent.nativeType, type, componentName]

/-- Components behind a label that has been read are cut at the colons. -/
theorem components_bare (label : Text) (here : WrittenComponent) (later : List WrittenComponent)
    (variadic : Bool) (types : ∀ written ∈ here :: later, ∀ type ∈ written.type?, Enclosable type)
    (rest : List Token) (unlabelled : Unlabelled rest) (other : rest.head? ≠ some .comma) :
    components label
        ((here.type?.map enclosed).getD [] ++ .identifier here.name ::
          (later.flatMap WrittenComponent.bareTokens
            ++ ((if variadic then [.comma, .ellipsis] else []) ++ rest))) =
      .ok ⟨(readParts label here later).flatMap fun part => part.1 ++ [':'],
        (readParts label here later).filterMap (·.2), rest⟩ := by
  induction later generalizing label here with
  | nil =>
    -- A single component is read alike, whatever its label is.
    have single := components_written { here with label := label } [] variadic
      (by simpa using types here List.mem_cons_self) rest unlabelled other
    simpa [readParts, WrittenComponent.param, WrittenComponent.nativeType] using single
  | cons next later ih =>
    have own := types here List.mem_cons_self
    have tail (label : Text) := ih label next fun written member =>
      types written (List.mem_cons_of_mem here member)
    let behind := (next.type?.map enclosed).getD [] ++ .identifier next.name ::
      (later.flatMap WrittenComponent.bareTokens
        ++ ((if variadic then [.comma, .ellipsis] else []) ++ rest))
    by_cases bare : next.label.isEmpty = true
    · have text : (next :: later).flatMap WrittenComponent.bareTokens
          ++ ((if variadic then [.comma, .ellipsis] else []) ++ rest) = .colon :: behind := by
        simp [behind, WrittenComponent.bareTokens, bare]
      rw [text, components_step _ _ _ _ (component_before_colon here own behind) (by simp)]
      simp only [label?, behind, tail, Except.map]
      simp [readParts, bare, Signature.addComponent, Component.param?]
    · have text : (next :: later).flatMap WrittenComponent.bareTokens
          ++ ((if variadic then [.comma, .ellipsis] else []) ++ rest) =
            .identifier next.label :: .colon :: behind := by
        simp [behind, WrittenComponent.bareTokens, bare]
      have read := component_written here own (.identifier next.label :: .colon :: behind) (by simp)
      rw [text, components_step _ _ _ _ read (by simp)]
      simp only [label?, behind, tail, Except.map]
      simp [readParts, bare, Signature.addComponent, Component.param?, WrittenComponent.param]

theorem signature_labelled (written : LabelledMethod) (sound : written.Sound) :
    signature (written.parts.flatMap WrittenComponent.bareTokens
        ++ (if written.variadic then [.comma, .ellipsis] else [])
        ++ written.macros.flatMap WrittenMacro.tokens) =
      .ok ⟨written.method.selector, written.method.params,
        written.macros.flatMap WrittenMacro.tokens⟩ := by
  have read := components_bare written.first.label written.first written.later written.variadic
    sound.types _ (unlabelled_macros written.macros) (comma_macros written.macros)
  simpa [LabelledMethod.parts, WrittenComponent.bareTokens, sound.labelled, signature,
    LabelledMethod.method] using read

theorem method_labelled (written : LabelledMethod) (sound : written.Sound) :
    Method.Reader.method written.tokens = .ok written.method :=
  method_around written.isStatic written.returnType _ written.macros sound.returnType sound.calls _ _
    (signature_labelled written sound)

theorem endless_labelled (written : LabelledMethod) (sound : written.Sound) :
    Token.semicolon ∉ written.tokens := by
  have parts : Token.semicolon ∉ written.parts.flatMap WrittenComponent.bareTokens := by
    intro member
    obtain ⟨component, own, here⟩ := List.mem_flatMap.mp member
    have type := endless_optional component.type? (sound.types component own)
    by_cases bare : component.label.isEmpty = true <;>
      simp [WrittenComponent.bareTokens, bare, type] at here
  refine endless_around _ _ _ _ sound.returnType sound.calls ?_
  cases written.variadic <;> simp [parts]

end Reading

section Counts

/-- Each bare colon costs one parameter. -/
theorem length_readParams (label : Text) (here : WrittenComponent) (later : List WrittenComponent) :
    ((readParts label here later).filterMap (·.2)).length + later.countP (·.label.isEmpty) =
      later.length + 1 := by
  induction later generalizing label here with
  | nil => simp [readParts]
  | cons next later ih =>
    by_cases bare : next.label.isEmpty = true
    · have tail := ih here.name next
      simp only [readParts, bare, if_pos, List.filterMap_cons_none, List.countP_cons, List.length_cons]
      omega
    · have tail := ih next.label next
      simp [readParts, bare]
      omega

-- A name is longer than the empty label that it is read for.
theorem length_readSelector (label : Text) (here : WrittenComponent) (later : List WrittenComponent)
    (named : ∀ component ∈ here :: later, component.name ≠ []) :
    (label ++ ':' :: later.flatMap fun component => component.label ++ [':']).length
        + later.countP (·.label.isEmpty) ≤
      ((readParts label here later).flatMap fun part => part.1 ++ [':']).length := by
  induction later generalizing label here with
  | nil => simp [readParts]
  | cons next later ih =>
    have rest := fun component member => named component (List.mem_cons_of_mem here member)
    by_cases bare : next.label.isEmpty = true
    · have tail := ih here.name next rest
      have name := List.length_pos_iff.mpr (named here List.mem_cons_self)
      simp only [List.isEmpty_iff] at bare
      simp [readParts, bare] at tail ⊢
      omega
    · have tail := ih next.label next rest
      simp [readParts, bare] at tail ⊢
      omega

/-- No colon is lost. -/
theorem count_readSelector (label : Text) (here : WrittenComponent) (later : List WrittenComponent)
    (free : ':' ∉ label)
    (plain : ∀ component ∈ here :: later, ':' ∉ component.label ∧ ':' ∉ component.name) :
    ((readParts label here later).flatMap fun part => part.1 ++ [':']).count ':' =
      later.length + 1 := by
  induction later generalizing label here with
  | nil => simp [readParts, List.count_eq_zero.mpr free]
  | cons next later ih =>
    have rest := fun component member => plain component (List.mem_cons_of_mem here member)
    by_cases bare : next.label.isEmpty = true
    · have tail := ih here.name next (plain here List.mem_cons_self).2 rest
      simp [readParts, bare, List.count_eq_zero.mpr free, tail]
    · have tail := ih next.label next (rest next List.mem_cons_self).1 rest
      simp [readParts, bare, List.count_eq_zero.mpr free, tail]

theorem readParts_labelled (label : Text) (here : WrittenComponent) (later : List WrittenComponent)
    (labelled : ∀ component ∈ later, component.label ≠ []) :
    readParts label here later =
      (label, some here.param) :: later.map fun component => (component.label, some component.param) := by
  induction later generalizing label here with
  | nil => rfl
  | cons next later ih =>
    have first := labelled next List.mem_cons_self
    have tail := ih next.label next fun component member =>
      labelled component (List.mem_cons_of_mem next member)
    simp [readParts, first, tail]

theorem readParts_head (label : Text) (here : WrittenComponent) (later : List WrittenComponent) :
    ∃ param? rest, readParts label here later = (label, param?) :: rest := by
  cases later with
  | nil => exact ⟨_, _, rfl⟩
  | cons next later =>
    by_cases bare : next.label.isEmpty = true <;> simp [readParts, bare]

end Counts

section Declarations

variable (written : LabelledMethod)

/-- How many bare colons are written. -/
def LabelledMethod.bareColons : Nat := written.later.countP (·.label.isEmpty)

theorem LabelledMethod.labelled_iff : written.Labelled ↔ written.bareColons = 0 := by
  simp [LabelledMethod.Labelled, LabelledMethod.bareColons, List.countP_eq_zero]

/-- Labels and names as the lexer gives them. -/
def LabelledMethod.Plain : Prop :=
  ∀ component ∈ written.parts, ':' ∉ component.label ∧ ':' ∉ component.name ∧ component.name ≠ []

theorem colon_notMem_name {name : Text} (spelled : Token.Spells (.identifier name) name) :
    ':' ∉ name := fun member => by
  have colon := Token.chars_of_name spelled ':' member
  cases colon

theorem LabelledMethod.plain (lexed : ∀ token ∈ written.tokens, token.Lexed) : written.Plain := by
  intro component member
  have own (token : Token) (here : token ∈ component.bareTokens) : token.Lexed :=
    lexed token (by
      simp only [LabelledMethod.tokens, List.mem_cons, List.mem_append, List.mem_flatMap]
      exact Or.inr (Or.inl (Or.inr (Or.inl ⟨component, member, here⟩))))
  have name := (own (.identifier component.name) (by simp [WrittenComponent.bareTokens])).spelled
  refine ⟨?_, colon_notMem_name name, Token.name_ne_nil name⟩
  by_cases bare : component.label.isEmpty = true
  · simp [List.isEmpty_iff.mp bare]
  · have label := own (.identifier component.label) (by simp [WrittenComponent.bareTokens, bare])
    exact colon_notMem_name label.spelled

theorem LabelledMethod.colonCount_method (plain : written.Plain) :
    written.method.colonCount = written.parts.length :=
  count_readSelector _ _ _ (plain written.first List.mem_cons_self).1
    fun component member => ⟨(plain component member).1, (plain component member).2.1⟩

theorem LabelledMethod.arity_method :
    written.method.arity + written.bareColons = written.parts.length :=
  length_readParams written.first.label written.first written.later

theorem LabelledMethod.selector_method_iff (plain : written.Plain) :
    written.method.selector = written.selector ↔ written.Labelled := by
  constructor
  · intro same
    have longer := length_readSelector written.first.label written.first written.later
      fun component member => (plain component member).2.2
    have length := congrArg List.length same
    rw [written.labelled_iff]
    simp only [LabelledMethod.method, LabelledMethod.selector, LabelledMethod.parts,
      List.flatMap_cons, List.append_assoc, List.singleton_append] at length
    rw [length] at longer
    simp only [LabelledMethod.bareColons]
    omega
  · intro labelled
    simp [LabelledMethod.method, LabelledMethod.selector, LabelledMethod.parts,
      readParts_labelled _ _ _ labelled, List.flatMap_map]

theorem LabelledMethod.params_method_iff :
    written.method.params = written.params ↔ written.Labelled := by
  constructor
  · intro same
    have lost := written.arity_method
    rw [Method.arity, same, LabelledMethod.params, List.length_map] at lost
    exact written.labelled_iff.mpr (by omega)
  · intro labelled
    simp [LabelledMethod.method, LabelledMethod.params, LabelledMethod.parts,
      readParts_labelled _ _ _ labelled, List.filterMap_map]

theorem LabelledMethod.wellFormed_method_iff (sound : written.Sound) (plain : written.Plain) :
    written.method.wellFormed = true ↔ written.Labelled := by
  have base : written.method.baseName.isEmpty = false := by
    obtain ⟨param?, rest, parts⟩ := readParts_head written.first.label written.first written.later
    have free := (plain written.first List.mem_cons_self).1
    obtain ⟨c, label, first⟩ := List.exists_cons_of_ne_nil sound.labelled
    have other : (c != ':') = true := by
      simpa using fun same : c = ':' => free (by simp [first, same])
    rw [first] at parts
    simp [Method.baseName, LabelledMethod.method, first, parts, other]
  have lost := written.arity_method
  rw [Method.wellFormed, base, written.colonCount_method plain, written.labelled_iff]
  simp only [Bool.not_false, Bool.true_and, beq_iff_eq]
  omega

/-- A declaration is read whether or not bare colons are written, and no colon is lost; but the
selector and the parameters are those that are declared, and the method is well formed, if and only if
no bare colon is written. -/
theorem parse_labelled (sound : written.Sound) (ending : List Token)
    (ends : ending = [] ∨ ending = [.semicolon]) (declaration : Text)
    (lexed : lex declaration = written.tokens ++ ending) :
    Method.parse declaration = .ok written.method ∧
      written.method.colonCount = written.parts.length ∧
      written.method.arity + written.bareColons = written.parts.length ∧
      (written.method.selector = written.selector ↔ written.Labelled) ∧
      (written.method.params = written.params ↔ written.Labelled) ∧
      (written.method.wellFormed = true ↔ written.Labelled) := by
  have plain := written.plain fun token member =>
    Token.lexed_of_mem declaration token (lexed ▸ List.mem_append_left _ member)
  refine ⟨?_, written.colonCount_method plain, written.arity_method,
    written.selector_method_iff plain, written.params_method_iff,
    written.wellFormed_method_iff sound plain⟩
  rw [Method.parse, lexed, untilSemicolon_ending _ ending (endless_labelled written sound) ends,
    method_labelled written sound]
  rfl

def bareMove : LabelledMethod where
  isStatic := false
  returnType := [.identifier "void".toList]
  first := ⟨"move".toList, some [.identifier "float".toList], "x".toList⟩
  later := [⟨[], some [.identifier "float".toList], "y".toList⟩]
  variadic := false
  macros := []

theorem bareMove_sound : bareMove.Sound where
  returnType := ⟨by decide, by decide⟩
  labelled := by decide
  types := by
    intro component member type own
    simp only [LabelledMethod.parts, bareMove, List.mem_cons, List.not_mem_nil, or_false] at member
    rcases member with rfl | rfl <;> cases own <;> exact ⟨by decide, by decide⟩
  calls := by simp [bareMove]

theorem bareMove_lexed :
    lex "- (void)move:(float)x :(float)y;".toList = bareMove.tokens ++ [.semicolon] := by
  decide +kernel

theorem parse_labelled_move :
    let declaration := "- (void)move:(float)x :(float)y;".toList
    bareMove.Sound ∧ lex declaration = bareMove.tokens ++ [.semicolon] ∧
      Method.parse declaration = .ok bareMove.method ∧
      bareMove.method.colonCount = bareMove.parts.length ∧
      bareMove.method.arity + bareMove.bareColons = bareMove.parts.length ∧
      (bareMove.method.selector = bareMove.selector ↔ bareMove.Labelled) ∧
      (bareMove.method.params = bareMove.params ↔ bareMove.Labelled) ∧
      (bareMove.method.wellFormed = true ↔ bareMove.Labelled) :=
  ⟨bareMove_sound, bareMove_lexed,
    parse_labelled bareMove bareMove_sound [.semicolon] (Or.inr rfl) _ bareMove_lexed⟩

/-- The parameter in front of a bare colon is lost to the selector. -/
theorem bare_colon_misread :
    ¬ ∀ (written : LabelledMethod) (declaration : Text), written.Sound →
      lex declaration = written.tokens ++ [.semicolon] →
      (∃ component ∈ written.later, component.label = []) →
        ∃ method, Method.parse declaration = .ok method ∧ method.selector = written.selector ∧
          method.params.map (·.name) = written.parts.map (·.name) ∧ method.wellFormed = true := by
  intro rebuilt
  obtain ⟨method, read, selector, _⟩ := rebuilt bareMove _ bareMove_sound bareMove_lexed (by decide)
  have moved : Method.parse "- (void)move:(float)x :(float)y;".toList = .ok bareMove.method := by
    rw [Method.parse, bareMove_lexed,
      untilSemicolon_ending _ _ (endless_labelled _ bareMove_sound) (Or.inr rfl),
      method_labelled _ bareMove_sound]
    rfl
  cases moved.symm.trans read
  exact absurd selector (by decide)

end Declarations

end HeaderBindings
