import HeaderBindings.Declaration.Method
import HeaderBindings.Proofs.Token.Nesting
import HeaderBindings.Proofs.Token.Printing

/-!
Method declarations as they are written, and what reading makes of them. The tokens of a written
declaration can be cut in one way only: a name before a colon is a label, a name before anything
else is a parameter, and a name behind the last parameter is a macro.
-/

namespace HeaderBindings

open Method.Reader

/-- Tokens that may stand between parentheses: balanced, and no semicolon ends the declaration. -/
structure Enclosable (tokens : List Token) : Prop where
  balanced : Token.balanced tokens = true
  endless : Token.semicolon ∉ tokens

def enclosed (tokens : List Token) : List Token := .leftParen :: (tokens ++ [.rightParen])

section Written

/-- A component `label:(type)name`; the type may be missing. -/
structure WrittenComponent where
  label : Text
  type? : Option (List Token)
  name : Text
  deriving DecidableEq, Repr

/-- A macro behind a selector, with a call or without. -/
structure WrittenMacro where
  name : Text
  call? : Option (List Token)
  deriving DecidableEq, Repr

inductive WrittenSelector where
  | base (name : Text)
  | components (first : WrittenComponent) (later : List WrittenComponent) (variadic : Bool)
  deriving DecidableEq, Repr

structure WrittenMethod where
  isStatic : Bool
  returnType : List Token
  selector : WrittenSelector
  macros : List WrittenMacro
  deriving DecidableEq, Repr

namespace WrittenComponent

def tokens (component : WrittenComponent) : List Token :=
  .identifier component.label :: .colon
    :: ((component.type?.map enclosed).getD [] ++ [.identifier component.name])

def nativeType (component : WrittenComponent) : NativeType :=
  (component.type?.map NativeType.ofTokens).getD .untyped

def param (component : WrittenComponent) : Parameter :=
  { name := component.name
    type := component.nativeType.name
    nullable := component.nativeType.nullable }

end WrittenComponent

namespace WrittenMacro

def tokens (written : WrittenMacro) : List Token :=
  .identifier written.name :: (written.call?.map enclosed).getD []

/-- The text of an availability call. -/
def availability? (written : WrittenMacro) : Option Text :=
  written.call?.bind (Availability.ofCall? written.name)

end WrittenMacro

namespace WrittenSelector

def parts : WrittenSelector → List WrittenComponent
  | base _ => []
  | components first later _ => first :: later

def tokens : WrittenSelector → List Token
  | base name => [.identifier name]
  | components first later variadic =>
    (first :: later).flatMap WrittenComponent.tokens
      ++ if variadic then [.comma, .ellipsis] else []

def text : WrittenSelector → Text
  | base name => name
  | components first later _ => (first :: later).flatMap fun component => component.label ++ [':']

def params (selector : WrittenSelector) : List Parameter := selector.parts.map WrittenComponent.param

end WrittenSelector

namespace WrittenMethod

def tokens (written : WrittenMethod) : List Token :=
  (if written.isStatic then .plus else .minus) ::
    (enclosed written.returnType ++ written.selector.tokens
      ++ written.macros.flatMap WrittenMacro.tokens)

/-- The method that a declaration declares. -/
def method (written : WrittenMethod) : Method :=
  { selector := written.selector.text
    params := written.selector.params
    returnType := (NativeType.ofTokens written.returnType).name
    returnNullable := (NativeType.ofTokens written.returnType).nullable
    isStatic := written.isStatic
    availability := written.macros.findSome? WrittenMacro.availability? }

/-- What stands between parentheses may stand there. -/
structure Sound (written : WrittenMethod) : Prop where
  returnType : Enclosable written.returnType
  types : ∀ component ∈ written.selector.parts, ∀ type ∈ component.type?, Enclosable type
  calls : ∀ item ∈ written.macros, ∀ call ∈ item.call?, Enclosable call

end WrittenMethod

end Written

section Macros

/-- No name before a colon stands at the front, and no colon. -/
def Unlabelled (tokens : List Token) : Prop := label? tokens = none ∧ tokens.head? ≠ some .colon

theorem nests_enclosed {tokens rest : List Token} (nests : Token.Nests .leftParen .rightParen tokens) :
    Token.parenGroup? (enclosed tokens ++ rest) = some ⟨tokens, true, rest⟩ := by
  simpa [Token.parenGroup?, enclosed] using Token.group_nests (by decide) tokens rest nests

theorem Enclosable.nests {tokens : List Token} (sound : Enclosable tokens) :
    Token.Nests .leftParen .rightParen tokens :=
  (Token.balanced_iff_nests tokens).mp sound.balanced

theorem parenGroup_enclosed (tokens rest : List Token) (sound : Enclosable tokens) :
    Token.parenGroup? (enclosed tokens ++ rest) = some ⟨tokens, true, rest⟩ :=
  nests_enclosed sound.nests

theorem parenGroup_none {tokens : List Token} (other : tokens.head? ≠ some .leftParen) :
    Token.parenGroup? tokens = none := by
  cases tokens with
  | nil => rfl
  | cons token tokens => simpa [Token.parenGroup?, Token.group?] using other

theorem parenGroup_macros (macros : List WrittenMacro) :
    Token.parenGroup? (macros.flatMap WrittenMacro.tokens) = none := by
  cases macros with
  | nil => rfl
  | cons first later => rfl

theorem unlabelled_macros (macros : List WrittenMacro) :
    Unlabelled (macros.flatMap WrittenMacro.tokens) := by
  cases macros with
  | nil => exact ⟨rfl, by simp⟩
  | cons first later =>
    refine ⟨?_, by simp [WrittenMacro.tokens]⟩
    cases call : first.call? with
    | some tokens => simp [WrittenMacro.tokens, call, enclosed, label?]
    | none =>
      cases later with
      | nil => simp [WrittenMacro.tokens, call, label?]
      | cons second later => simp [WrittenMacro.tokens, call, label?]

theorem trailingMacros_bare (name : Text) (rest : List Token)
    (plain : Token.parenGroup? rest = none) :
    trailingMacros (.identifier name :: rest) = trailingMacros rest := by
  rw [trailingMacros]
  split
  · next group found =>
    rw [plain] at found
    cases found
  · rfl

theorem trailingMacros_call (name : Text) (tokens rest : List Token)
    (nests : Token.Nests .leftParen .rightParen tokens) :
    trailingMacros (.identifier name :: (enclosed tokens ++ rest)) =
      (trailingMacros rest).map ((Availability.ofCall? name tokens).or ·) := by
  have group : Token.parenGroup? (enclosed tokens ++ rest) = some ⟨tokens, true, rest⟩ :=
    nests_enclosed nests
  rw [trailingMacros]
  split
  · next found here =>
    rw [group] at here
    cases here
    rfl
  · next none =>
    rw [group] at none
    cases none

/-- A run of macros gives the text of its first availability call. -/
theorem trailingMacros_written (macros : List WrittenMacro)
    (calls : ∀ item ∈ macros, ∀ call ∈ item.call?, Enclosable call) :
    trailingMacros (macros.flatMap WrittenMacro.tokens) =
      .ok (macros.findSome? WrittenMacro.availability?) := by
  induction macros with
  | nil => simp [trailingMacros]
  | cons first later ih =>
    have rest := ih fun next member => calls next (List.mem_cons_of_mem first member)
    cases call : first.call? with
    | none =>
      have text : (first :: later).flatMap WrittenMacro.tokens =
          .identifier first.name :: later.flatMap WrittenMacro.tokens := by
        simp [WrittenMacro.tokens, call]
      -- What follows is a name again or the end, never an opening parenthesis.
      rw [text, trailingMacros_bare _ _ (parenGroup_macros later), rest]
      simp [WrittenMacro.availability?, call]
    | some tokens =>
      have enclosable := calls first List.mem_cons_self tokens (by simp [call])
      have text : (first :: later).flatMap WrittenMacro.tokens =
          .identifier first.name :: (enclosed tokens ++ later.flatMap WrittenMacro.tokens) := by
        simp [WrittenMacro.tokens, call]
      rw [text, trailingMacros_call _ _ _ enclosable.nests, rest]
      cases kept : Availability.ofCall? first.name tokens <;>
        simp [WrittenMacro.availability?, call, kept, Except.map]

end Macros

section Components

theorem componentName_written (type : NativeType) (name : Text) (rest : List Token)
    (other : rest.head? ≠ some .colon) :
    componentName type (.identifier name :: rest) = (⟨type, some name⟩, rest) := by
  unfold componentName
  split
  · next same =>
    cases same
    exact absurd rfl other
  · next same =>
    cases same
    rfl
  · next none => exact absurd rfl (none name rest)

-- What follows a component's colon is its type, if it has one, and its name.
theorem component_written (written : WrittenComponent)
    (types : ∀ type ∈ written.type?, Enclosable type) (rest : List Token)
    (other : rest.head? ≠ some .colon) :
    component ((written.type?.map enclosed).getD [] ++ .identifier written.name :: rest) =
      .ok (⟨written.nativeType, some written.name⟩, rest) := by
  unfold component
  cases type : written.type? with
  | none => simp [Token.parenGroup?, Token.group?, WrittenComponent.nativeType, type,
      componentName_written _ _ rest other]
  | some tokens =>
    have group := parenGroup_enclosed tokens (.identifier written.name :: rest)
      (types tokens (by simp [type]))
    simp [group, WrittenComponent.nativeType, type, componentName_written _ _ rest other]

-- The tail `, ...` ends the components.
theorem components_variadic (label : Text) (tokens rest : List Token) (read : Component)
    (here : component tokens = .ok (read, .comma :: .ellipsis :: rest)) :
    components label tokens = .ok (Signature.addComponent label read ⟨[], [], rest⟩) := by
  rw [components]
  split
  · next fault failed =>
    rw [here] at failed
    cases failed
  · next found tail same =>
    rw [here] at same
    cases same
    rfl
  · next found tail other same =>
    rw [here] at same
    cases same
    exact absurd rfl (other rest)

-- Behind a component stands the label of the next one, or the components end.
theorem components_step (label : Text) (tokens rest : List Token) (read : Component)
    (here : component tokens = .ok (read, rest)) (other : rest.head? ≠ some .comma) :
    components label tokens =
      match label? rest with
      | none => .ok (Signature.addComponent label read ⟨[], [], rest⟩)
      | some (next, rest) => (components next rest).map (Signature.addComponent label read) := by
  rw [components]
  split
  · next fault failed =>
    rw [here] at failed
    cases failed
  · next found tail same =>
    rw [here] at same
    cases same
    exact absurd rfl other
  · next found tail plain same =>
    rw [here] at same
    cases same
    split
    · next none => rw [none]
    · next next rest found => rw [found]

/-- Written components, an optional tail and macros are cut where they were put together. -/
theorem components_written (first : WrittenComponent) (later : List WrittenComponent)
    (variadic : Bool) (types : ∀ written ∈ first :: later, ∀ type ∈ written.type?, Enclosable type)
    (rest : List Token) (unlabelled : Unlabelled rest) (other : rest.head? ≠ some .comma) :
    components first.label
        ((first.type?.map enclosed).getD [] ++ .identifier first.name ::
          (later.flatMap WrittenComponent.tokens
            ++ ((if variadic then [.comma, .ellipsis] else []) ++ rest))) =
      .ok ⟨(first :: later).flatMap fun component => component.label ++ [':'],
        (first :: later).map WrittenComponent.param, rest⟩ := by
  -- By the components behind the first one, whose label and colon have been read already.
  induction later generalizing first with
  | nil =>
    cases variadic with
    | true =>
      have read := component_written first (types first List.mem_cons_self)
        (.comma :: .ellipsis :: rest) (by simp)
      rw [List.flatMap_nil, List.nil_append, if_pos rfl, List.cons_append, List.cons_append,
        List.nil_append, components_variadic _ _ rest _ read]
      simp [Signature.addComponent, Component.param?, WrittenComponent.param]
    | false =>
      have read := component_written first (types first List.mem_cons_self) rest unlabelled.2
      rw [List.flatMap_nil, List.nil_append, if_neg (by simp), List.nil_append,
        components_step _ _ rest _ read other, unlabelled.1]
      simp [Signature.addComponent, Component.param?, WrittenComponent.param]
  | cons second later ih =>
    have tail := ih second fun written member => types written (List.mem_cons_of_mem first member)
    let behind := (second.type?.map enclosed).getD [] ++ .identifier second.name ::
      (later.flatMap WrittenComponent.tokens
        ++ ((if variadic then [.comma, .ellipsis] else []) ++ rest))
    have text : (second :: later).flatMap WrittenComponent.tokens
        ++ ((if variadic then [.comma, .ellipsis] else []) ++ rest) =
          .identifier second.label :: .colon :: behind := by
      simp [behind, WrittenComponent.tokens]
    -- The first name is a parameter, since a name and no colon stands behind it.
    have read := component_written first (types first List.mem_cons_self)
      (.identifier second.label :: .colon :: behind) (by simp)
    rw [text, components_step _ _ _ _ read (by simp)]
    simp only [label?, behind, tail, Except.map]
    simp [Signature.addComponent, Component.param?, WrittenComponent.param]

end Components

section Methods

theorem comma_macros (macros : List WrittenMacro) :
    (macros.flatMap WrittenMacro.tokens).head? ≠ some .comma := by
  cases macros with
  | nil => simp
  | cons first later => simp [WrittenMacro.tokens]

theorem signature_written (selector : WrittenSelector) (macros : List WrittenMacro)
    (types : ∀ component ∈ selector.parts, ∀ type ∈ component.type?, Enclosable type) :
    signature (selector.tokens ++ macros.flatMap WrittenMacro.tokens) =
      .ok ⟨selector.text, selector.params, macros.flatMap WrittenMacro.tokens⟩ := by
  have unlabelled := unlabelled_macros macros
  cases selector with
  | base name =>
    simp only [WrittenSelector.tokens, List.cons_append, List.nil_append]
    unfold signature
    split
    · next same =>
      rw [(List.cons.inj same).2] at unlabelled
      exact absurd rfl unlabelled.2
    · next same =>
      cases same
      rfl
    · next none => exact absurd rfl (none name _)
  | components first later variadic =>
    have read := components_written first later variadic types _ unlabelled (comma_macros macros)
    simpa [WrittenSelector.tokens, WrittenComponent.tokens, WrittenSelector.text,
      WrittenSelector.params, WrittenSelector.parts, signature] using read

theorem method_sign (isStatic : Bool) (tokens : List Token) :
    Method.Reader.method ((if isStatic then .plus else .minus) :: tokens) =
      afterSign isStatic tokens := by
  cases isStatic <;> rfl

/-- A method is read from its sign, its return type, what its selector is read from, and macros. -/
theorem method_around (isStatic : Bool) (type selected : List Token) (macros : List WrittenMacro)
    (sound : Enclosable type) (calls : ∀ item ∈ macros, ∀ call ∈ item.call?, Enclosable call)
    (selector : Text) (params : List Parameter)
    (read : signature (selected ++ macros.flatMap WrittenMacro.tokens) =
      .ok ⟨selector, params, macros.flatMap WrittenMacro.tokens⟩) :
    Method.Reader.method ((if isStatic then .plus else .minus) ::
        (enclosed type ++ selected ++ macros.flatMap WrittenMacro.tokens)) =
      .ok { selector := selector
            params := params
            returnType := (NativeType.ofTokens type).name
            returnNullable := (NativeType.ofTokens type).nullable
            isStatic := isStatic
            availability := macros.findSome? WrittenMacro.availability? } := by
  have group := parenGroup_enclosed type (selected ++ macros.flatMap WrittenMacro.tokens) sound
  rw [method_sign, List.append_assoc, afterSign, returnType, group]
  simp only [bind, Except.bind, if_pos, read, trailingMacros_written _ calls]
  rfl

/-- Reading the tokens of a written method gives the method that it declares. -/
theorem method_written (written : WrittenMethod) (sound : written.Sound) :
    Method.Reader.method written.tokens = .ok written.method :=
  method_around written.isStatic written.returnType written.selector.tokens written.macros
    sound.returnType sound.calls _ _ (signature_written _ _ sound.types)

theorem endless_enclosed (tokens : List Token) (sound : Enclosable tokens) :
    Token.semicolon ∉ enclosed tokens := by
  simpa [enclosed] using sound.endless

theorem endless_optional (group? : Option (List Token))
    (sound : ∀ group ∈ group?, Enclosable group) :
    Token.semicolon ∉ (group?.map enclosed).getD [] := by
  cases group? with
  | none => simp
  | some group => exact endless_enclosed group (sound group rfl)

theorem endless_selector (selector : WrittenSelector)
    (types : ∀ component ∈ selector.parts, ∀ type ∈ component.type?, Enclosable type) :
    Token.semicolon ∉ selector.tokens := by
  cases selector with
  | base name => simp [WrittenSelector.tokens]
  | components first later variadic =>
    intro member
    rcases List.mem_append.mp member with inside | tail
    · obtain ⟨component, own, here⟩ := List.mem_flatMap.mp inside
      have type := endless_optional component.type? (types component own)
      simp [WrittenComponent.tokens, type] at here
    · cases variadic <;> simp at tail

theorem endless_macros (macros : List WrittenMacro)
    (calls : ∀ item ∈ macros, ∀ call ∈ item.call?, Enclosable call) :
    Token.semicolon ∉ macros.flatMap WrittenMacro.tokens := by
  intro member
  obtain ⟨item, own, here⟩ := List.mem_flatMap.mp member
  have call := endless_optional item.call? (calls item own)
  simp [WrittenMacro.tokens, call] at here

theorem endless_around (isStatic : Bool) (type selected : List Token) (macros : List WrittenMacro)
    (sound : Enclosable type) (calls : ∀ item ∈ macros, ∀ call ∈ item.call?, Enclosable call)
    (endless : Token.semicolon ∉ selected) :
    Token.semicolon ∉ (if isStatic then .plus else .minus) ::
      (enclosed type ++ selected ++ macros.flatMap WrittenMacro.tokens) := by
  have sign : Token.semicolon ≠ if isStatic then Token.plus else .minus := by
    cases isStatic <;> simp
  simp [sign, endless_enclosed _ sound, endless, endless_macros _ calls]

theorem endless_tokens (written : WrittenMethod) (sound : written.Sound) :
    Token.semicolon ∉ written.tokens :=
  endless_around _ _ _ _ sound.returnType sound.calls (endless_selector _ sound.types)

-- The first semicolon of a declaration is the one behind it.
theorem untilSemicolon_ending (tokens ending : List Token) (endless : Token.semicolon ∉ tokens)
    (ends : ending = [] ∨ ending = [.semicolon]) :
    untilSemicolon (tokens ++ ending) = tokens := by
  have inner : ∀ token ∈ tokens, (token != .semicolon) = true := by
    intro token member
    simpa using fun same : token = .semicolon => endless (same ▸ member)
  rw [untilSemicolon, List.takeWhile_append_of_pos inner]
  rcases ends with rfl | rfl <;> simp

theorem untilSemicolon_written (written : WrittenMethod) (sound : written.Sound)
    (ending : List Token) (ends : ending = [] ∨ ending = [.semicolon]) :
    untilSemicolon (written.tokens ++ ending) = written.tokens :=
  untilSemicolon_ending _ ending (endless_tokens written sound) ends

/-- A written method is read back from every print of it with gaps that are skipped, with a semicolon or
without. -/
theorem parse_of_prints (written : WrittenMethod) (sound : written.Sound) (ending : List Token)
    (ends : ending = [] ∨ ending = [.semicolon]) (declaration : Text)
    (prints : Token.Prints (written.tokens ++ ending) declaration) :
    Method.parse declaration = .ok written.method := by
  rw [Method.parse, Token.lex_of_prints _ _ prints, untilSemicolon_written written sound ending ends,
    method_written written sound]
  rfl

theorem parse_of_prints_move :
    let written : WrittenMethod :=
      { isStatic := false
        returnType := [.identifier "void".toList]
        selector := .components
          ⟨"move".toList, some [.identifier "nullable".toList, .identifier "id".toList],
            "target".toList⟩
          [⟨"by".toList, none, "step".toList⟩] true
        macros := [⟨"API_AVAILABLE".toList, some [.identifier "macos".toList, .leftParen,
          .number "12".toList, .rightParen]⟩] }
    let declaration :=
      "- ( void ) move : ( nullable id ) target by : step , ... API_AVAILABLE ( macos ( 12 ) ) ; ".toList
    written.Sound ∧ Token.Prints (written.tokens ++ [.semicolon]) declaration
      ∧ Method.parse declaration = .ok written.method := by
  intro written declaration
  have sound : written.Sound := by
    refine ⟨⟨by decide, by decide⟩, ?_, ?_⟩
    · intro component member type own
      simp [written, WrittenSelector.parts] at member
      rcases member with rfl | rfl <;> cases own
      exact ⟨by decide, by decide⟩
    · intro item member call own
      simp [written] at member
      subst member
      cases own
      exact ⟨by decide, by decide⟩
  have prints : Token.Prints (written.tokens ++ [.semicolon]) declaration := by
    refine Token.prints_spaced (written.tokens ++ [.semicolon]) fun token member => ?_
    simp [written, WrittenMethod.tokens, enclosed, WrittenSelector.tokens, WrittenComponent.tokens,
      WrittenMacro.tokens] at member
    rcases member with rfl | rfl | rfl | rfl | rfl | rfl | rfl | rfl | rfl | rfl | rfl | rfl | rfl |
      rfl | rfl | rfl | rfl | rfl | rfl | rfl | rfl | rfl | rfl
    all_goals first
      | exact .mark rfl
      | exact .ellipsis
      | exact .identifier (by decide) (List.all_eq_true.mp rfl)
      | exact .number (by decide) (by decide)
  exact ⟨sound, prints, parse_of_prints written sound [.semicolon] (Or.inr rfl) declaration prints⟩

/-- A text that tokens are printed to, with any white space before, between and behind them, whether it
is skipped or not. -/
inductive Token.PrintsLoosely : List Token → Text → Prop where
  | done {gap : Text} (blank : ∀ c ∈ gap, isBlank c = true) : PrintsLoosely [] gap
  | next {token : Token} {tokens : List Token} {gap text rest : Text}
      (blank : ∀ c ∈ gap, isBlank c = true) (spells : Spells token text) (ends : Ends token rest)
      (later : PrintsLoosely tokens rest) : PrintsLoosely (token :: tokens) (gap ++ text ++ rest)

/-- White space that is not skipped is a token of its own: with a vertical tab in front of its name, a
method has no selector. -/
theorem vertical_tab_hides_selector :
    let written : WrittenMethod :=
      { isStatic := false, returnType := [.identifier "void".toList], selector := .base "a".toList,
        macros := [] }
    let declaration := "- (void)\x0ba;".toList
    written.Sound ∧ Token.PrintsLoosely (written.tokens ++ [.semicolon]) declaration ∧
      Method.parse declaration = .error (.member declaration .noSelector) := by
  intro written declaration
  have type : Token.Spells (.identifier "void".toList) "void".toList :=
    .identifier (by decide) (by decide)
  have name : Token.Spells (.identifier "a".toList) "a".toList := .identifier (by decide) (by decide)
  have prints : Token.PrintsLoosely (written.tokens ++ [.semicolon])
      ([] ++ ['-'] ++ ([' '] ++ ['('] ++ ([] ++ "void".toList ++ ([] ++ [')'] ++
        (['\x0b'] ++ "a".toList ++ ([] ++ [';'] ++ [])))))) := by
    apply Token.PrintsLoosely.next (by decide) (.mark rfl)
    · trivial
    apply Token.PrintsLoosely.next (by decide) (.mark rfl)
    · trivial
    apply Token.PrintsLoosely.next (by decide) type
    · simp [Token.Ends, Token.isNameChar]
    apply Token.PrintsLoosely.next (by decide) (.mark rfl)
    · trivial
    apply Token.PrintsLoosely.next (by decide) name
    · simp [Token.Ends, Token.isNameChar]
    apply Token.PrintsLoosely.next (by decide) (.mark rfl)
    · trivial
    exact .done (by decide)
  have read : lex declaration = [.minus, .leftParen, .identifier "void".toList, .rightParen, .unknown,
      .identifier "a".toList, .semicolon] := by decide +kernel
  refine ⟨⟨⟨by decide, by decide⟩, by simp [written, WrittenSelector.parts], by simp [written]⟩, prints, ?_⟩
  rw [Method.parse, read]
  rfl

end Methods

end HeaderBindings
