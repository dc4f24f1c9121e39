import HeaderBindings.Declaration.Property
import HeaderBindings.Proofs.Checked.Tokens
import HeaderBindings.Proofs.Declaration.Feeds
import HeaderBindings.Proofs.Token.Nesting
import Mathlib.Data.List.TakeWhile

/-!
Members read by places. Each reader at a cursor follows the reader of the tokens from there on, with
the same value or the same fault. Loops are given as many rounds as there are tokens.
-/

namespace HeaderBindings

namespace Checked

/-- A reader that may find a fault, with checked accesses. -/
abbrev Reading (ε α : Type) := ExceptT ε Checked α

variable {α β γ δ ε : Type}

/-- Reading is never trapped: it ends with a fault where the result is that fault, and with a value
that agrees where the result is a value. -/
inductive Follows (agree : α → β → Prop) : Reading ε α → Except ε β → Prop where
  | value {read : α} {result : β} (same : agree read result) :
      Follows agree (pure read) (.ok result)
  | fault (fault : ε) : Follows agree (throw fault) (.error fault)

theorem Follows.bind {agree : α → β → Prop} {agree' : γ → δ → Prop} {reading : Reading ε α}
    {result : Except ε β} {next : α → Reading ε γ} {next' : β → Except ε δ}
    (first : Follows agree reading result)
    (later : ∀ read value, agree read value → Follows agree' (next read) (next' value)) :
    Follows agree' (reading >>= next) (result >>= next') := by
  cases first with
  | value same => exact later _ _ same
  | fault fault => exact .fault fault

theorem Follows.map {agree : α → β → Prop} {agree' : γ → δ → Prop} {reading : Reading ε α}
    {result : Except ε β} {next : α → Reading ε γ} {change : β → δ}
    (first : Follows agree reading result)
    (later : ∀ read value, agree read value → Follows agree' (next read) (.ok (change value))) :
    Follows agree' (reading >>= next) (result.map change) := by
  cases first with
  | value same => exact later _ _ same
  | fault fault => exact .fault fault

theorem Follows.faulted {agree : α → β → Prop} {reading : Reading ε α} {fault : ε}
    (follows : Follows agree reading (.error fault)) : reading = throw fault := by
  cases follows
  rfl

theorem Follows.valued {agree : α → β → Prop} {reading : Reading ε α} {value : β}
    (follows : Follows agree reading (.ok value)) : ∃ read, reading = pure read ∧ agree read value := by
  cases follows with
  | value same => exact ⟨_, rfl, same⟩

theorem Follows.run {reading : Reading ε α} {result : Except ε α}
    (follows : Follows (· = ·) reading result) : reading.run = .ok result := by
  cases follows with
  | value same => exact same ▸ rfl
  | fault fault => rfl

/-- An access in range, and what is read after it. -/
theorem Follows.access {agree : γ → β → Prop} {access : Checked α} {value : α}
    (inRange : access = .ok value) {next : α → Reading ε γ} {result : Except ε β}
    (later : Follows agree (next value) result) :
    Follows agree (liftM access >>= next) result := by
  subst inRange
  exact later

/-- The same value, and a cursor in front of the tokens that are left. -/
structure Reads (read : α × Cursor) (result : α × List Token) : Prop where
  value : read.1 = result.1
  rest : read.2.Before result.2

/-- What is read after a value, from a cursor in front of the tokens that are left. -/
theorem Follows.bind_reads {agree : γ → δ → Prop} {reading : Reading ε (α × Cursor)}
    {result : Except ε (α × List Token)} {next : α × Cursor → Reading ε γ}
    {next' : α × List Token → Except ε δ} (first : Follows Reads reading result)
    (later : ∀ value cursor tokens, cursor.Before tokens →
      Follows agree (next (value, cursor)) (next' (value, tokens))) :
    Follows agree (reading >>= next) (result >>= next') := by
  refine first.bind fun read result same => ?_
  obtain ⟨value, cursor⟩ := read
  obtain ⟨own, tokens⟩ := result
  obtain ⟨rfl, before⟩ := same
  exact later value cursor tokens before

def untilSemicolon (tokens : List Token) : Checked (List Token) :=
  match tokens.findIdx? (· = .semicolon) with
  | some stop => slice tokens 0 stop
  | none => return tokens

theorem untilSemicolon_eq (tokens : List Token) :
    untilSemicolon tokens = .ok (HeaderBindings.untilSemicolon tokens) := by
  unfold untilSemicolon HeaderBindings.untilSemicolon
  split
  · next stop found =>
    obtain ⟨front, token, back, rfl, rfl, stops, free⟩ := split_of_findIdx found
    rw [slice_front, List.takeWhile_append_of_pos (by simpa using free)]
    simp_all
  · next absent =>
    have whole : tokens.takeWhile (· != .semicolon) = tokens :=
      List.takeWhile_eq_self_iff.mpr (by simpa using absent)
    rw [whole]
    rfl

namespace Method

open HeaderBindings.Method.Reader (Component)

def returnType (cursor : Cursor) : Reading MemberFault (NativeType × Cursor) := do
  match ← cursor.parenGroup with
  | (some (inner, true), cursor) => return (.ofTokens inner, cursor)
  | (some (_, false), _) => throw .openReturnType
  | (none, _) => throw .noReturnType

def componentName (type : NativeType) (cursor : Cursor) : Component × Cursor :=
  match cursor.first? with
  | some (.identifier name) =>
    if cursor.second? = some .colon then (⟨type, none⟩, cursor) else (⟨type, some name⟩, cursor.step)
  | _ => (⟨type, none⟩, cursor)

def component (cursor : Cursor) : Reading MemberFault (Component × Cursor) := do
  match ← cursor.parenGroup with
  | (some (inner, true), cursor) => return componentName (.ofTokens inner) cursor
  | (some (_, false), _) => throw .openParameterType
  | (none, cursor) => return componentName .untyped cursor

def label? (cursor : Cursor) : Option (Text × Cursor) :=
  match cursor.first?, cursor.second? with
  | some (.identifier name), some .colon => some (name, cursor.step.step)
  | some .colon, _ => some ([], cursor.step)
  | _, _ => none

/-- The selector and the parameters of the components at the cursor, in at most so many rounds. -/
def components : Nat → Text → Cursor → Reading MemberFault ((Text × List Parameter) × Cursor)
  | 0, _, _ => liftM (.error .endless : Checked _)
  | rounds + 1, label, cursor => do
    let (read, cursor) ← component cursor
    let params := read.param?.toList
    if cursor.first? = some .comma ∧ cursor.second? = some .ellipsis then
      return ((label ++ [':'], params), cursor.step.step)
    match label? cursor with
    | none => return ((label ++ [':'], params), cursor)
    | some (next, cursor) =>
      let ((selector, later), cursor) ← components rounds next cursor
      return ((label ++ ':' :: selector, params ++ later), cursor)

def trailingMacros : Nat → Cursor → Reading MemberFault (Option Text)
  | 0, _ => liftM (.error .endless : Checked _)
  | rounds + 1, cursor => do
    match cursor.first? with
    | none => return none
    | some (.identifier name) =>
      match ← cursor.step.parenGroup with
      | (some (inner, _), cursor) =>
        return (Availability.ofCall? name inner).or (← trailingMacros rounds cursor)
      | (none, cursor) => trailingMacros rounds cursor
    | some .rightParen => trailingMacros rounds cursor.step
    | some token => throw (.afterSelector token)

def signature (cursor : Cursor) : Reading MemberFault ((Text × List Parameter) × Cursor) := do
  match cursor.first? with
  | some (.identifier base) =>
    let cursor := cursor.step
    if cursor.first? = some .colon then components cursor.tokens.length base cursor.step
    else return ((base, []), cursor)
  | _ => throw .noSelector

def afterSign (isStatic : Bool) (cursor : Cursor) : Reading MemberFault Method := do
  let (type, cursor) ← returnType cursor
  let ((selector, params), cursor) ← signature cursor
  let availability ← trailingMacros (cursor.tokens.length + 1) cursor
  return { selector := selector
           params := params
           returnType := type.name
           returnNullable := type.nullable
           isStatic := isStatic
           availability := availability }

def method (cursor : Cursor) : Reading MemberFault Method :=
  match cursor.first? with
  | some .plus => afterSign true cursor.step
  | some .minus => afterSign false cursor.step
  | _ => throw .noSign

def parse (declaration : Text) : Checked (Except DeclarationError Method) := do
  let tokens ← untilSemicolon (← lex declaration)
  return (← (method ⟨tokens, 0⟩).run).mapError (.member declaration)

variable {cursor : Cursor} {tokens : List Token}

theorem returnType_follows (before : cursor.Before tokens) :
    Follows Reads (returnType cursor) (Method.Reader.returnType tokens) := by
  unfold returnType Method.Reader.returnType
  cases call : Token.parenGroup? tokens with
  | none => exact .access (before.group_none call) (.fault _)
  | some group =>
    obtain ⟨after, read, behind⟩ := before.group_some call
    refine .access read ?_
    obtain ⟨inner, _ | _, rest⟩ := group
    · exact .fault _
    · exact .value ⟨rfl, behind⟩

theorem componentName_reads (type : NativeType) (before : cursor.Before tokens) :
    Reads (componentName type cursor) (Method.Reader.componentName type tokens) := by
  unfold componentName
  fun_cases Method.Reader.componentName type tokens with
  | case1 name tokens =>
    have first : cursor.first? = some (.identifier name) := before.first
    have second : cursor.second? = some .colon := before.second
    rw [first, second]
    exact ⟨rfl, before⟩
  | case2 name tokens other =>
    have first : cursor.first? = some (.identifier name) := before.first
    have second : cursor.second? ≠ some .colon := before.step.first_ne other
    rw [first]
    dsimp only
    rw [if_neg second]
    exact ⟨rfl, before.step⟩
  | case3 tokens _ other =>
    rw [before.first]
    split
    · next name first =>
      obtain ⟨later, rfl⟩ := List.head?_eq_some_iff.mp first
      exact absurd rfl (other name later)
    · exact ⟨rfl, before⟩

theorem component_follows (before : cursor.Before tokens) :
    Follows Reads (component cursor) (Method.Reader.component tokens) := by
  unfold component Method.Reader.component
  cases call : Token.parenGroup? tokens with
  | none => exact .access (before.group_none call) (.value (componentName_reads _ before))
  | some group =>
    obtain ⟨after, read, behind⟩ := before.group_some call
    refine .access read ?_
    obtain ⟨inner, _ | _, rest⟩ := group
    · exact .fault _
    · exact .value (componentName_reads _ behind)

theorem label_none (before : cursor.Before tokens) (absent : Method.Reader.label? tokens = none) :
    label? cursor = none := by
  unfold label?
  rw [before.first, before.second]
  split
  · next name first second =>
    obtain ⟨later, rfl⟩ := List.head?_eq_some_iff.mp first
    obtain ⟨last, rfl⟩ := List.head?_eq_some_iff.mp second
    cases absent
  · next first =>
    obtain ⟨later, rfl⟩ := List.head?_eq_some_iff.mp first
    cases absent
  · rfl

theorem label_some (before : cursor.Before tokens) {found : Text × List Token}
    (here : Method.Reader.label? tokens = some found) :
    ∃ after, label? cursor = some (found.1, after) ∧ after.Before found.2 := by
  unfold label?
  rw [before.first, before.second]
  unfold Method.Reader.label? at here
  split at here
  · cases here
    exact ⟨_, rfl, before.step.step⟩
  · cases here
    exact ⟨_, rfl, before.step⟩
  · cases here

/-- The selector and the parameters of a signature, and a cursor behind it. -/
structure ReadsSignature (read : (Text × List Parameter) × Cursor)
    (signature : Method.Reader.Signature) : Prop where
  selector : read.1.1 = signature.selector
  params : read.1.2 = signature.params
  rest : read.2.Before signature.rest

theorem not_variadic (before : cursor.Before tokens)
    (other : ∀ later, tokens = .comma :: .ellipsis :: later → False) :
    ¬ (cursor.first? = some .comma ∧ cursor.second? = some .ellipsis) := by
  rw [before.first, before.second]
  rintro ⟨first, second⟩
  obtain ⟨later, rfl⟩ := List.head?_eq_some_iff.mp first
  obtain ⟨last, rfl⟩ := List.head?_eq_some_iff.mp second
  exact other last rfl

theorem components_follows (rounds : Nat) (label : Text) (cursor : Cursor) (tokens : List Token)
    (before : cursor.Before tokens) (enough : tokens.length < rounds) :
    Follows ReadsSignature (components rounds label cursor)
      (Method.Reader.components label tokens) := by
  induction rounds generalizing label cursor tokens with
  | zero => omega
  | succ rounds ih =>
    have first := component_follows before
    rw [components]
    fun_cases Method.Reader.components label tokens with
    | case1 fault failed =>
      rw [failed] at first
      rw [first.faulted]
      exact .fault fault
    | case2 own rest done =>
      rw [done] at first
      obtain ⟨⟨read, after⟩, same, rfl, behind⟩ := first.valued
      have variadic : after.first? = some .comma ∧ after.second? = some .ellipsis :=
        ⟨behind.first, behind.second⟩
      rw [same, pure_bind]
      dsimp only
      rw [if_pos variadic]
      exact .value ⟨rfl, (List.append_nil _).symm, behind.step.step⟩
    | case3 own rest other done last =>
      rw [done] at first
      obtain ⟨⟨read, after⟩, same, rfl, behind⟩ := first.valued
      rw [same, pure_bind]
      dsimp only
      rw [if_neg (not_variadic behind other), label_none behind last]
      exact .value ⟨rfl, (List.append_nil _).symm, behind⟩
    | case4 own rest other done next left here =>
      rw [done] at first
      obtain ⟨⟨read, after⟩, same, rfl, behind⟩ := first.valued
      obtain ⟨onwards, found, ahead⟩ := label_some behind here
      have shorter := Method.Reader.length_component _ _ done
      have shorter' := Method.Reader.length_label _ _ here
      have others := ih next onwards left ahead (by dsimp only at shorter shorter'; omega)
      rw [same, pure_bind]
      dsimp only
      rw [if_neg (not_variadic behind other), found]
      refine others.map fun read signature same => .value ?_
      obtain ⟨⟨selector, params⟩, cursor⟩ := read
      exact ⟨congrArg (label ++ ':' :: ·) same.selector, congrArg (_ ++ ·) same.params, same.rest⟩

theorem trailingMacros_follows (rounds : Nat) (cursor : Cursor) (tokens : List Token)
    (before : cursor.Before tokens) (enough : tokens.length < rounds) :
    Follows (· = ·) (trailingMacros rounds cursor) (Method.Reader.trailingMacros tokens) := by
  induction rounds generalizing cursor tokens with
  | zero => omega
  | succ rounds ih =>
    rw [trailingMacros, before.first]
    fun_cases Method.Reader.trailingMacros tokens with
    | case1 => exact .value rfl
    | case2 name tokens group call =>
      have shorter := Token.length_group _ _ _ _ call
      obtain ⟨inside, read, behind⟩ := before.step.group_some call
      rw [List.length_cons] at enough
      refine .access read ((ih inside group.rest behind (by omega)).map fun later value same => ?_)
      exact .value (congrArg _ same)
    | case3 name tokens call =>
      rw [List.length_cons] at enough
      exact .access (before.step.group_none call) (ih cursor.step tokens before.step (by omega))
    | case4 tokens =>
      rw [List.length_cons] at enough
      exact ih cursor.step tokens before.step (by omega)
    | case5 token tokens notName notCloser =>
      cases token with
      | identifier name => exact absurd rfl (notName name)
      | rightParen => exact absurd rfl notCloser
      | _ => exact .fault _

theorem signature_follows (before : cursor.Before tokens) :
    Follows ReadsSignature (signature cursor) (Method.Reader.signature tokens) := by
  unfold signature
  fun_cases Method.Reader.signature tokens with
  | case1 base tokens =>
    have first : cursor.first? = some (.identifier base) := before.first
    have colon : cursor.step.first? = some .colon := before.step.first
    rw [first]
    dsimp only
    rw [if_pos colon]
    exact components_follows _ base _ tokens before.step.step before.step.length_lt
  | case2 base tokens other =>
    have first : cursor.first? = some (.identifier base) := before.first
    rw [first]
    dsimp only
    rw [if_neg (before.step.first_ne other)]
    exact .value ⟨rfl, rfl, before.step⟩
  | case3 tokens _ other =>
    rw [before.first]
    split
    · next base first =>
      obtain ⟨later, rfl⟩ := List.head?_eq_some_iff.mp first
      exact absurd rfl (other base later)
    · exact .fault _

theorem afterSign_follows (isStatic : Bool) (before : cursor.Before tokens) :
    Follows (· = ·) (afterSign isStatic cursor) (Method.Reader.afterSign isStatic tokens) := by
  refine (returnType_follows before).bind_reads fun type behind tokens ahead => ?_
  refine (signature_follows ahead).bind fun read signature same => ?_
  obtain ⟨⟨selector, params⟩, last⟩ := read
  obtain ⟨rfl, rfl, ends⟩ := same
  refine (trailingMacros_follows _ last _ ends ends.length_le).bind fun availability value same => ?_
  subst same
  exact .value rfl

theorem method_follows (before : cursor.Before tokens) :
    Follows (· = ·) (method cursor) (Method.Reader.method tokens) := by
  unfold method
  fun_cases Method.Reader.method tokens with
  | case1 tokens =>
    have first : cursor.first? = some .plus := before.first
    rw [first]
    exact afterSign_follows true before.step
  | case2 tokens =>
    have first : cursor.first? = some .minus := before.first
    rw [first]
    exact afterSign_follows false before.step
  | case3 tokens notPlus notMinus =>
    rw [before.first]
    split
    · next first =>
      obtain ⟨later, rfl⟩ := List.head?_eq_some_iff.mp first
      exact absurd rfl (notPlus later)
    · next first =>
      obtain ⟨later, rfl⟩ := List.head?_eq_some_iff.mp first
      exact absurd rfl (notMinus later)
    · exact .fault _

theorem parse_eq (declaration : Text) :
    parse declaration = .ok (HeaderBindings.Method.parse declaration) := by
  have read := (method_follows (Cursor.before_start
    (HeaderBindings.untilSemicolon (HeaderBindings.lex declaration)))).run
  simp only [parse, lex_eq, ok_bind, untilSemicolon_eq, read]
  rfl

end Method

namespace Property

open HeaderBindings.Property.Reader (Stripped stripReversed)

def attributeList (cursor : Cursor) : Reading MemberFault (List Text × Cursor) := do
  match ← cursor.parenGroup with
  | (some (inner, true), cursor) => return ((← splitCommas inner).map render, cursor)
  | (some (_, false), _) => throw .openAttributes
  | (none, cursor) => return ([], cursor)

/-- The place of the parenthesis that the last one closes, searched backwards from a place at a depth. -/
def matchingOpen (tokens : List Token) : (place depth : Nat) → Checked (Option Nat)
  | 0, _ => return none
  | place + 1, depth => do
    let token ← item tokens place
    if token = .rightParen then matchingOpen tokens place (depth + 1)
    else if token = .leftParen then do
      let outer ← minus depth 1
      if outer = 0 then return some place else matchingOpen tokens place outer
    else matchingOpen tokens place depth

/-- Strips trailing macros off a range of tokens, in at most so many rounds. -/
def stripMacros : Nat → Option Text → List Token → Checked Stripped
  | 0, _, _ => .error .endless
  | rounds + 1, availability, tokens => match tokens.getLast? with
    | some .rightParen => do
      match ← matchingOpen tokens tokens.length 0 with
      | some (before + 1) =>
        match ← item tokens before with
        | .identifier name =>
          if isMacroName name then do
            let start ← minus (before + 1) 1
            let call ← slice tokens start tokens.length
            let front ← slice tokens 0 start
            stripMacros rounds
              (if Availability.isFamily name then some (Availability.normalize (render call))
               else availability)
              front
          else return ⟨tokens, availability⟩
        | _ => return ⟨tokens, availability⟩
      | _ => return ⟨tokens, availability⟩
    | some (.identifier name) =>
      if isMacroName name && 1 < tokens.length then do
        let front ← slice tokens 0 (← minus tokens.length 1)
        stripMacros rounds availability front
      else return ⟨tokens, availability⟩
    | _ => return ⟨tokens, availability⟩

/-- The identifier behind the first caret, and the tokens without it. -/
def blockName? (tokens : List Token) : Checked (Option (Text × List Token)) :=
  match tokens.findIdx? (· = .caret) with
  | none => return none
  | some caret => match tokens[caret + 1]? with
    | some (.identifier name) => do return some (name, ← remove tokens (caret + 1))
    | _ => return none

/-- The place of the last token of a kind. -/
def lastPlace? (wanted : Token → Bool) (tokens : List Token) : Option Nat :=
  (tokens.reverse.findIdx? wanted).map fun behind => tokens.length - (behind + 1)

def lastName? (tokens : List Token) : Checked (Option (Text × List Token)) :=
  match lastPlace? (·.name?.isSome) tokens with
  | none => return none
  | some place => do
    match (← item tokens place).name? with
    | some name => return some (name, ← slice tokens 0 place)
    | none => return none

def nameAndType? (tokens : List Token) : Checked (Option (Text × List Token)) := do
  match ← blockName? tokens with
  | some found => return some found
  | none => lastName? tokens

def afterDirective (assumeNonnull : Bool) (cursor : Cursor) : Reading MemberFault Property := do
  let (attributes, cursor) ← attributeList cursor
  let tokens ← cursor.rest
  let stripped ← stripMacros (tokens.length + 1) none tokens
  match ← nameAndType? stripped.tokens with
  | none => throw .noPropertyName
  | some (_, []) => throw .noPropertyType
  | some (name, typeTokens) =>
    let type := NativeType.ofTokens typeTokens
    return { name := name
             type := type.name
             readonly := attributes.contains "readonly".toList
             nullable := Property.Reader.mayBeNull assumeNonnull attributes type
             attributes := attributes
             isClass := attributes.contains "class".toList
             getter := Property.Reader.attributeValue? attributes "getter".toList
             setter := Property.Reader.attributeValue? attributes "setter".toList
             availability := stripped.availability }

def property (assumeNonnull : Bool) (cursor : Cursor) : Reading MemberFault Property :=
  match cursor.first? with
  | some (.directive name) =>
    if name = "@property".toList then afterDirective assumeNonnull cursor.step
    else throw .noPropertyDirective
  | _ => throw .noPropertyDirective

def parse (assumeNonnull : Bool) (declaration : Text) : Checked (Except DeclarationError Property) := do
  let tokens ← untilSemicolon (← lex declaration)
  return (← (property assumeNonnull ⟨tokens, 0⟩).run).mapError (.member declaration)

variable {cursor : Cursor} {tokens : List Token}

theorem attributeList_follows (before : cursor.Before tokens) :
    Follows Reads (attributeList cursor) (Property.Reader.attributeList tokens) := by
  unfold attributeList Property.Reader.attributeList
  cases call : Token.parenGroup? tokens with
  | none => exact .access (before.group_none call) (.value ⟨rfl, before⟩)
  | some group =>
    obtain ⟨after, read, behind⟩ := before.group_some call
    refine .access read ?_
    obtain ⟨inner, _ | _, rest⟩ := group
    · exact .fault _
    · exact .access (splitCommas_eq inner) (.value ⟨rfl, behind⟩)

/-- Backwards, the depth is that of a group of reversed tokens, so it stays above zero up to the
parenthesis that is looked for. -/
theorem matchingOpen_read (done : List Token) (depth : Nat) (ahead : List Token) :
    matchingOpen (ahead.reverse ++ done) ahead.length (depth + 1) =
      .ok (if (Token.Group.read .rightParen .leftParen depth ahead).closed then
        some (Token.Group.read .rightParen .leftParen depth ahead).rest.length else none) := by
  have onwards (token : Token) (ahead : List Token) :
      (token :: ahead).reverse ++ done = ahead.reverse ++ token :: done := by
    simp
  have here (token : Token) (ahead done : List Token) :
      item (ahead.reverse ++ token :: done) ahead.length = .ok token := by
    simpa using item_append ahead.reverse done token
  fun_induction Token.Group.read .rightParen .leftParen depth ahead generalizing done with
  | case1 depth => rfl
  | case2 depth ahead ih =>
    rw [onwards, List.length_cons, matchingOpen, here, ok_bind, if_pos rfl, ih _ (by simp)]
    rfl
  | case3 ahead other =>
    rw [onwards, List.length_cons, matchingOpen, here, ok_bind, if_neg other, if_pos rfl, minus_add]
    rfl
  | case4 ahead outer other ih =>
    rw [onwards, List.length_cons, matchingOpen, here, ok_bind, if_neg other, if_pos rfl, minus_add,
      ok_bind, if_neg (by simp), ih _ (by simp)]
    rfl
  | case5 depth token ahead opens closes ih =>
    rw [onwards, List.length_cons, matchingOpen, here, ok_bind, if_neg opens, if_neg closes,
      ih _ (by simp)]
    rfl

theorem matchingOpen_last {before : List Token} {group : Token.Group}
    (call : Token.group? .rightParen .leftParen (.rightParen :: before) = some group) :
    matchingOpen (Token.rightParen :: before).reverse (Token.rightParen :: before).reverse.length 0 =
      .ok (if group.closed then some group.rest.length else none) := by
  rw [Token.group?, if_pos rfl] at call
  have last := item_append before.reverse [] Token.rightParen
  rw [List.length_reverse] at last
  rw [List.length_reverse, List.length_cons, List.reverse_cons, matchingOpen, last, ok_bind,
    if_pos rfl, matchingOpen_read, Option.some.inj call]

/-- A group at the end of tokens: where it opens, the token in front of it, the range from that token
on, and what stands in front of that. -/
structure EndsInGroup (tokens : List Token) (token : Token) (call front : List Token) : Prop where
  opens : matchingOpen tokens tokens.length 0 = .ok (some (front.length + 1))
  token : item tokens front.length = .ok token
  call : slice tokens front.length tokens.length = .ok call
  front : slice tokens 0 front.length = .ok front

theorem endsInGroup {before inner rest : List Token} {token : Token}
    (group : Token.group? .rightParen .leftParen (.rightParen :: before) =
      some ⟨inner, true, token :: rest⟩) :
    EndsInGroup (Token.rightParen :: before).reverse token
      (token :: .leftParen :: inner.reverse ++ [.rightParen]) rest.reverse := by
  have opens := matchingOpen_last group
  have whole : (Token.rightParen :: before).reverse =
      rest.reverse ++ (token :: .leftParen :: inner.reverse ++ [.rightParen]) := by
    rw [(Token.nests_of_group group).1]
    simp
  constructor
  · simpa using opens
  · rw [whole]
    exact item_append _ _ _
  · rw [whole]
    exact slice_back _ _
  · rw [whole]
    exact slice_front _ _

theorem stripMacros_eq (rounds : Nat) (availability : Option Text) (reversed : List Token)
    (enough : reversed.length < rounds) :
    stripMacros rounds availability reversed.reverse = .ok (stripReversed availability reversed) := by
  induction rounds generalizing availability reversed with
  | zero => omega
  | succ rounds ih =>
    rw [stripMacros, List.getLast?_reverse]
    fun_cases stripReversed availability reversed with
    | case1 before inner name rest call isMacro text =>
      have ends := endsInGroup call
      have shorter := Token.length_group _ _ _ _ call
      simp only [List.length_cons] at shorter enough
      simp only [List.head?_cons, ends.opens, ok_bind, ends.token, if_pos isMacro, minus_add,
        ends.call, ends.front]
      exact ih _ rest (by omega)
    | case2 before inner name rest call other =>
      have ends := endsInGroup call
      simp only [List.head?_cons, ends.opens, ok_bind, ends.token, if_neg other]
      rfl
    | case3 before noCall =>
      obtain ⟨group, call⟩ : ∃ group,
          Token.group? .rightParen .leftParen (.rightParen :: before) = some group := by
        rw [Token.group?, if_pos rfl]
        exact ⟨_, rfl⟩
      simp only [List.head?_cons, matchingOpen_last call, ok_bind]
      obtain ⟨inner, _ | _, _ | ⟨token, rest⟩⟩ := group
      · rfl
      · rfl
      · rfl
      · have item := (endsInGroup call).token
        rw [List.length_reverse] at item
        simp only [if_true, List.length_cons, item, ok_bind]
        cases token with
        | identifier name => exact absurd call (noCall inner name rest)
        | _ => rfl
    | case4 name token before isMacro =>
      have front := slice_front (token :: before).reverse [.identifier name]
      rw [List.length_cons] at enough
      have pred : minus (Token.identifier name :: token :: before).reverse.length 1 =
          .ok (token :: before).reverse.length := by
        rw [List.length_reverse, List.length_reverse]
        exact minus_add _ _
      have more : (isMacroName name &&
          decide (1 < (Token.identifier name :: token :: before).reverse.length)) = true := by
        simp [isMacro]
      simp only [List.head?_cons, if_pos more, pred, ok_bind]
      rw [List.reverse_cons, front]
      exact ih availability (token :: before) (by omega)
    | case5 name token before other =>
      have less : ¬ (isMacroName name &&
          decide (1 < (Token.identifier name :: token :: before).reverse.length)) = true := by
        simp [other]
      simp only [List.head?_cons, if_neg less]
      rfl
    | case6 reversed noCloser noName =>
      split
      · next first =>
        obtain ⟨before, rfl⟩ := List.head?_eq_some_iff.mp first
        exact absurd rfl (noCloser before)
      · next name first =>
        obtain ⟨before, rfl⟩ := List.head?_eq_some_iff.mp first
        cases before with
        | nil =>
          rw [if_neg (by simp)]
          rfl
        | cons token before => exact absurd rfl (noName name token before)
      · rfl

/-- Tokens in front of the first caret are passed over. -/
theorem blockName_front (front tokens : List Token) (free : .caret ∉ front) :
    Property.Reader.blockName? (front ++ tokens) =
      (Property.Reader.blockName? tokens).map fun found => (found.1, front ++ found.2) := by
  induction front with
  | nil => simp
  | cons token front ih =>
    rw [List.mem_cons, not_or] at free
    rw [List.cons_append, Property.Reader.blockName?, ih free.2]
    · simp [Function.comp_def]
    · exact fun _ _ same => absurd same.symm free.1
    · exact fun same => absurd same.symm free.1

theorem blockName_eq (tokens : List Token) :
    blockName? tokens = .ok (Property.Reader.blockName? tokens) := by
  unfold blockName?
  split
  · next absent =>
    have free : .caret ∉ tokens := by
      intro member
      simpa using List.findIdx?_eq_none_iff.mp absent _ member
    have whole := blockName_front tokens [] free
    rw [List.append_nil] at whole
    rw [whole]
    rfl
  · next caret found =>
    obtain ⟨front, token, back, rfl, rfl, isCaret, free⟩ := split_of_findIdx found
    obtain rfl : token = .caret := by simpa using isCaret
    have next : (front ++ Token.caret :: back)[front.length + 1]? = back.head? := by
      rw [List.getElem?_append_right (by omega), List.head?_eq_getElem?]
      simp
    rw [next, blockName_front front _ fun member => by simpa using free _ member]
    cases back with
    | nil => rfl
    | cons token later =>
      cases token with
      | identifier name =>
        have removed := remove_append (front ++ [.caret]) later (Token.identifier name)
        rw [List.append_assoc, List.append_assoc, List.length_append] at removed
        simp only [List.head?_cons]
        exact congrArg (· >>= _) removed
      | _ => rfl

theorem lastName_eq (tokens : List Token) :
    lastName? tokens = .ok (Property.Reader.lastName? tokens) := by
  unfold lastName? lastPlace? Property.Reader.lastName?
  cases found : tokens.reverse.findIdx? (·.name?.isSome) with
  | none =>
    have gone : tokens.reverse.dropWhile (·.name?.isNone) = [] := by
      refine List.dropWhile_eq_nil_iff.mpr fun token member => ?_
      simpa using List.findIdx?_eq_none_iff.mp found token member
    rw [gone]
    rfl
  | some behind =>
    obtain ⟨front, token, back, whole, rfl, named, free⟩ := split_of_findIdx found
    have left : tokens.reverse.dropWhile (·.name?.isNone) = token :: back := by
      have nameless : ∀ other ∈ front, other.name?.isNone = true := by simpa using free
      rw [whole, List.dropWhile_append_of_pos nameless, List.dropWhile_cons_of_neg]
      simpa [Option.isSome_iff_ne_none] using named
    have whole' : tokens = back.reverse ++ token :: front.reverse := by
      rw [← List.reverse_reverse tokens, whole]
      simp
    have place : tokens.length - (front.length + 1) = back.reverse.length := by
      rw [whole']
      simp
    rw [left, Option.map_some]
    simp only [place]
    rw [whole', item_append, ok_bind]
    cases token with
    | identifier name =>
      simp only [Token.name?, slice_front, ok_bind]
      rfl
    | _ => cases named

theorem nameAndType_eq (tokens : List Token) :
    nameAndType? tokens = .ok (Property.Reader.nameAndType? tokens) := by
  rw [nameAndType?, Property.Reader.nameAndType?, blockName_eq, ok_bind]
  cases Property.Reader.blockName? tokens with
  | none => exact lastName_eq tokens
  | some found => rfl

theorem afterDirective_follows (assumeNonnull : Bool) (before : cursor.Before tokens) :
    Follows (· = ·) (afterDirective assumeNonnull cursor)
      (Property.Reader.afterDirective assumeNonnull tokens) := by
  refine (attributeList_follows before).bind_reads fun attributes behind tokens ahead => ?_
  have stripped := stripMacros_eq (tokens.length + 1) none tokens.reverse (by simp)
  rw [List.reverse_reverse] at stripped
  refine .access ahead.rest (.access stripped (.access (nameAndType_eq _) ?_))
  rw [← Property.Reader.stripMacros]
  dsimp only
  cases Property.Reader.nameAndType? (Property.Reader.stripMacros tokens).tokens with
  | none => exact .fault _
  | some found =>
    obtain ⟨name, _ | ⟨token, type⟩⟩ := found
    · exact .fault _
    · exact .value rfl

theorem property_follows (assumeNonnull : Bool) (before : cursor.Before tokens) :
    Follows (· = ·) (property assumeNonnull cursor)
      (Property.Reader.property assumeNonnull tokens) := by
  unfold property Property.Reader.property
  rw [before.first]
  cases tokens with
  | nil => exact .fault _
  | cons token tokens =>
    cases token with
    | directive name =>
      simp only [List.head?_cons]
      split
      · exact afterDirective_follows assumeNonnull before.step
      · exact .fault _
    | _ => exact .fault _

theorem parse_eq (assumeNonnull : Bool) (declaration : Text) :
    parse assumeNonnull declaration = .ok (HeaderBindings.Property.parse assumeNonnull declaration) := by
  have read := (property_follows assumeNonnull (Cursor.before_start
    (HeaderBindings.untilSemicolon (HeaderBindings.lex declaration)))).run
  simp only [parse, lex_eq, ok_bind, untilSemicolon_eq, read]
  rfl

end Property

end Checked

end HeaderBindings
