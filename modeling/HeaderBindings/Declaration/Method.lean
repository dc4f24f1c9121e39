import HeaderBindings.Availability
import HeaderBindings.NativeType
import HeaderBindings.Declaration.Fault
import HeaderBindings.Model.Member

/-!
Reading a method declaration: a sign, a return type, a base name or components of a label, a
colon, a type and a parameter name, an optional `, ...`, then macros.
-/

namespace HeaderBindings

/-- The tokens before the first semicolon. -/
def untilSemicolon (tokens : List Token) : List Token := tokens.takeWhile (· != .semicolon)

namespace Method.Reader

/-- What follows a component's colon: an optional type and an optional name. A name that a colon
follows is the next label. -/
structure Component where
  type : NativeType
  name? : Option Text
  deriving DecidableEq, Repr

def Component.param? (component : Component) : Option Parameter :=
  component.name?.map fun name =>
    { name := name, type := component.type.name, nullable := component.type.nullable }

def componentName (type : NativeType) : List Token → Component × List Token
  | .identifier name :: .colon :: tokens => (⟨type, none⟩, .identifier name :: .colon :: tokens)
  | .identifier name :: tokens => (⟨type, some name⟩, tokens)
  | tokens => (⟨type, none⟩, tokens)

def component (tokens : List Token) : Except MemberFault (Component × List Token) :=
  match Token.parenGroup? tokens with
  | none => .ok (componentName .untyped tokens)
  | some group =>
    if group.closed then .ok (componentName (.ofTokens group.inner) group.rest)
    else .error .openParameterType

/-- The next label, which is empty for a bare colon, and the tokens after its colon. -/
def label? : List Token → Option (Text × List Token)
  | .identifier name :: .colon :: tokens => some (name, tokens)
  | .colon :: tokens => some ([], tokens)
  | _ => none

theorem length_componentName (type : NativeType) (tokens : List Token) :
    (componentName type tokens).2.length ≤ tokens.length := by
  unfold componentName
  split <;> simp

theorem length_component (tokens : List Token) (read : Component × List Token)
    (ok : component tokens = .ok read) : read.2.length ≤ tokens.length := by
  unfold component at ok
  split at ok
  · cases ok
    exact length_componentName _ _
  · next group opened =>
    have shorter := Token.length_group _ _ _ _ opened
    split at ok
    · cases ok
      have := length_componentName (.ofTokens group.inner) group.rest
      omega
    · cases ok

theorem length_label (tokens : List Token) (found : Text × List Token)
    (here : label? tokens = some found) : found.2.length < tokens.length := by
  unfold label? at here
  split at here <;> first | (cases here; done) | (cases here; simp; try omega)

/-- The selector and the parameters of a sequence of components, and the tokens after them. -/
structure Signature where
  selector : Text
  params : List Parameter
  rest : List Token
  deriving DecidableEq, Repr

def Signature.addComponent (label : Text) (read : Component) (signature : Signature) : Signature :=
  { signature with
    selector := label ++ ':' :: signature.selector
    params := read.param?.toList ++ signature.params }

/-- The components from one whose label and colon have been read. -/
def components (label : Text) (tokens : List Token) : Except MemberFault Signature :=
  match _read : component tokens with
  | .error fault => .error fault
  | .ok (read, .comma :: .ellipsis :: rest) => .ok (Signature.addComponent label read ⟨[], [], rest⟩)
  | .ok (read, rest) =>
    match _next : label? rest with
    | none => .ok (Signature.addComponent label read ⟨[], [], rest⟩)
    | some (next, rest) => (components next rest).map (Signature.addComponent label read)
termination_by tokens.length
decreasing_by
  have shorter := length_label _ _ _next
  have notLonger := length_component _ _ _read
  simp at shorter notLonger ⊢
  omega

/-- The first availability call among the macros after a selector. Closing parentheses that a
truncated call has left are skipped. -/
def trailingMacros (tokens : List Token) : Except MemberFault (Option Text) :=
  match tokens with
  | [] => .ok none
  | .identifier name :: tokens =>
    match _call : Token.parenGroup? tokens with
    | some group => (trailingMacros group.rest).map ((Availability.ofCall? name group.inner).or ·)
    | none => trailingMacros tokens
  | .rightParen :: tokens => trailingMacros tokens
  | token :: _ => .error (.afterSelector token)
termination_by tokens.length
decreasing_by
  · have shorter := Token.length_group _ _ _ _ _call
    simp
    omega
  · simp
  · simp

def returnType (tokens : List Token) : Except MemberFault (NativeType × List Token) :=
  match Token.parenGroup? tokens with
  | none => .error .noReturnType
  | some group =>
    if group.closed then .ok (.ofTokens group.inner, group.rest) else .error .openReturnType

def signature : List Token → Except MemberFault Signature
  | .identifier base :: .colon :: tokens => components base tokens
  | .identifier base :: tokens => .ok ⟨base, [], tokens⟩
  | _ => .error .noSelector

/-- The method that follows a sign. -/
def afterSign (isStatic : Bool) (tokens : List Token) : Except MemberFault Method := do
  let (type, tokens) ← returnType tokens
  let signature ← signature tokens
  let availability ← trailingMacros signature.rest
  return { selector := signature.selector
           params := signature.params
           returnType := type.name
           returnNullable := type.nullable
           isStatic := isStatic
           availability := availability }

def method : List Token → Except MemberFault Method
  | .plus :: tokens => afterSign true tokens
  | .minus :: tokens => afterSign false tokens
  | _ => .error .noSign

end Method.Reader

/-- Reads a method declaration, up to its first semicolon. -/
def Method.parse (declaration : Text) : Except DeclarationError Method :=
  (Method.Reader.method (untilSemicolon (lex declaration))).mapError (.member declaration)

end HeaderBindings
