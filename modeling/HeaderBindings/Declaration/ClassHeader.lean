import HeaderBindings.Availability
import HeaderBindings.Declaration.Fault
import HeaderBindings.Model.ClassDecl

/-!
Reading a class header: macros, `@interface`, a name, type parameters or protocols in angles, a
category, a superclass with type arguments or protocols, protocols, macros, and an end or a brace.
-/

namespace HeaderBindings

/-- The parts of an `@interface` line. The category of a class extension is the empty text. -/
structure ClassHeader where
  name : Text
  category : Option Text := none
  superclass : Option Text := none
  protocols : List Text := []
  availability : Option Text := none
  deriving DecidableEq, Repr

namespace ClassHeader.Reader

/-- The tokens inside angles at the front, if there are any, and the tokens after them. -/
def angles? (tokens : List Token) : Except HeaderFault (Option (List Token) × List Token) :=
  match Token.angleGroup? tokens with
  | none => .ok (none, tokens)
  | some group => if group.closed then .ok (some group.inner, group.rest) else .error .openAngle

def protocolName : List Token → Except HeaderFault Text
  | [.identifier name] => .ok name
  | _ => .error .malformedProtocols

def protocolList (tokens : List Token) : Except HeaderFault (List Text) :=
  (Token.splitCommas tokens).mapM protocolName

def startsSuffix : List Token → Bool
  | .leftParen :: _ | .colon :: _ => true
  | _ => false

/-- Angles after the class name hold type parameters where a category or a superclass follows,
and protocols elsewhere. -/
def afterName (tokens : List Token) :
    Except HeaderFault (List Text × List Text × List Token) := do
  match ← angles? tokens with
  | (none, tokens) => return ([], [], tokens)
  | (some inner, tokens) =>
    if startsSuffix tokens then return (inner.filterMap Token.name?, [], tokens)
    else return ([], ← protocolList inner, tokens)

def category? (tokens : List Token) : Except HeaderFault (Option Text × List Token) :=
  match Token.parenGroup? tokens with
  | none => .ok (none, tokens)
  | some ⟨_, false, _⟩ => .error .openCategory
  | some ⟨[], true, rest⟩ => .ok (some [], rest)
  | some ⟨[.identifier name], true, rest⟩ => .ok (some name, rest)
  | some _ => .error .malformedCategory

/-- Whether angles after a superclass hold type arguments: they mention a pointer or one of the
class's own type parameters. -/
def isTypeArguments (typeParams : List Text) (tokens : List Token) : Bool :=
  tokens.any fun token => token == .star || token.name?.any (typeParams.contains ·)

def superclass? (typeParams : List Text) (tokens : List Token) :
    Except HeaderFault (Option Text × List Text × List Token) :=
  match tokens with
  | .colon :: .identifier name :: tokens => do
    match ← angles? tokens with
    | (none, tokens) => return (some name, [], tokens)
    | (some inner, tokens) =>
      if isTypeArguments typeParams inner then return (some name, [], tokens)
      else return (some name, ← protocolList inner, tokens)
  | .colon :: _ => .error .noSuperclass
  | tokens => .ok (none, [], tokens)

def protocols? (tokens : List Token) : Except HeaderFault (List Text × List Token) := do
  match ← angles? tokens with
  | (none, tokens) => return ([], tokens)
  | (some inner, tokens) => return (← protocolList inner, tokens)

/-- A header ends where its tokens do or at the brace of an instance-variable block. -/
def atEnd : List Token → Except HeaderFault Unit
  | [] => .ok ()
  | .leftBrace :: _ => .ok ()
  | token :: _ => .error (.unexpected token)

def afterDirective (leading : Option Text) : List Token → Except HeaderFault ClassHeader
  | .identifier name :: tokens => do
    let (typeParams, rootProtocols, tokens) ← afterName tokens
    let (category, tokens) ← category? tokens
    let (superclass, superProtocols, tokens) ← superclass? typeParams tokens
    let (protocols, tokens) ← protocols? tokens
    let trailing := macroRun tokens
    atEnd trailing.rest
    return { name := name
             category := category
             superclass := superclass
             protocols := rootProtocols ++ superProtocols ++ protocols
             availability := leading.or trailing.availability }
  | _ => .error .noClassName

def header (tokens : List Token) : Except HeaderFault ClassHeader :=
  let leading := macroRun tokens
  match leading.rest with
  | .directive name :: tokens =>
    if name = "@interface".toList then afterDirective leading.availability tokens
    else .error .noInterface
  | _ => .error .noInterface

end ClassHeader.Reader

def ClassHeader.parse (line : Text) : Except DeclarationError ClassHeader :=
  (ClassHeader.Reader.header (lex line)).mapError (.header line)

/-- The class that a header opens, before any of its members. -/
def ClassHeader.open (header : ClassHeader) (availability : Option Text) (doc : Text) : ClassDecl :=
  { name := header.name
    superclass := header.superclass
    protocols := adopt [] header.protocols
    availability := header.availability.or availability
    doc := doc }

end HeaderBindings
