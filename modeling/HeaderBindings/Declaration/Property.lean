import HeaderBindings.Declaration.Method
import HeaderBindings.Model.Member

/-!
Reading a property declaration: `@property`, an optional attribute list, a type, a name, then
macros. The name is the last identifier before the macros; for a block type it follows the caret.
-/

namespace HeaderBindings

namespace Property.Reader

/-- What is left of a property's tokens before its trailing macros, and the first availability
call among those. -/
structure Stripped where
  tokens : List Token
  availability : Option Text
  deriving DecidableEq, Repr

/-- Strips trailing macros from tokens that are given in reverse. A bare macro name that is all
there is stays. -/
def stripReversed (availability : Option Text) (tokens : List Token) : Stripped :=
  match tokens with
  | .rightParen :: before =>
    match _call : Token.group? .rightParen .leftParen (.rightParen :: before) with
    | some ⟨inner, true, .identifier name :: rest⟩ =>
      if isMacroName name then
        let call := .identifier name :: .leftParen :: inner.reverse ++ [.rightParen]
        stripReversed
          (if Availability.isFamily name then some (Availability.normalize (render call))
           else availability)
          rest
      else ⟨tokens.reverse, availability⟩
    | _ => ⟨tokens.reverse, availability⟩
  | .identifier name :: token :: before =>
    if isMacroName name then stripReversed availability (token :: before)
    else ⟨tokens.reverse, availability⟩
  | _ => ⟨tokens.reverse, availability⟩
termination_by tokens.length
decreasing_by
  · have shorter := Token.length_group _ _ _ _ _call
    simp at shorter ⊢
    omega
  · simp

def stripMacros (tokens : List Token) : Stripped := stripReversed none tokens.reverse

/-- The identifier right after the first caret, and the tokens without it. -/
def blockName? : List Token → Option (Text × List Token)
  | [] => none
  | .caret :: .identifier name :: tokens => some (name, .caret :: tokens)
  | .caret :: _ => none
  | token :: tokens => (blockName? tokens).map fun found => (found.1, token :: found.2)

/-- The last identifier, and the tokens before it. -/
def lastName? (tokens : List Token) : Option (Text × List Token) :=
  match tokens.reverse.dropWhile (·.name?.isNone) with
  | .identifier name :: before => some (name, before.reverse)
  | _ => none

/-- The name and the type of a property. -/
def nameAndType? (tokens : List Token) : Option (Text × List Token) :=
  (blockName? tokens).or (lastName? tokens)

/-- The value of the first attribute `key=value` with a given key. -/
def attributeValue? (attributes : List Text) (key : Text) : Option Text :=
  attributes.findSome? fun entry =>
    (Text.cutAt? ['='] entry).bind fun cut =>
      if cut.1.trim = key then some cut.2.trim else none

def attributeList (tokens : List Token) : Except MemberFault (List Text × List Token) :=
  match Token.parenGroup? tokens with
  | none => .ok ([], tokens)
  | some group =>
    if group.closed then .ok ((Token.splitCommas group.inner).map render, group.rest)
    else .error .openAttributes

/-- Whether a property may be null: an attribute or its type says so, or it is an object of which
nothing says the contrary. -/
def mayBeNull (assumeNonnull : Bool) (attributes : List Text) (type : NativeType) : Bool :=
  attributes.contains "nullable".toList || attributes.contains "null_resettable".toList
    || type.nullable
    || (type.isObject && !type.nonnull && !attributes.contains "nonnull".toList
        && !assumeNonnull)

def afterDirective (assumeNonnull : Bool) (tokens : List Token) : Except MemberFault Property := do
  let (attributes, tokens) ← attributeList tokens
  let stripped := stripMacros tokens
  match nameAndType? stripped.tokens with
  | none => throw .noPropertyName
  | some (_, []) => throw .noPropertyType
  | some (name, typeTokens) =>
    let type := NativeType.ofTokens typeTokens
    return { name := name
             type := type.name
             readonly := attributes.contains "readonly".toList
             nullable := mayBeNull assumeNonnull attributes type
             attributes := attributes
             isClass := attributes.contains "class".toList
             getter := attributeValue? attributes "getter".toList
             setter := attributeValue? attributes "setter".toList
             availability := stripped.availability }

def property (assumeNonnull : Bool) : List Token → Except MemberFault Property
  | .directive name :: tokens =>
    if name = "@property".toList then afterDirective assumeNonnull tokens
    else .error .noPropertyDirective
  | _ => .error .noPropertyDirective

end Property.Reader

/-- Reads a property declaration, up to its first semicolon. Where null is assumed to be ruled
out, only what is marked nullable may be null. -/
def Property.parse (assumeNonnull : Bool) (declaration : Text) : Except DeclarationError Property :=
  (Property.Reader.property assumeNonnull (untilSemicolon (lex declaration))).mapError
    (.member declaration)

/-- Reads a property declaration, with a placeholder for one that cannot be read. -/
def Property.parseOrPlaceholder (assumeNonnull : Bool) (declaration : Text) : Property :=
  match Property.parse assumeNonnull declaration with
  | .ok property => property
  | .error _ => Property.placeholder

end HeaderBindings
