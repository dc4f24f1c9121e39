import HeaderBindings.Token.Lexer
import HeaderBindings.Token.Render
import HeaderBindings.Token.Group

/-!
Macros around declarations. A macro name starts with two underscores or is written in capitals
with an underscore; the first call of an availability macro in a run of macros is kept as text,
with its parentheses balanced.
-/

namespace HeaderBindings

namespace Availability

/-- How the names of availability macros start. -/
def families : List Text :=
  ["API_AVAILABLE".toList, "API_UNAVAILABLE".toList, "API_DEPRECATED".toList,
   "NS_AVAILABLE".toList, "NS_DEPRECATED".toList, "NS_CLASS_AVAILABLE".toList,
   "NS_CLASS_DEPRECATED".toList, "AVAILABLE_MAC_OS_X_VERSION".toList, "__API_AVAILABLE".toList]

def isFamily (name : Text) : Bool := families.any fun start => Text.startsWith start name

/-- A reversed text less its leading closing parentheses, as many as are in excess. -/
def dropSurplus : Nat → Text → Text
  | surplus + 1, ')' :: text => dropSurplus surplus text
  | _, text => text

/-- The text of a call with surplus closing parentheses dropped from its end and missing ones
added there. -/
def normalize (text : Text) : Text :=
  let call := text.trim
  let opens := call.count '('
  let closes := call.count ')'
  (dropSurplus (closes - opens) call.reverse).reverse ++ List.replicate (opens - closes) ')'

def callText (name : Text) (arguments : List Token) : Text :=
  normalize (name ++ ['('] ++ render arguments ++ [')'])

/-- The call as it is kept, if the macro is an availability macro. -/
def ofCall? (name : Text) (arguments : List Token) : Option Text :=
  if isFamily name then some (callText name arguments) else none

end Availability

def isMacroName (name : Text) : Bool :=
  Text.startsWith ['_', '_'] name
    || (name.contains '_' && name.all fun c => c.isUpper || c.isDigit || c == '_')

/-- Macros read from the front of a token list: the first availability call among them and the
tokens after them. -/
structure MacroRun where
  availability : Option Text
  rest : List Token
  deriving DecidableEq, Repr

/-- The run of macros at the front of a token list, each a macro name with or without a call. -/
def macroRun : List Token → MacroRun
  | .identifier name :: tokens =>
    if isMacroName name then
      match _call : Token.parenGroup? tokens with
      | some group =>
        let later := macroRun group.rest
        ⟨(Availability.ofCall? name group.inner).or later.availability, later.rest⟩
      | none => macroRun tokens
    else ⟨none, .identifier name :: tokens⟩
  | tokens => ⟨none, tokens⟩
termination_by tokens => tokens.length
decreasing_by
  · have shorter := Token.length_group _ _ _ _ _call
    simp
    omega
  · simp

/-- The availability of a text that holds nothing but macros; nothing for any other text. -/
def macroOnly? (text : Text) : Option (Option Text) :=
  match lex text with
  | [] => none
  | token :: tokens =>
    let run := macroRun (token :: tokens)
    if run.rest.isEmpty then some run.availability else none

end HeaderBindings
