import HeaderBindings.Token.Render

/-!
Why a declaration cannot be read. A fault of a member or of a class header is a cause; the message
names the declaration and the cause.
-/

namespace HeaderBindings

inductive MemberFault where
  | noSign
  | openReturnType
  | noReturnType
  | noSelector
  | openParameterType
  | afterSelector (token : Token)
  | noPropertyDirective
  | openAttributes
  | noPropertyName
  | noPropertyType
  deriving DecidableEq, Repr

namespace MemberFault

def reason : MemberFault → Text
  | noSign => "expected `+` or `-`".toList
  | openReturnType => "unterminated return type".toList
  | noReturnType => "missing return type".toList
  | noSelector => "missing selector name".toList
  | openParameterType => "unterminated parameter type".toList
  | afterSelector token => "unexpected `".toList ++ token.text ++ "` after selector".toList
  | noPropertyDirective => "expected `@property`".toList
  | openAttributes => "unterminated attribute list".toList
  | noPropertyName => "missing property name".toList
  | noPropertyType => "missing property type".toList

end MemberFault

inductive HeaderFault where
  | noInterface
  | noClassName
  | openAngle
  | openCategory
  | malformedCategory
  | noSuperclass
  | malformedProtocols
  | unexpected (token : Token)
  deriving DecidableEq, Repr

namespace HeaderFault

def reason : HeaderFault → Text
  | noInterface => "expected `@interface`".toList
  | noClassName => "missing class name".toList
  | openAngle => "unterminated `<`".toList
  | openCategory => "unterminated category".toList
  | malformedCategory => "malformed category name".toList
  | noSuperclass => "missing superclass name".toList
  | malformedProtocols => "malformed protocol list".toList
  | unexpected token => "unexpected `".toList ++ token.text ++ ['`']

end HeaderFault

inductive DeclarationError where
  | member (declaration : Text) (fault : MemberFault)
  | header (declaration : Text) (fault : HeaderFault)
  deriving DecidableEq, Repr

namespace DeclarationError

def message : DeclarationError → Text
  | member declaration fault =>
    "malformed signature `".toList ++ declaration.trim ++ "`: ".toList ++ fault.reason
  | header declaration fault =>
    "malformed class header `".toList ++ declaration.trim ++ "`: ".toList ++ fault.reason

end DeclarationError

end HeaderBindings
