import HeaderBindings.Text.Basic

/-!
Tokens of a declaration and their text. Words (identifiers, numbers, string literals and
directives) carry their own text; an unrecognised stretch of a declaration is written `?`. Tokens in
a row are written with conventional spacing: a blank before a word that follows a word, a star or a
comma, before a star that follows a word or a closing angle, and before the group of a block or
function pointer that follows a word.
-/

namespace HeaderBindings

inductive Token where
  | plus | minus
  | leftParen | rightParen
  | less | greater
  | leftBrace | rightBrace
  | leftBracket | rightBracket
  | colon | semicolon | comma
  | star | caret | amp | equals
  | dot | ellipsis
  | directive (name : Text)
  | number (digits : Text)
  | stringLit (quoted : Text)
  | identifier (name : Text)
  | comment
  | unknown
  deriving DecidableEq, Repr

namespace Token

def text : Token → Text
  | plus => ['+']
  | minus => ['-']
  | leftParen => ['(']
  | rightParen => [')']
  | less => ['<']
  | greater => ['>']
  | leftBrace => ['{']
  | rightBrace => ['}']
  | leftBracket => ['[']
  | rightBracket => [']']
  | colon => [':']
  | semicolon => [';']
  | comma => [',']
  | star => ['*']
  | caret => ['^']
  | amp => ['&']
  | equals => ['=']
  | dot => ['.']
  | ellipsis => ['.', '.', '.']
  | directive name => name
  | number digits => digits
  | stringLit quoted => quoted
  | identifier name => name
  | comment => []
  | unknown => ['?']

def isWord : Token → Bool
  | identifier _ | number _ | stringLit _ | directive _ => true
  | _ => false

def name? : Token → Option Text
  | identifier name => some name
  | _ => none

/-- The tokens of one character. -/
def marks : List Token :=
  [plus, minus, leftParen, rightParen, less, greater, leftBrace, rightBrace, leftBracket,
   rightBracket, colon, semicolon, comma, star, caret, amp, equals]

def mark? (c : Char) : Option Token := marks.find? (·.text = [c])

theorem text_of_mark (c : Char) (token : Token) (known : mark? c = some token) :
    token.text = [c] := by
  simpa using List.find?_some known

/-- Whether a blank stands before a token, given the token before it and the one after it. -/
def spaced (before token : Token) (next? : Option Token) : Bool :=
  if token.isWord then before.isWord || before == star || before == comma
  else match token with
    | star => before.isWord || before == greater
    | leftParen => before.isWord && (next? == some caret || next? == some star)
    | _ => false

def renderAfter (before? : Option Token) : List Token → Text
  | [] => []
  | token :: rest =>
    let gap := match before? with
      | some before => if spaced before token rest.head? then [' '] else []
      | none => []
    gap ++ token.text ++ renderAfter (some token) rest

end Token

def render (tokens : List Token) : Text := Token.renderAfter none tokens

end HeaderBindings
