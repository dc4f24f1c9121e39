import HeaderBindings.Text.Basic

/-!
What a run reports about itself while it goes on. A message is made visible, since it may repeat
any text of a header; a field's value is shown as it is or quoted.
-/

namespace HeaderBindings

namespace Text

/-! Text between double quotes. Quotes, backslashes, tabs, returns and line feeds are written with a
backslash, a null character as `\0` and other control characters by their hexadecimal code. -/

def isControl (c : Char) : Bool := c.toNat < 0x20 || c.toNat == 0x7F

def escapeChar (c : Char) : Text :=
  if c = '"' then ['\\', '"']
  else if c = '\\' then ['\\', '\\']
  else if c = '\t' then ['\\', 't']
  else if c = '\r' then ['\\', 'r']
  else if c = '\n' then ['\\', 'n']
  else if c.toNat = 0 then ['\\', '0']
  else if isControl c then ['\\', 'u', '\x7b'] ++ Nat.toDigits 16 c.toNat ++ ['\x7d']
  else [c]

def escaped (text : Text) : Text := text.flatMap escapeChar

def quoted (text : Text) : Text := ['"'] ++ escaped text ++ ['"']

/-! Text that a terminal shows and never obeys. Of the ASCII characters the bell, the backspace, the
form feed, the escape and the delete are written as `\x` and two digits; the control characters
from U+0080 to U+009F as `\u` and two digits in braces. -/

/-- The ASCII characters that a terminal may take for a command. -/
def commandChars : List Char := ['\x07', '\x08', '\x0C', '\x1B', '\x7F']

def isSecondControl (c : Char) : Bool := 0x80 ≤ c.toNat && c.toNat ≤ 0x9F

/-- The two hexadecimal digits of a code below 256. -/
def hexPair (code : Nat) : Text := [Nat.digitChar (code / 16), Nat.digitChar (code % 16)]

def visibleChar (c : Char) : Text :=
  if c ∈ commandChars then ['\\', 'x'] ++ hexPair c.toNat
  else if isSecondControl c then ['\\', 'u', '\x7b'] ++ hexPair c.toNat ++ ['\x7d']
  else [c]

def visible (text : Text) : Text := text.flatMap visibleChar

end Text

inductive Level where
  | error | warn | info | debug | trace
  deriving DecidableEq, Repr

namespace Level

/-- More detailed levels have greater ranks. -/
def rank : Level → Nat
  | error => 0
  | warn => 1
  | info => 2
  | debug => 3
  | trace => 4

def name : Level → Text
  | error => "ERROR".toList
  | warn => "WARN".toList
  | info => "INFO".toList
  | debug => "DEBUG".toList
  | trace => "TRACE".toList

def all : List Level := [error, warn, info, debug, trace]

/-- The level of a name, in letters of any case. -/
def ofName? (name : Text) : Option Level :=
  all.find? (·.name == name.map Char.toUpper)

end Level

inductive FieldValue where
  | plain (text : Text)
  | quoted (text : Text)
  deriving DecidableEq, Repr

namespace FieldValue

def text : FieldValue → Text
  | plain text => text
  | quoted text => Text.quoted text

end FieldValue

structure Event where
  level : Level
  message : Text
  fields : List (Text × FieldValue) := []
  deriving DecidableEq, Repr

namespace Event

/-- Whether an event is shown when levels up to a given one are. -/
def shownAt (limit : Level) (event : Event) : Bool := event.level.rank ≤ limit.rank

def fieldText (field : Text × FieldValue) : Text := ' ' :: field.1 ++ '=' :: field.2.text

def line (event : Event) : Text :=
  event.level.name ++ ' ' :: Text.visible event.message ++ event.fields.flatMap fieldText

end Event

end HeaderBindings
