import HeaderBindings.Config.Settings

/-!
The words of a command line. A word with a dash in front is an option or a group of one-letter
options, two dashes alone end the options, and any other word, a dash alone among them, stands for
itself.
-/

namespace HeaderBindings

namespace CommandLine

inductive Word where
  | plain (text : Text)
  | long (name : Text) (value : Option Text)
  | short (letters : Text)
  | endOfOptions
  deriving DecidableEq, Repr

namespace Word

/-- The name of a long option and the value after its first equals sign. -/
def longOf (text : Text) : Word :=
  match Text.cutAt? ['='] text with
  | some (name, value) => .long name (some value)
  | none => .long text none

def read : Text → Word
  | ['-', '-'] => .endOfOptions
  | '-' :: '-' :: text => longOf text
  | '-' :: c :: letters => .short (c :: letters)
  | text => .plain text

end Word

/-- The options of the commands that take a value. -/
inductive OptionName where
  | source | output | config | strategy | libclang | sdk
  deriving DecidableEq, Repr

namespace OptionName

def text : OptionName → Text
  | source => "source".toList
  | output => "output".toList
  | config => "config".toList
  | strategy => "strategy".toList
  | libclang => "libclang".toList
  | sdk => "sdk".toList

def letter? : OptionName → Option Char
  | output => some 'o'
  | _ => none

/-- Whether an option takes a value. Only declarations may be empty. -/
def takes (option : OptionName) (value : Text) : Bool :=
  match option with
  | source => true
  | strategy => (Strategy.ofName? value).isSome
  | output | config | libclang | sdk => !value.isEmpty

end OptionName

end CommandLine

end HeaderBindings
