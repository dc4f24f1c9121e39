import HeaderBindings.CommandLine.Arguments

/-!
What a command line asks for: the version, or a command with its inputs. Anything else is a mistake
in its use. Options before a command are those of the program itself.
-/

namespace HeaderBindings

namespace CommandLine

/-- Where settings come from and what takes their place. -/
structure Overrides where
  config : Option Text := none
  strategy : Option Strategy := none
  libclangPath : Option Text := none
  sdkRoot : Option Text := none
  deriving DecidableEq, Repr

inductive Command where
  | generate (inputs : List Text) (source output : Option Text) (overrides : Overrides)
  | method (declaration : Text)
  | dump (header : Text) (overrides : Overrides)
  deriving DecidableEq, Repr

inductive Request where
  | version
  | run (isVerbose : Bool) (command : Command)
  deriving DecidableEq, Repr

namespace Overrides

def optionNames : List OptionName := [.config, .strategy, .libclang, .sdk]

def of (arguments : Arguments) : Overrides :=
  { config := arguments.value? .config
    strategy := (arguments.value? .strategy).bind Strategy.ofName?
    libclangPath := arguments.value? .libclang
    sdkRoot := arguments.value? .sdk }

/-- Settings with the given ones in place of theirs. -/
def apply (overrides : Overrides) (settings : Settings) : Settings :=
  { settings with
    strategy := overrides.strategy.getD settings.strategy
    libclangPath := overrides.libclangPath.or settings.libclangPath
    sdkRoot := overrides.sdkRoot.or settings.sdkRoot }

end Overrides

inductive CommandName where
  | generate | method | dump
  deriving DecidableEq, Repr

namespace CommandName

def ofText? (text : Text) : Option CommandName :=
  if text = "generate".toList then some generate
  else if text = "method".toList then some method
  else if text = "dump".toList then some dump
  else none

def optionNames : CommandName → List OptionName
  | generate => .source :: .output :: Overrides.optionNames
  | method => []
  | dump => Overrides.optionNames

/-- The command that arguments make, if they are as many as it takes. Paths are not empty. -/
def command? (name : CommandName) (arguments : Arguments) : Option Command :=
  match name, arguments.words with
  | generate, inputs =>
    if inputs.any (·.isEmpty) then none
    else some (.generate inputs (arguments.value? .source) (arguments.value? .output)
      (.of arguments))
  | method, [declaration] => some (.method declaration)
  | dump, [header] => if header.isEmpty then none else some (.dump header (.of arguments))
  | _, _ => none

end CommandName

namespace Request

/-- What a group of one-letter options of the program asks for. -/
inductive Flags where
  | version
  | verbosity (count : Nat)

def versionLetter : Char := 'V'

def versionName : Text := "version".toList

/-- Letters count until one asks for the version; asking twice for more messages is a mistake. -/
def flags? (count : Nat) : Text → Option Flags
  | [] => some (.verbosity count)
  | c :: letters =>
    if c = versionLetter then some .version
    else if c = Arguments.verboseLetter && count = 0 then flags? (count + 1) letters
    else none

def ofCommand? (isVerbose : Bool) (name : Text) (texts : List Text) : Option Request := do
  let name ← CommandName.ofText? name
  let arguments ← Arguments.parse? name.optionNames texts
  let command ← name.command? arguments
  return .run (isVerbose || arguments.verbosity != 0) command

/-- Reads the options of the program up to the name of a command. -/
def scan (count : Nat) : List Text → Option Request
  | [] => none
  | text :: texts =>
    match Word.read text with
    | .plain name => ofCommand? (count != 0) name texts
    | .long name none =>
      if name = versionName then some .version
      else if name = Arguments.verboseName && count = 0 then scan (count + 1) texts
      else none
    | .short letters => match flags? count letters with
      | some .version => some .version
      | some (.verbosity count) => scan count texts
      | none => none
    | _ => none

def parse? (texts : List Text) : Option Request := scan 0 texts

end Request

end CommandLine

end HeaderBindings
