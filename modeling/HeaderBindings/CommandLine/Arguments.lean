import HeaderBindings.CommandLine.Word

/-!
The arguments of one command: options with their values, the other words, and how often more
messages are asked for. An option's value follows an equals sign, follows its letter at once or is
the next word, which then has to stand for itself.
-/

namespace HeaderBindings

namespace CommandLine

structure Arguments where
  verbosity : Nat := 0
  options : List (OptionName × Text) := []
  words : List Text := []
  deriving DecidableEq, Repr

namespace Arguments

def append (earlier later : Arguments) : Arguments :=
  { verbosity := earlier.verbosity + later.verbosity
    options := earlier.options ++ later.options
    words := earlier.words ++ later.words }

def word (text : Text) : Arguments := { words := [text] }

def option (name : OptionName) (value : Text) : Arguments := { options := [(name, value)] }

def more : Arguments := { verbosity := 1 }

/-! What one word gives, and the option that waits for its value after it. -/

abbrev Reading := Arguments × Option OptionName

def ofOption (name : OptionName) : Option Text → Reading
  | some value => (option name value, none)
  | none => ({}, some name)

def verboseName : Text := "verbose".toList

def verboseLetter : Char := 'v'

def ofLong (known : List OptionName) (name : Text) (value : Option Text) : Option Reading :=
  if name = verboseName then if value.isNone then some (more, none) else none
  else (known.find? (·.text == name)).map (ofOption · value)

/-- The value that follows a letter at once, without an equals sign. -/
def attached? : Text → Option Text
  | [] => none
  | '=' :: value => some value
  | value => some value

def ofShort (known : List OptionName) : Text → Option Reading
  | [] => some ({}, none)
  | c :: letters =>
    if c = verboseLetter then
      (ofShort known letters).map fun reading => (more.append reading.1, reading.2)
    else (known.find? (·.letter? == some c)).map (ofOption · (attached? letters))

def ofWord (known : List OptionName) : Word → Option Reading
  | .plain text => some (word text, none)
  | .long name value => ofLong known name value
  | .short letters => ofShort known letters
  | .endOfOptions => none

/-- Reads words from left to right, while an option may be waiting for its value. -/
def scan (known : List OptionName) : (waiting : Option OptionName) → List Text → Option Arguments
  | none, [] => some {}
  | some _, [] => none
  | none, text :: texts =>
    match Word.read text with
    | .endOfOptions => some { words := texts }
    | word => match ofWord known word with
      | some (given, waiting) => (scan known waiting texts).map given.append
      | none => none
  | some name, text :: texts =>
    match Word.read text with
    | .plain value => (scan known none texts).map (option name value).append
    | _ => none

/-- Whether no option is repeated and every value is one that its option takes. -/
def acceptable (arguments : Arguments) : Bool :=
  arguments.verbosity ≤ 1 && (arguments.options.map (·.1)).Nodup
    && arguments.options.all fun given => given.1.takes given.2

def parse? (known : List OptionName) (texts : List Text) : Option Arguments :=
  (scan known none texts).filter acceptable

def value? (arguments : Arguments) (name : OptionName) : Option Text :=
  (arguments.options.find? (·.1 == name)).map (·.2)

end Arguments

end CommandLine

end HeaderBindings
