import HeaderBindings.Proofs.Reading.Lexeme

/-!
Reading generated code, second step: syntax. The members of a class body are read by descent, each
function taking what it reads off the front of the lexemes. Types say nothing about what a member
does: they are passed over up to the mark that ends them.
-/

namespace HeaderBindings

namespace Reading

mutual

inductive Expression where
  | name (text : Text)
  | this
  | text (content : Text)
  | template (content : Text)
  | number (value : Nat)
  | property (object : Expression) (name : Text)
  | array (items : Items)
  | call (callee : Expression) (items : Items)
  | construct (className : Text) (items : Items)
  | equal (left right : Expression)
  deriving DecidableEq, Repr

inductive Items where
  | nil
  | item (value : Expression) (later : Items)
  | spread (list : Expression) (later : Items)
  deriving DecidableEq, Repr

end

inductive Instruction where
  | declare (name : Text) (value : Expression)
  | perform (value : Expression)
  | leave
  | giveBack (value : Expression)
  | throw (value : Expression)
  | branch (test : Expression) (body : List Instruction)
  deriving Repr

/-- A parameter; a rest parameter takes all arguments that are left. -/
structure Formal where
  name : Text
  rest : Bool
  deriving DecidableEq, Repr

/-- A member of a class body. A signature has no body. -/
structure Definition where
  isStatic : Bool
  name : Text
  formals : List Formal
  body : Option (List Instruction)
  deriving Repr

/-- What is read off the front of the lexemes, and the lexemes after it. -/
abbrev Read (α : Type) := Option (α × List Lexeme)

section Types

def opens (read : Lexeme) : Bool :=
  read == .mark ['('] || read == .mark ['['] || read == .mark ['<']

def closes (read : Lexeme) : Bool :=
  read == .mark [')'] || read == .mark [']'] || read == .mark ['>']

/-- The marks that end a type where no bracket is open. -/
def endsType (read : Lexeme) : Bool :=
  read == .mark [','] || read == .mark [')'] || read == .mark [';'] || read == .mark ['\x7b']

/-- The lexemes after a type. -/
def skipType : Nat → List Lexeme → List Lexeme
  | _, [] => []
  | depth, read :: later =>
    if depth == 0 && endsType read then read :: later
    else if opens read then skipType (depth + 1) later
    else if closes read then skipType (depth - 1) later
    else skipType depth later

end Types

section Expressions

def isNumeral (word : Text) : Bool := word.all Char.isDigit

mutual

/-- An operand with its properties and calls. -/
def expression? (lexemes : List Lexeme) : Read Expression :=
  match operand? lexemes with
  | none => none
  | some (operand, rest) =>
    if rest.length < lexemes.length then suffixes? operand rest else none
termination_by (lexemes.length, 1)

def operand? (lexemes : List Lexeme) : Read Expression :=
  match lexemes with
  | .word word :: rest =>
    if word = "this".toList then some (.this, rest)
    else if word = "new".toList then
      match rest with
      | .word className :: .mark ['('] :: inner =>
        (items? ')' inner).map fun read => (.construct className read.1, read.2)
      | _ => none
    else if isNumeral word then some (.number (Nat.ofDigitChars 10 word 0), rest)
    else some (.name word, rest)
  | .quoted content :: rest => some (.text content, rest)
  | .template content :: rest => some (.template content, rest)
  | .mark ['['] :: inner => (items? ']' inner).map fun read => (.array read.1, read.2)
  | _ => none
termination_by (lexemes.length, 0)

def suffixes? (operand : Expression) (lexemes : List Lexeme) : Read Expression :=
  match lexemes with
  | .mark ['.'] :: .word name :: rest => suffixes? (.property operand name) rest
  | .mark ['('] :: inner =>
    match items? ')' inner with
    | none => none
    | some (items, rest) =>
      if rest.length ≤ inner.length then suffixes? (.call operand items) rest else none
  | rest => some (operand, rest)
termination_by (lexemes.length, 0)

/-- Items between commas up to a closing mark. -/
def items? (closing : Char) (lexemes : List Lexeme) : Read Items :=
  match lexemes with
  | [] => none
  | read :: rest =>
    if read = .mark [closing] then some (.nil, rest)
    else if read = .mark ['.', '.', '.'] then
      match expression? rest with
      | none => none
      | some (value, tail) =>
        if tail.length < rest.length then
          (later? closing tail).map fun read => (.spread value read.1, read.2)
        else none
    else
      match expression? (read :: rest) with
      | none => none
      | some (value, tail) =>
        if tail.length ≤ rest.length then
          (later? closing tail).map fun read => (.item value read.1, read.2)
        else none
termination_by (lexemes.length, 2)

def later? (closing : Char) (lexemes : List Lexeme) : Read Items :=
  match lexemes with
  | [] => none
  | read :: rest =>
    if read = .mark [closing] then some (.nil, rest)
    else if read = .mark [','] then items? closing rest
    else none
termination_by (lexemes.length, 0)

end

/-- An expression, or two of them between which equality is asked. -/
def condition? (lexemes : List Lexeme) : Read Expression :=
  match expression? lexemes with
  | some (left, .mark ['=', '=', '='] :: rest) =>
    (expression? rest).map fun read => (.equal left read.1, read.2)
  | read => read

end Expressions

section Instructions

/-- The lexemes after a semicolon, if they begin with one. -/
def ended? {α : Type} (value : α) : List Lexeme → Read α
  | .mark [';'] :: rest => some (value, rest)
  | _ => none

/-- The lexemes after a cast to a type, if there is one. -/
def uncast : List Lexeme → List Lexeme
  | .word word :: rest => if word = "as".toList then skipType 0 rest else .word word :: rest
  | rest => rest

mutual

def instruction? (lexemes : List Lexeme) : Read Instruction :=
  match lexemes with
  | .word word :: rest =>
    if word = "const".toList then
      match rest with
      | .word name :: .mark ['='] :: value =>
        (expression? value).bind fun read => ended? (.declare name read.1) read.2
      | _ => none
    else if word = "return".toList then
      match rest with
      | .mark [';'] :: rest => some (.leave, rest)
      | value => (expression? value).bind fun read => ended? (.giveBack read.1) (uncast read.2)
    else if word = "throw".toList then
      (expression? rest).bind fun read => ended? (.throw read.1) read.2
    else if word = "if".toList then
      match rest with
      | .mark ['('] :: inner =>
        match condition? inner with
        | some (test, .mark [')'] :: .mark ['\x7b'] :: body) =>
          if body.length ≤ inner.length then
            (block? body).map fun read => (.branch test read.1, read.2)
          else none
        | _ => none
      | _ => none
    else (expression? lexemes).bind fun read => ended? (.perform read.1) read.2
  | lexemes => (expression? lexemes).bind fun read => ended? (.perform read.1) read.2
termination_by (lexemes.length, 0)

/-- Instructions up to a closing brace. -/
def block? (lexemes : List Lexeme) : Read (List Instruction) :=
  match lexemes with
  | [] => none
  | read :: rest =>
    if read = .mark ['\x7d'] then some ([], rest)
    else match instruction? (read :: rest) with
      | none => none
      | some (instruction, tail) =>
        if tail.length ≤ rest.length then
          (block? tail).map fun read => (instruction :: read.1, read.2)
        else none
termination_by (lexemes.length, 1)

end

end Instructions

section Definitions

/-- The lexemes after the type of a parameter, with or without a question mark before it. -/
def typed? {α : Type} (value : α) : List Lexeme → Read α
  | .mark ['?'] :: .mark [':'] :: type => some (value, skipType 0 type)
  | .mark [':'] :: type => some (value, skipType 0 type)
  | _ => none

def formal? : List Lexeme → Read Formal
  | .mark ['.', '.', '.'] :: .word name :: rest => typed? ⟨name, true⟩ rest
  | .word name :: rest => typed? ⟨name, false⟩ rest
  | _ => none

/-- Parameters between commas up to a closing parenthesis. -/
def formals? (lexemes : List Lexeme) : Read (List Formal) :=
  match lexemes with
  | .mark [')'] :: rest => some ([], rest)
  | lexemes =>
    match formal? lexemes with
    | some (formal, .mark [','] :: rest) =>
      if rest.length < lexemes.length then
        (formals? rest).map fun read => (formal :: read.1, read.2)
      else none
    | some (formal, .mark [')'] :: rest) => some ([formal], rest)
    | _ => none
termination_by lexemes.length

/-- A member after the word that makes it static. -/
def named? (isStatic : Bool) : List Lexeme → Read Definition
  | .word name :: .mark ['('] :: rest =>
    match formals? rest with
    | some (formals, .mark [':'] :: type) =>
      match skipType 0 type with
      | .mark [';'] :: rest => some (⟨isStatic, name, formals, none⟩, rest)
      | .mark ['\x7b'] :: body =>
        (block? body).map fun read => (⟨isStatic, name, formals, some read.1⟩, read.2)
      | _ => none
    | _ => none
  | _ => none

def definition? : List Lexeme → Read Definition
  | .word word :: .word name :: rest =>
    if word = "static".toList then named? true (.word name :: rest) else none
  | lexemes => named? false lexemes

def definitions? (lexemes : List Lexeme) : Option (List Definition) :=
  match lexemes with
  | [] => some []
  | read :: rest =>
    match definition? (read :: rest) with
    | none => none
    | some (definition, tail) =>
      if tail.length ≤ rest.length then (definitions? tail).map (definition :: ·) else none
termination_by lexemes.length

end Definitions

section Legality

/-- The words that name nothing in a module: those of the language, those that strict code
reserves, and the one that modules reserve. -/
def keywords : List Text :=
  ["arguments".toList, "await".toList, "break".toList, "case".toList, "catch".toList,
   "class".toList, "const".toList, "continue".toList, "debugger".toList, "default".toList,
   "delete".toList, "do".toList, "else".toList, "enum".toList, "eval".toList, "export".toList,
   "extends".toList, "false".toList, "finally".toList, "for".toList, "function".toList,
   "if".toList, "implements".toList, "import".toList, "in".toList, "instanceof".toList,
   "interface".toList, "let".toList, "new".toList, "null".toList, "package".toList,
   "private".toList, "protected".toList, "public".toList, "return".toList, "static".toList,
   "super".toList, "switch".toList, "this".toList, "throw".toList, "true".toList,
   "try".toList, "typeof".toList, "var".toList, "void".toList, "while".toList,
   "with".toList, "yield".toList]

/-- A rest parameter stands last. -/
def restLast : List Formal → Bool
  | [] => true
  | formal :: later => (!formal.rest || later.isEmpty) && restLast later

/-- The rules that hold for a method beside its syntax: its parameters differ and are no keywords,
and it has no name that makes it something else than a method. -/
def Definition.legal (definition : Definition) : Bool :=
  (definition.formals.map (·.name)).Nodup &&
    definition.formals.all (fun formal => !keywords.contains formal.name) &&
    restLast definition.formals &&
    definition.name != (if definition.isStatic then "prototype".toList else "constructor".toList)

/-- The implementation behind the signatures of a method, all of one name. -/
def implementation? : List Definition → Option Definition
  | [] => none
  | [last] => if last.body.isSome then some last else none
  | first :: next :: later =>
    if first.body.isNone && first.name = next.name && first.isStatic = next.isStatic then
      implementation? (next :: later)
    else none

/-- The method that a text writes. -/
def method? (text : Text) : Option Definition := do
  let lexemes ← lexemes text
  let definitions ← definitions? lexemes
  if definitions.all Definition.legal then implementation? definitions else none

end Legality

end Reading

end HeaderBindings
