import HeaderBindings.Header.Note
import HeaderBindings.Header.Reader

/-!
Reading a header line by line. Code outside classes opens a class, opens a block that is skipped,
carries macros for the next class, or clears what was pending. Inside a class, code is a brace
block of instance variables, a wrapped header, a member, or the end. The reader notes what it finds
and has no class set at hand; the scanner reads the same into one.
-/

namespace HeaderBindings

namespace OpenClass

def braceBalance (line : Text) : Int := line.count '{' - line.count '}'

/-- The member that is pending is read and appended, or rejected at its first line. -/
def addMember (current : OpenClass) (assumeNonnull : Bool) (member : PendingMember) :
    OpenClass × List Note :=
  let current := { current with pending := .nothing }
  if Text.startsWith "@property".toList member.text then
    match Property.parse assumeNonnull member.text with
    | .ok property =>
      ({ current with decl := current.decl.addProperty (property.withDoc member.doc) }, [])
    | .error error => (current, [.rejected member.line error.message])
  else
    match Method.parse member.text with
    | .ok method => ({ current with decl := current.decl.addMethod (method.withDoc member.doc) }, [])
    | .error error => (current, [.rejected member.line error.message])

/-- A member with one more line: it is complete at a semicolon and pending without one. -/
def holdMember (current : OpenClass) (assumeNonnull : Bool) (member : PendingMember)
    (line : Text) : OpenClass × List Note :=
  if line.contains ';' then current.addMember assumeNonnull member
  else ({ current with pending := .member member }, [])

/-- A protocol list on a line after the header: the header is read again with that line. -/
def continueHeader (current : OpenClass) (header : Text) (number : Nat) (line : Text) :
    OpenClass × List Note :=
  let joined := header ++ ' ' :: line
  let current := { current with braceDepth := braceBalance line }
  match ClassHeader.parse joined with
  | .ok parsed =>
    let decl := current.decl.conform parsed.protocols
    ({ current with
        decl := { decl with availability := decl.availability.or parsed.availability }
        pending := .header joined }, [])
  | .error error => ({ current with pending := .nothing }, [.rejected number error.message])

def ofHeader (header : ClassHeader) (availability : Option Text) (doc : Text) (number : Nat)
    (line : Text) : OpenClass :=
  { decl := header.open availability doc
    line := number
    pending := .header line
    braceDepth := braceBalance line }

end OpenClass

namespace Reader

def startsMember (line : Text) : Bool :=
  Text.startsWith "@property".toList line || line.head? == some '-' || line.head? == some '+'

def startsEnd (line : Text) : Bool := Text.startsWith "@end".toList line

def firstDirective? (line : Text) : Option Text :=
  (lex line).findSome? fun token => match token with
    | .directive name => some name
    | _ => none

def inside (reader : Reader) (step : OpenClass × List Note) : Reader × List Note :=
  ({ reader with region := .inClass step.1 }, step.2)

def openClass (reader : Reader) (number : Nat) (line : Text) : Reader × List Note :=
  let reader' := { reader with doc := none, availability := none }
  match ClassHeader.parse line with
  | .error error => ({ reader' with region := .skipping }, [.rejected number error.message])
  | .ok header =>
    let doc := (reader.doc.map (·.description)).getD []
    reader'.inside (.ofHeader header reader.availability doc number line,
      [.entered header.name (header.category.getD []) number])

def outsideLine (reader : Reader) (number : Nat) (line : Text) : Reader × List Note :=
  let directive := firstDirective? line
  if directive = some "@interface".toList then reader.openClass number line
  else if directive = some "@protocol".toList && line.getLast? != some ';' then
    ({ reader with region := .skipping }, [.skippedProtocol number])
  else if directive = some "@implementation".toList then ({ reader with region := .skipping }, [])
  else match macroOnly? line with
    | some availability => ({ reader with availability := availability.or reader.availability }, [])
    | none => ({ reader with doc := none, availability := none }, [])

/-- A line of a class in which nothing is pending. -/
def freshLine (reader : Reader) (current : OpenClass) (number : Nat) (line : Text) :
    Reader × List Note :=
  if startsEnd line then
    ({ reader with doc := none, region := .outside },
      [.closing current.decl, .declared current.decl])
  else if startsMember line then
    let member := { text := line, line := number, doc := reader.doc.getD {} }
    { reader with doc := none }.inside (current.holdMember reader.assumeNonnull member line)
  else if line.head? = some '{' then
    reader.inside ({ current with braceDepth := OpenClass.braceBalance line }, [])
  else if line = "@optional".toList || line = "@required".toList || (macroOnly? line).isSome then
    reader.inside (current, [])
  else { reader with doc := none }.inside (current, [])

/-- A line while a member is pending. The start of another member and the end of the class also
end it. -/
def memberLine (reader : Reader) (current : OpenClass) (member : PendingMember) (number : Nat)
    (line : Text) : Reader × List Note :=
  if startsMember line || startsEnd line then
    let flushed := current.addMember reader.assumeNonnull member
    let next := reader.freshLine flushed.1 number line
    (next.1, flushed.2 ++ next.2)
  else
    let member := { member with text := member.text ++ ' ' :: line }
    reader.inside (current.holdMember reader.assumeNonnull member line)

def classLine (reader : Reader) (current : OpenClass) (number : Nat) (line : Text) :
    Reader × List Note :=
  if current.braceDepth > 0 then
    reader.inside
      ({ current with braceDepth := current.braceDepth + OpenClass.braceBalance line }, [])
  else match current.pending with
    | .header header =>
      if line.head? = some '<' then reader.inside (current.continueHeader header number line)
      else reader.freshLine { current with pending := .nothing } number line
    | .member member => reader.memberLine current member number line
    | .nothing => reader.freshLine current number line

def codeLine (reader : Reader) (number : Nat) (line : Text) : Reader × List Note :=
  match reader.region with
  | .outside => reader.outsideLine number line
  | .inClass current => reader.classLine current number line
  | .skipping => if startsEnd line then ({ reader with region := .outside }, []) else (reader, [])

/-- One line of a header; what follows a comment on the line is read like a line of its own. -/
def readLine (reader : Reader) (number : Nat) (raw : Text) : Reader × List Note :=
  match _peeled : reader.peel (Text.trim raw) with
  | (reader, .nothing) => (reader, [])
  | (reader, .code line) => reader.codeLine number line
  | (reader, .again rest) => reader.readLine number rest
termination_by raw.length
decreasing_by
  have shorter := length_peel _ _ _ _ _peeled
  have := Text.length_trim raw
  omega

def readLines (reader : Reader) (number : Nat) : List Text → Reader × List Note
  | [] => (reader, [])
  | line :: lines =>
    let first := reader.readLine number line
    let later := first.1.readLines (number + 1) lines
    (later.1, first.2 ++ later.2)

/-- What the end of the text leaves open. -/
def finish (reader : Reader) : List Note :=
  match reader.region with
  | .inClass current =>
    let flushed := match current.pending with
      | .member member => current.addMember reader.assumeNonnull member
      | _ => (current, [])
    flushed.2 ++ [.declared flushed.1.decl, .unclosed flushed.1.decl current.line]
  | _ => []

end Reader

/-- The notes on a header's text, in order. -/
def notesOf (content : Text) : List Note :=
  let read := Reader.readLines {} 1 content.lines
  read.2 ++ read.1.finish

namespace SourceUnit

/-- What reading a header as text yields. -/
def findings (unit : SourceUnit) : List Finding := (notesOf unit.content).map unit.finding

end SourceUnit

end HeaderBindings
