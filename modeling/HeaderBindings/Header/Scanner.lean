import HeaderBindings.Header.Lines

/-!
Reading a header into a class set. The set is at hand all the way: a class goes into it at its end, a
warning at its line. What is being read stands in fields of its own, a comment, a class, its header, a
member, whatever the place is that the lines are in: nothing in their types keeps a member from being
pending without a class.
-/

namespace HeaderBindings

/-- Where code is: between declarations, in a block that is skipped up to its end, or in a class. -/
inductive Place where
  | outside
  | skipping
  | inClass
  deriving DecidableEq, Repr

/-- A comment resumes the place it interrupts. -/
inductive Stage where
  | code (place : Place)
  | comment (resume : Place)
  deriving DecidableEq, Repr

/-- A member that may span several lines, with the comment written for it, if one is. -/
structure HeldMember where
  text : Text
  line : Nat
  doc : Option DocComment
  deriving DecidableEq, Repr

structure Scanner where
  log : ClassLog
  stage : Stage := .code .outside
  assumeNonnull : Bool := false
  comment : OpenComment := ⟨[], false, false⟩
  doc : Option DocComment := none
  availability : Option Text := none
  current : Option ClassDecl := none
  classLine : Nat := 0
  header : Option Text := none
  member : Option HeldMember := none
  depth : Int := 0
  deriving DecidableEq, Repr

namespace Scanner

def start (classes : ClassSet) : Scanner := { log := ⟨classes, []⟩ }

/-! Comments. -/

/-- The place that the end of a comment goes back to: a comment begins in code. -/
def resume (scanner : Scanner) : Place :=
  match scanner.stage with
  | .code place => place
  | .comment _ => .outside

def endComment (scanner : Scanner) (resume : Place) : Scanner :=
  { scanner with
    stage := .code resume
    comment := ⟨[], false, false⟩
    doc :=
      if scanner.comment.isDoc then some (DocComment.parse scanner.comment.text) else scanner.doc }

def beginComment (scanner : Scanner) (comment : OpenComment) : Scanner :=
  { scanner with stage := .comment scanner.resume, comment := comment }

/-- A trimmed line outside comments. -/
def uncommented (scanner : Scanner) (line : Text) : Scanner × Remainder :=
  if line = "NS_ASSUME_NONNULL_BEGIN".toList then
    ({ scanner with assumeNonnull := true }, .nothing)
  else if line = "NS_ASSUME_NONNULL_END".toList then
    ({ scanner with assumeNonnull := false }, .nothing)
  else match line with
    | [] => (scanner, .nothing)
    | '#' :: _ => (scanner, .nothing)
    | '/' :: '/' :: '/' :: body => (scanner.beginComment ⟨body, true, true⟩, .nothing)
    | '/' :: '/' :: _ => (scanner, .nothing)
    | '/' :: '*' :: tail =>
      let isDoc := tail.head? == some '*' || tail.head? == some '!'
      match Text.cutAt? ['*', '/'] tail with
      | some (body, rest) =>
        let comment := ⟨'/' :: '*' :: body ++ ['*', '/'], false, isDoc⟩
        ({ scanner with comment := comment }.endComment scanner.resume, .again rest)
      | none => (scanner.beginComment ⟨'/' :: '*' :: tail, false, isDoc⟩, .nothing)
    | _ => (scanner, .code line)

/-- A trimmed line inside or outside a comment. -/
def peel (scanner : Scanner) (line : Text) : Scanner × Remainder :=
  match scanner.stage with
  | .code _ => scanner.uncommented line
  | .comment resume =>
    if scanner.comment.ofSlashes then
      match line with
      | '/' :: '/' :: '/' :: body =>
        ({ scanner with comment := scanner.comment.addLine body }, .nothing)
      | _ => (scanner.endComment resume).uncommented line
    else match Text.cutAt? ['*', '/'] line with
      | none => ({ scanner with comment := scanner.comment.addLine line }, .nothing)
      | some (body, rest) =>
        ({ scanner with comment := scanner.comment.addLine (body ++ ['*', '/']) }.endComment resume,
          .again rest)

theorem length_uncommented (scanner after : Scanner) (line rest : Text)
    (again : scanner.uncommented line = (after, .again rest)) : rest.length < line.length := by
  unfold uncommented at again
  repeat' split at again
  all_goals first | (cases again; done) | skip
  next found =>
    cases again
    have := Text.length_cutAt _ _ _ _ found
    simp
    omega

theorem length_peel (scanner after : Scanner) (line rest : Text)
    (again : scanner.peel line = (after, .again rest)) : rest.length < line.length := by
  unfold peel at again
  repeat' split at again
  · exact length_uncommented _ _ _ _ again
  · cases again
  · exact length_uncommented _ _ _ _ again
  · cases again
  · next found =>
    cases again
    have whole := Text.eq_of_cutAt _ _ _ _ found
    subst whole
    simp
    omega

section Code

variable (unit : SourceUnit)

/-- Something to note is taken by the class set at once. -/
def report (scanner : Scanner) (note : Note) : Scanner :=
  { scanner with log := scanner.log.take (unit.finding note) }

/-! Code outside classes. -/

def openClass (scanner : Scanner) (number : Nat) (line : Text) : Scanner :=
  let scanner' := { scanner with doc := none, availability := none }
  match ClassHeader.parse line with
  | .error error =>
    { scanner'.report unit (.rejected number error.message) with stage := .code .skipping }
  | .ok header =>
    let doc := (scanner.doc.map (·.description)).getD []
    { scanner'.report unit (.entered header.name (header.category.getD []) number) with
      current := some (header.open scanner.availability doc)
      classLine := number
      header := some line
      depth := OpenClass.braceBalance line
      stage := .code .inClass }

def outsideLine (scanner : Scanner) (number : Nat) (line : Text) : Scanner :=
  let directive := Reader.firstDirective? line
  if directive = some "@interface".toList then scanner.openClass unit number line
  else if directive = some "@protocol".toList && line.getLast? != some ';' then
    { scanner.report unit (.skippedProtocol number) with stage := .code .skipping }
  else if directive = some "@implementation".toList then { scanner with stage := .code .skipping }
  else match macroOnly? line with
    | some availability => { scanner with availability := availability.or scanner.availability }
    | none => { scanner with doc := none, availability := none }

/-! Code in a class. -/

/-- The member that is pending is appended to the class, or rejected at its first line. -/
def flushMember (scanner : Scanner) : Scanner :=
  match scanner.member with
  | none => scanner
  | some member =>
    let scanner := { scanner with member := none }
    let doc := member.doc.getD {}
    -- Without a class a member that can be read is gone without a word.
    if Text.startsWith "@property".toList member.text then
      match Property.parse scanner.assumeNonnull member.text with
      | .ok property =>
        { scanner with current := scanner.current.map (·.addProperty (property.withDoc doc)) }
      | .error error => scanner.report unit (.rejected member.line error.message)
    else
      match Method.parse member.text with
      | .ok method =>
        { scanner with current := scanner.current.map (·.addMethod (method.withDoc doc)) }
      | .error error => scanner.report unit (.rejected member.line error.message)

/-- A member with one more line of text: a semicolon in that line ends it. -/
def holdMember (scanner : Scanner) (member : HeldMember) (line : Text) : Scanner :=
  let scanner := { scanner with member := some member }
  if line.contains ';' then scanner.flushMember unit else scanner

/-- A protocol list on a line after the header. -/
def continueHeader (scanner : Scanner) (number : Nat) (line : Text) : Scanner :=
  match scanner.header with
  | none => scanner
  | some header =>
    let joined := header ++ ' ' :: line
    let scanner' := { scanner with header := none }
    let scanner' := match ClassHeader.parse joined with
      | .ok parsed =>
        { scanner' with
          current := scanner'.current.map fun (decl : ClassDecl) =>
            let decl := decl.conform parsed.protocols
            { decl with availability := decl.availability.or parsed.availability }
          header := some joined }
      | .error error => scanner'.report unit (.rejected number error.message)
    { scanner' with depth := OpenClass.braceBalance line }

def closeClass (scanner : Scanner) : Scanner :=
  let scanner := match scanner.current with
    | some decl =>
      ({ scanner with current := none }.report unit (.closing decl)).report unit (.declared decl)
    | none => scanner
  { scanner with doc := none, stage := .code .outside }

/-- A line of a class with which no member goes on. -/
def freshLine (scanner : Scanner) (number : Nat) (line : Text) : Scanner :=
  if Reader.startsEnd line then scanner.closeClass unit
  else if Reader.startsMember line then
    { scanner with doc := none }.holdMember unit ⟨line, number, scanner.doc⟩ line
  else if line.head? = some '{' then { scanner with depth := OpenClass.braceBalance line }
  else if line = "@optional".toList || line = "@required".toList || (macroOnly? line).isSome then
    scanner
  else { scanner with doc := none }

/-- A line of a class that no header goes on with: it may begin a member, end one or go on with one. -/
def memberLine (scanner : Scanner) (number : Nat) (line : Text) : Scanner :=
  match scanner.member with
  | none => scanner.freshLine unit number line
  | some member =>
    if Reader.startsMember line || Reader.startsEnd line then
      (scanner.flushMember unit).freshLine unit number line
    else scanner.holdMember unit { member with text := member.text ++ ' ' :: line } line

def insideLine (scanner : Scanner) (number : Nat) (line : Text) : Scanner :=
  if scanner.depth > 0 then
    { scanner with depth := scanner.depth + OpenClass.braceBalance line }
  else if line.head? = some '<' && scanner.header.isSome then
    scanner.continueHeader unit number line
  else { scanner with header := none }.memberLine unit number line

/-! Lines. -/

def codeLine (scanner : Scanner) (number : Nat) (line : Text) : Scanner :=
  match scanner.stage with
  | .code .outside => scanner.outsideLine unit number line
  | .code .inClass => scanner.insideLine unit number line
  | .code .skipping =>
    if Reader.startsEnd line then { scanner with stage := .code .outside } else scanner
  | .comment _ => scanner

/-- One line of a header; what follows a comment on the line is read like a line of its own. -/
def readLine (scanner : Scanner) (number : Nat) (raw : Text) : Scanner :=
  match _peeled : scanner.peel (Text.trim raw) with
  | (scanner, .nothing) => scanner
  | (scanner, .code line) => scanner.codeLine unit number line
  | (scanner, .again rest) => scanner.readLine number rest
termination_by raw.length
decreasing_by
  have shorter := length_peel _ _ _ _ _peeled
  have := Text.length_trim raw
  omega

def readLines (scanner : Scanner) (number : Nat) : List Text → Scanner
  | [] => scanner
  | line :: lines => (scanner.readLine unit number line).readLines (number + 1) lines

/-- The end of the text: a class that is open goes into the set, with a warning. -/
def finish (scanner : Scanner) : Scanner :=
  let scanner := scanner.flushMember unit
  match scanner.current with
  | some decl =>
    ({ scanner with current := none }.report unit (.declared decl)).report unit
      (.unclosed decl scanner.classLine)
  | none => scanner

end Code

end Scanner

/-- A class set with what a header adds to it, and what is reported while the header is read. -/
def SourceUnit.extract (unit : SourceUnit) (classes : ClassSet) : ClassLog :=
  (((Scanner.start classes).readLines unit 1 unit.content.lines).finish unit).log

end HeaderBindings
