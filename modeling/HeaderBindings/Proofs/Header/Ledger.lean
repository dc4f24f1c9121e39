import HeaderBindings.Proofs.Header.Variation

/-!
The books of reading a header. Lines of code that open a class, begin or go on with a member, end a class
or are refused leave marks. Whatever the header, its marks are those of a ledger of classes in which each
member that is begun has one outcome, and what the ledger says is what the class set takes: the classes,
each of them once, with the members in their order, and the warnings.
-/

namespace HeaderBindings

def Region.place : Region → Place
  | outside => .outside
  | skipping => .skipping
  | inClass _ => .inClass

section Marks

/-- What a line of code does to the classes of a header and their members. -/
inductive Mark where
  | refused (number : Nat) (message : Text)
  | opened (number : Nat) (header : ClassHeader)
  | begun (number : Nat) (line : Text)
  | joined (line : Text)
  | ended (number : Nat)
  deriving DecidableEq, Repr

/-- A line that a header is read with: whether it can be read shows first at the line. -/
def markOfHeader (number : Nat) : Except DeclarationError ClassHeader → Mark
  | .ok header => .opened number header
  | .error error => .refused number error.message

/-- The mark of a line that ends a class or begins a member. -/
def freshMark? (number : Nat) (line : Text) : Option Mark :=
  if Reader.startsEnd line then some (.ended number)
  else if Reader.startsMember line then some (.begun number line)
  else none

theorem freshMark_of_angle (number : Nat) {line : Text} (angle : line.head? = some '<') :
    freshMark? number line = none := by
  cases line with
  | nil => cases angle
  | cons c rest =>
    obtain rfl : c = '<' := by simpa using angle
    rfl

/-- The mark of any other line, which what is pending may go on with. -/
def Pending.mark? (pending : Pending) (number : Nat) (line : Text) : Option Mark :=
  match pending with
  | .header text =>
    if line.head? = some '<' then
      match ClassHeader.parse (text ++ ' ' :: line) with
      | .ok _ => none
      | .error error => some (.refused number error.message)
    else none
  | .member _ => some (.joined line)
  | .nothing => none

/-- The mark of a line behind the first line of a class. -/
def innerMark? (depth : Int) (pending : Pending) (number : Nat) (line : Text) : Option Mark :=
  if depth > 0 then none else (freshMark? number line).or (pending.mark? number line)

def Reader.mark? (reader : Reader) (number : Nat) (line : Text) : Option Mark :=
  match reader.region with
  | .outside =>
    if firstDirective? line = some "@interface".toList then
      some (markOfHeader number (ClassHeader.parse line))
    else none
  | .inClass current => innerMark? current.braceDepth current.pending number line
  | .skipping => none

namespace Scanner

def mark? (scanner : Scanner) (number : Nat) (line : Text) : Option Mark :=
  match scanner.stage with
  | .code .outside =>
    if Reader.firstDirective? line = some "@interface".toList then
      some (markOfHeader number (ClassHeader.parse line))
    else none
  | .code .inClass => innerMark? scanner.depth scanner.pending number line
  | .code .skipping => none
  | .comment _ => none

/-- The mark of the code on a line, if there is code on it. -/
def marksOfLine (scanner : Scanner) (number : Nat) (raw : Text) : List Mark :=
  match _peeled : scanner.peel (Text.trim raw) with
  | (_, .nothing) => []
  | (scanner, .code line) => (scanner.mark? number line).toList
  | (scanner, .again rest) => scanner.marksOfLine number rest
termination_by raw.length
decreasing_by
  have shorter := length_peel _ _ _ _ _peeled
  have := Text.length_trim raw
  omega

/-- The marks of lines, each at the state that the scanner is in there. -/
def marks (unit : SourceUnit) (scanner : Scanner) (number : Nat) : List Text → List Mark
  | [] => []
  | line :: lines =>
    scanner.marksOfLine number line ++ (scanner.readLine unit number line).marks unit (number + 1) lines

end Scanner

end Marks

section Entries

/-- What becomes of a member: a property, a method or a warning. -/
inductive Outcome where
  | property (property : Property)
  | method (method : Method)
  | refused (message : Text)
  deriving DecidableEq, Repr

namespace Outcome

def property? : Outcome → Option Property
  | property own => some own
  | _ => none

def method? : Outcome → Option Method
  | method own => some own
  | _ => none

def message? : Outcome → Option Text
  | refused message => some message
  | _ => none

end Outcome

def PendingMember.outcome (assumeNonnull : Bool) (member : PendingMember) : Outcome :=
  if Text.startsWith "@property".toList member.text then
    match Property.parse assumeNonnull member.text with
    | .ok property => .property (property.withDoc member.doc)
    | .error error => .refused error.message
  else
    match Method.parse member.text with
    | .ok method => .method (method.withDoc member.doc)
    | .error error => .refused error.message

/-- The lines of a member, with the number of the first one. -/
structure BegunMember where
  number : Nat
  first : Text
  later : List Text
  deriving DecidableEq, Repr

namespace BegunMember

def text (begun : BegunMember) : Text := begun.first ++ begun.later.flatMap (' ' :: ·)

def marks (begun : BegunMember) : List Mark := .begun begun.number begun.first :: begun.later.map .joined

end BegunMember

/-- A member on the books, with the comment written for it and whether null was ruled out at its end. -/
structure MemberEntry where
  begun : BegunMember
  doc : DocComment
  assumeNonnull : Bool
  deriving DecidableEq, Repr

namespace MemberEntry

def outcome (entry : MemberEntry) : Outcome :=
  PendingMember.outcome entry.assumeNonnull ⟨entry.begun.text, entry.begun.number, entry.doc⟩

/-- The warning of a member that is refused, at its first line. -/
def warning? (entry : MemberEntry) : Option (Nat × Text) :=
  entry.outcome.message?.map fun message => (entry.begun.number, message)

end MemberEntry

/-- A class on the books: its header, what it is before its members, a protocol list below the header
that is refused, its members, and the line of its end. -/
structure ClassEntry where
  header : ClassHeader
  number : Nat
  base : ClassDecl
  refusal? : Option (Nat × Text)
  members : List MemberEntry
  ending? : Option Nat
  deriving DecidableEq, Repr

namespace ClassEntry

variable (entry : ClassEntry)

/-- The class with the members whose outcomes are members, in their order. -/
def decl : ClassDecl :=
  { entry.base with
    properties := entry.members.filterMap (·.outcome.property?)
    methods := entry.members.filterMap (·.outcome.method?) }

def openMarks : List Mark :=
  .opened entry.number entry.header :: (entry.refusal?.toList.map fun (number, message) =>
    Mark.refused number message) ++ entry.members.flatMap (·.begun.marks)

def marks : List Mark := entry.openMarks ++ entry.ending?.toList.map .ended

def openWarnings : List (Nat × Text) :=
  entry.refusal?.toList ++ entry.members.filterMap MemberEntry.warning?

/-- The warning of a class without an end, at its first line. -/
def unclosed : Nat × Text :=
  (entry.number, "`@interface ".toList ++ entry.base.name ++ "` is missing its `@end`".toList)

def warnings : List (Nat × Text) :=
  entry.openWarnings ++ if entry.ending?.isSome then [] else [entry.unclosed]

/-- The entry of a class whose header has just been read. -/
def ofHeader (header : ClassHeader) (availability : Option Text) (doc : Text) (number : Nat) :
    ClassEntry where
  header := header
  number := number
  base := header.open availability doc
  refusal? := none
  members := []
  ending? := none

/-- What is kept of the header. -/
structure Sound (entry : ClassEntry) : Prop where
  name : entry.base.name = entry.header.name
  superclass : entry.base.superclass = entry.header.superclass

end ClassEntry

inductive LedgerEntry where
  | refused (number : Nat) (message : Text)
  | declared (entry : ClassEntry)
  deriving DecidableEq, Repr

namespace LedgerEntry

def marks : LedgerEntry → List Mark
  | refused number message => [.refused number message]
  | declared entry => entry.marks

def warnings : LedgerEntry → List (Nat × Text)
  | refused number message => [(number, message)]
  | declared entry => entry.warnings

def decl? : LedgerEntry → Option ClassDecl
  | refused _ _ => none
  | declared entry => some entry.decl

def Sound : LedgerEntry → Prop
  | refused _ _ => True
  | declared entry => entry.Sound

def IsClosed : LedgerEntry → Prop
  | refused _ _ => True
  | declared entry => entry.ending?.isSome

end LedgerEntry

end Entries

section Members

/-- A member is added as its outcome says. -/
theorem OpenClass.addMember_outcome (current : OpenClass) (assumeNonnull : Bool)
    (member : PendingMember) :
    current.addMember assumeNonnull member =
      match member.outcome assumeNonnull with
      | .property property =>
        ({ current with pending := .nothing, decl := current.decl.addProperty property }, [])
      | .method method =>
        ({ current with pending := .nothing, decl := current.decl.addMethod method }, [])
      | .refused message => ({ current with pending := .nothing }, [.rejected member.line message]) := by
  unfold addMember PendingMember.outcome
  split
  · cases Property.parse assumeNonnull member.text <;> rfl
  · cases Method.parse member.text <;> rfl

/-- A class that is open and its entry. -/
structure ClassEntry.Keeps (entry : ClassEntry) (current : OpenClass) : Prop where
  sound : entry.Sound
  unended : entry.ending? = none
  decl : current.decl = entry.decl
  line : current.line = entry.number

/-- The member that is pending, if one is. Protocols may follow while nothing else is on the books. -/
inductive Pends (entry : ClassEntry) (current : OpenClass) : Option BegunMember → Prop where
  | nothing (pending : current.pending = .nothing) : Pends entry current none
  | header {text : Text} (pending : current.pending = .header text) (early : entry.members = [])
      (readable : entry.refusal? = none) : Pends entry current none
  | member {member : PendingMember} {begun : BegunMember}
      (pending : current.pending = .member member) (text : member.text = begun.text)
      (line : member.line = begun.number) (flat : current.braceDepth ≤ 0) :
      Pends entry current (some begun)

/-- What a class leaves on the books: it is open, with its entry so far, or closed. -/
inductive Leaves : Region → List Mark → List (Nat × Text) → List ClassDecl → Prop where
  | unended {current : OpenClass} {entry : ClassEntry} {begun? : Option BegunMember}
      (keeps : entry.Keeps current) (pends : Pends entry current begun?) :
      Leaves (.inClass current) (entry.openMarks ++ (begun?.map BegunMember.marks).getD [])
        entry.openWarnings []
  | closed {entry : ClassEntry} (sound : entry.Sound) (ended : entry.ending?.isSome) :
      Leaves .outside entry.marks entry.warnings [entry.decl]

namespace ClassEntry

variable {entry : ClassEntry} {current : OpenClass}

/-- The entry with one more member. -/
def add (entry : ClassEntry) (member : MemberEntry) : ClassEntry :=
  { entry with members := entry.members ++ [member] }

theorem Sound.add (sound : entry.Sound) (member : MemberEntry) : (entry.add member).Sound :=
  ⟨sound.name, sound.superclass⟩

theorem openMarks_add (entry : ClassEntry) (member : MemberEntry) :
    (entry.add member).openMarks = entry.openMarks ++ member.begun.marks := by
  simp [add, openMarks]

theorem openWarnings_add (entry : ClassEntry) (member : MemberEntry) :
    (entry.add member).openWarnings = entry.openWarnings ++ member.warning?.toList := by
  cases warning : member.warning? <;> simp [add, openWarnings, warning]

/-- A member that is complete goes on the books of its class. -/
theorem Keeps.addMember (keeps : entry.Keeps current) (assumeNonnull : Bool) (member : PendingMember)
    (begun : BegunMember) (text : member.text = begun.text) (line : member.line = begun.number) :
    let step := current.addMember assumeNonnull member
    let added := entry.add ⟨begun, member.doc, assumeNonnull⟩
    added.Keeps step.1 ∧ step.1.pending = .nothing ∧ step.1.braceDepth = current.braceDepth ∧
      added.openWarnings = entry.openWarnings ++ warningsBy step.2 ∧ declaredBy step.2 = [] := by
  have same : (⟨begun.text, begun.number, member.doc⟩ : PendingMember) = member := by
    rw [← text, ← line]
  obtain ⟨sound, unended, decl, number⟩ := keeps
  intro step added
  have outcome : MemberEntry.outcome ⟨begun, member.doc, assumeNonnull⟩ =
      member.outcome assumeNonnull := by
    rw [MemberEntry.outcome, same]
  simp only [step, current.addMember_outcome, added, openWarnings_add, MemberEntry.warning?, outcome]
  cases read : member.outcome assumeNonnull with
  | property property =>
    refine ⟨⟨sound.add _, unended, ?_, number⟩, rfl, rfl, rfl, rfl⟩
    simp [decl, ClassEntry.decl, add, ClassDecl.addProperty, outcome, read, Outcome.property?,
      Outcome.method?]
  | method method =>
    refine ⟨⟨sound.add _, unended, ?_, number⟩, rfl, rfl, rfl, rfl⟩
    simp [decl, ClassEntry.decl, add, ClassDecl.addMethod, outcome, read, Outcome.property?,
      Outcome.method?]
  | refused message =>
    refine ⟨⟨sound.add _, unended, ?_, number⟩, rfl, rfl, ?_, rfl⟩
    · simp [decl, ClassEntry.decl, add, outcome, read, Outcome.property?, Outcome.method?]
    · simp [Outcome.message?, line]

/-- A member that one more line has been joined to is on the books, or pending. -/
theorem Keeps.holdMember (keeps : entry.Keeps current) (flat : current.braceDepth ≤ 0)
    (assumeNonnull : Bool) (member : PendingMember) (begun : BegunMember)
    (text : member.text = begun.text) (number : member.line = begun.number) (line : Text) :
    let step := current.holdMember assumeNonnull member line
    Leaves (.inClass step.1) (entry.openMarks ++ begun.marks)
      (entry.openWarnings ++ warningsBy step.2) (declaredBy step.2) := by
  intro step
  by_cases complete : line.contains ';' = true
  · have same : step = current.addMember assumeNonnull member := if_pos complete
    obtain ⟨kept, pending, _, warnings, decls⟩ :=
      keeps.addMember assumeNonnull member begun text number
    rw [same, decls, ← warnings]
    have leaves := Leaves.unended kept (.nothing pending)
    simpa [openMarks_add] using leaves
  · have same : step = ({ current with pending := .member member }, []) := if_neg complete
    have kept : entry.Keeps { current with pending := .member member } :=
      ⟨keeps.sound, keeps.unended, keeps.decl, keeps.line⟩
    rw [same]
    have leaves := Leaves.unended kept (.member rfl text number flat)
    simpa using leaves

/-- The entry with the line of its end. -/
theorem Keeps.close (keeps : entry.Keeps current) (number : Nat) :
    Leaves .outside (entry.openMarks ++ [.ended number]) entry.openWarnings [current.decl] := by
  let ended : ClassEntry := { entry with ending? := some number }
  have sound : ended.Sound := ⟨keeps.sound.name, keeps.sound.superclass⟩
  have closed := Leaves.closed sound rfl
  have same : ended.decl = current.decl := keeps.decl.symm
  rw [same] at closed
  simpa [ended, marks, warnings, openMarks, openWarnings] using closed

/-- What is noted of a class that is open at the end of a text. -/
theorem Keeps.notes_unclosed (keeps : entry.Keeps current) :
    warningsBy [.declared current.decl, .unclosed current.decl current.line] = [entry.unclosed] ∧
      declaredBy [.declared current.decl, .unclosed current.decl current.line] = [entry.decl] := by
  rw [keeps.decl, keeps.line]
  exact ⟨rfl, rfl⟩

end ClassEntry

end Members

section Lines

variable {entry : ClassEntry} {current : OpenClass}

theorem leaves_nothing (keeps : entry.Keeps current) (pending : current.pending = .nothing) :
    Leaves (.inClass current) entry.openMarks entry.openWarnings [] := by
  simpa using Leaves.unended keeps (.nothing pending)

namespace Reader

variable (reader : Reader)

theorem freshLine_leaves (keeps : entry.Keeps current) (pending : current.pending = .nothing)
    (flat : current.braceDepth ≤ 0) (number : Nat) (line : Text) :
    let step := reader.freshLine current number line
    Leaves step.1.region (entry.openMarks ++ (freshMark? number line).toList)
      (entry.openWarnings ++ warningsBy step.2) (declaredBy step.2) := by
  have same := leaves_nothing keeps pending
  unfold freshLine freshMark?
  by_cases ends : startsEnd line = true
  · have closed := keeps.close number
    have quiet : warningsBy [.closing current.decl, .declared current.decl] = [] := rfl
    have declared : declaredBy [.closing current.decl, .declared current.decl] = [current.decl] := rfl
    simpa [ends, quiet, declared] using closed
  by_cases starts : startsMember line = true
  · have held := keeps.holdMember flat reader.assumeNonnull
      { text := line, line := number, doc := reader.doc.getD {} } ⟨number, line, []⟩
      (by simp [BegunMember.text]) rfl line
    simpa [ends, starts, inside, BegunMember.marks] using held
  simp only [ends, starts, Bool.false_eq_true, if_false, Option.toList_none, List.append_nil]
  split
  · -- A block of variables opens.
    have deep : entry.Keeps { current with braceDepth := OpenClass.braceBalance line } :=
      ⟨keeps.sound, keeps.unended, keeps.decl, keeps.line⟩
    simpa [inside] using leaves_nothing deep pending
  split <;> simpa [inside] using same

/-- A line that begins neither a member nor the end of a class goes on with the member that is pending. -/
theorem memberLine_leaves (keeps : entry.Keeps current) (member : PendingMember) (begun : BegunMember)
    (text : member.text = begun.text) (begins : member.line = begun.number)
    (flat : current.braceDepth ≤ 0) (number : Nat) (line : Text) :
    let step := reader.memberLine current member number line
    Leaves step.1.region
      (entry.openMarks ++ begun.marks ++ [(freshMark? number line).getD (.joined line)])
      (entry.openWarnings ++ warningsBy step.2) (declaredBy step.2) := by
  unfold memberLine
  by_cases ends : startsMember line = true ∨ startsEnd line = true
  · obtain ⟨kept, pending, depth, warnings, decls⟩ :=
      keeps.addMember reader.assumeNonnull member begun text begins
    have fresh := reader.freshLine_leaves kept pending (by rwa [depth]) number line
    rw [ClassEntry.openMarks_add, warnings] at fresh
    have mark : (freshMark? number line).toList = [(freshMark? number line).getD (.joined line)] := by
      rcases ends with starts | ends <;> by_cases startsEnd line = true <;>
        simp_all [freshMark?]
    rw [mark] at fresh
    simpa [ends, warningsBy_append, declaredBy_append, decls] using fresh
  · have held := keeps.holdMember flat reader.assumeNonnull
      { member with text := member.text ++ ' ' :: line }
      { begun with later := begun.later ++ [line] } (by simp [BegunMember.text, text]) begins line
    rw [not_or, Bool.not_eq_true, Bool.not_eq_true] at ends
    simpa [ends, freshMark?, inside, BegunMember.marks] using held

/-- A list of protocols below the header changes the class that its members are added to, or is refused. -/
theorem continueHeader_leaves (keeps : entry.Keeps current) (early : entry.members = [])
    (readable : entry.refusal? = none) (header : Text) (pending : current.pending = .header header)
    (number : Nat) (line : Text) (protocols : line.head? = some '<') :
    let step := current.continueHeader header number line
    Leaves (.inClass step.1) (entry.openMarks ++ (current.pending.mark? number line).toList)
      (entry.openWarnings ++ warningsBy step.2) (declaredBy step.2) := by
  obtain ⟨sound, unended, decl, begins⟩ := keeps
  intro step
  simp only [step, OpenClass.continueHeader, Pending.mark?, pending, if_pos protocols]
  have bare : current.decl.properties = [] ∧ current.decl.methods = [] := by
    simp [decl, ClassEntry.decl, early]
  cases ClassHeader.parse (header ++ ' ' :: line) with
  | ok parsed =>
    have named : current.decl.name = entry.base.name ∧
        current.decl.superclass = entry.base.superclass := by
      simp [decl, ClassEntry.decl]
    let conformed := current.decl.conform parsed.protocols
    let grown : ClassDecl :=
      { conformed with availability := conformed.availability.or parsed.availability }
    have kept : ({ entry with base := grown } : ClassEntry).Keeps
        { decl := grown, line := current.line, pending := .header (header ++ ' ' :: line),
          braceDepth := OpenClass.braceBalance line } :=
      ⟨⟨named.1.trans sound.name, named.2.trans sound.superclass⟩, unended,
        by simp [ClassEntry.decl, early, grown, conformed, ClassDecl.conform, bare], begins⟩
    simpa [ClassEntry.openMarks, ClassEntry.openWarnings, grown, conformed] using
      Leaves.unended kept (.header rfl early readable)
  | error error =>
    have kept : ({ entry with refusal? := some (number, error.message) } : ClassEntry).Keeps
        { decl := current.decl, line := current.line, pending := .nothing,
          braceDepth := OpenClass.braceBalance line } :=
      ⟨⟨sound.name, sound.superclass⟩, unended, decl, begins⟩
    simpa [ClassEntry.openMarks, ClassEntry.openWarnings, early, readable] using leaves_nothing kept rfl

theorem classLine_leaves (keeps : entry.Keeps current) {begun? : Option BegunMember}
    (pends : Pends entry current begun?) (number : Nat) (line : Text) :
    let step := reader.classLine current number line
    Leaves step.1.region (entry.openMarks ++ (begun?.map BegunMember.marks).getD [] ++
        (innerMark? current.braceDepth current.pending number line).toList)
      (entry.openWarnings ++ warningsBy step.2) (declaredBy step.2) := by
  unfold classLine innerMark?
  by_cases deep : current.braceDepth > 0
  · have kept : entry.Keeps
        { current with braceDepth := current.braceDepth + OpenClass.braceBalance line } :=
      ⟨keeps.sound, keeps.unended, keeps.decl, keeps.line⟩
    simp only [if_pos deep, Option.toList_none, List.append_nil]
    cases pends with
    | nothing pending => simpa [inside] using leaves_nothing kept pending
    | header pending early readable =>
      simpa [inside] using Leaves.unended kept (.header pending early readable)
    | member pending text begins flat => omega
  · have flat : current.braceDepth ≤ 0 := by omega
    simp only [if_neg deep]
    cases pends with
    | nothing pending =>
      have fresh := reader.freshLine_leaves keeps pending flat number line
      simpa [pending, Pending.mark?] using fresh
    | @header header pending early readable =>
      simp only [pending]
      by_cases protocols : line.head? = some '<'
      · have continued := continueHeader_leaves keeps early readable header pending number line protocols
        have other := freshMark_of_angle number protocols
        rw [pending] at continued
        simpa [protocols, other, inside] using continued
      · have kept : entry.Keeps { current with pending := .nothing } :=
          ⟨keeps.sound, keeps.unended, keeps.decl, keeps.line⟩
        have fresh := reader.freshLine_leaves kept rfl flat number line
        simpa [protocols, pending, Pending.mark?] using fresh
    | @member member begun pending text begins flat =>
      have joined := reader.memberLine_leaves keeps member begun text begins flat number line
      have mark : ((freshMark? number line).or (current.pending.mark? number line)).toList =
          [(freshMark? number line).getD (.joined line)] := by
        cases freshMark? number line <;> simp [Pending.mark?, pending]
      rw [pending] at mark
      simpa [pending, mark] using joined

end Reader

end Lines

section Runs

/-- The books so far: a ledger of what is closed, and the entry of the class that is open, if one is. -/
inductive Booked : Region → List Mark → List (Nat × Text) → List ClassDecl → Prop where
  | outside {region : Region} (elsewhere : region.place ≠ .inClass) (ledger : List LedgerEntry)
      (closed : ∀ entry ∈ ledger, entry.Sound ∧ entry.IsClosed) :
      Booked region (ledger.flatMap LedgerEntry.marks) (ledger.flatMap LedgerEntry.warnings)
        (ledger.filterMap LedgerEntry.decl?)
  | inClass (ledger : List LedgerEntry) (closed : ∀ entry ∈ ledger, entry.Sound ∧ entry.IsClosed)
      {current : OpenClass} {entry : ClassEntry} {begun? : Option BegunMember}
      (keeps : entry.Keeps current) (pends : Pends entry current begun?) :
      Booked (.inClass current)
        (ledger.flatMap LedgerEntry.marks ++
          (entry.openMarks ++ (begun?.map BegunMember.marks).getD []))
        (ledger.flatMap LedgerEntry.warnings ++ entry.openWarnings)
        (ledger.filterMap LedgerEntry.decl?)

theorem Region.outside_place : Region.outside.place ≠ .inClass := by simp [place]

theorem Region.skipping_place : Region.skipping.place ≠ .inClass := by simp [place]

theorem booked_add {ledger : List LedgerEntry}
    (closed : ∀ entry ∈ ledger, entry.Sound ∧ entry.IsClosed) {entry : LedgerEntry}
    (own : entry.Sound ∧ entry.IsClosed) : ∀ other ∈ ledger ++ [entry], other.Sound ∧ other.IsClosed := by
  intro other member
  rcases List.mem_append.mp member with before | last
  · exact closed other before
  · exact List.mem_singleton.mp last ▸ own

theorem booked_of_leaves {ledger : List LedgerEntry}
    (closed : ∀ entry ∈ ledger, entry.Sound ∧ entry.IsClosed) {region : Region} {marks : List Mark}
    {warnings : List (Nat × Text)} {decls : List ClassDecl}
    (leaves : Leaves region marks warnings decls) :
    Booked region (ledger.flatMap LedgerEntry.marks ++ marks)
      (ledger.flatMap LedgerEntry.warnings ++ warnings) (ledger.filterMap LedgerEntry.decl? ++ decls) := by
  cases leaves with
  | unended keeps pends => simpa using Booked.inClass ledger closed keeps pends
  | @closed entry sound ended =>
    have own : (LedgerEntry.declared entry).Sound ∧ (LedgerEntry.declared entry).IsClosed :=
      ⟨sound, ended⟩
    have booked := Booked.outside Region.outside_place (ledger ++ [.declared entry])
      (booked_add closed own)
    simpa [LedgerEntry.marks, LedgerEntry.warnings, LedgerEntry.decl?] using booked

/-- A ledger says what the marks, the warnings and the declared classes say. -/
structure Balances (ledger : List LedgerEntry) (marks : List Mark) (warnings : List (Nat × Text))
    (decls : List ClassDecl) : Prop where
  sound : ∀ entry ∈ ledger, entry.Sound
  closed : ∀ entry ∈ ledger.dropLast, entry.IsClosed
  marks : marks = ledger.flatMap LedgerEntry.marks
  warnings : warnings = ledger.flatMap LedgerEntry.warnings
  decls : decls = ledger.filterMap LedgerEntry.decl?

theorem balances_unclosed {ledger : List LedgerEntry}
    (closed : ∀ entry ∈ ledger, entry.Sound ∧ entry.IsClosed) {entry : ClassEntry}
    {current : OpenClass} (keeps : entry.Keeps current) :
    Balances (ledger ++ [.declared entry]) (ledger.flatMap LedgerEntry.marks ++ entry.openMarks)
      (ledger.flatMap LedgerEntry.warnings ++ (entry.openWarnings ++ [entry.unclosed]))
      (ledger.filterMap LedgerEntry.decl? ++ [entry.decl]) where
  sound other member := by
    rcases List.mem_append.mp member with before | last
    · exact (closed other before).1
    · exact List.mem_singleton.mp last ▸ keeps.sound
  closed other member := (closed other (by simpa using member)).2
  marks := by simp [LedgerEntry.marks, ClassEntry.marks, keeps.unended]
  warnings := by simp [LedgerEntry.warnings, ClassEntry.warnings, keeps.unended]
  decls := by simp [LedgerEntry.decl?]

namespace Reader

variable (reader : Reader)

theorem openClass_booked {ledger : List LedgerEntry}
    (closed : ∀ entry ∈ ledger, entry.Sound ∧ entry.IsClosed) (number : Nat) (line : Text) :
    let step := reader.openClass number line
    Booked step.1.region
      (ledger.flatMap LedgerEntry.marks ++ [markOfHeader number (ClassHeader.parse line)])
      (ledger.flatMap LedgerEntry.warnings ++ warningsBy step.2)
      (ledger.filterMap LedgerEntry.decl? ++ declaredBy step.2) := by
  unfold openClass
  cases ClassHeader.parse line with
  | error error =>
    have own : (LedgerEntry.refused number error.message).Sound ∧
        (LedgerEntry.refused number error.message).IsClosed := ⟨trivial, trivial⟩
    have booked := Booked.outside Region.skipping_place
      (ledger ++ [.refused number error.message]) (booked_add closed own)
    have none : [LedgerEntry.refused number error.message].filterMap LedgerEntry.decl? = [] := rfl
    simpa [LedgerEntry.marks, LedgerEntry.warnings, markOfHeader, none] using booked
  | ok header =>
    let doc := (reader.doc.map (·.description)).getD []
    have keeps : (ClassEntry.ofHeader header reader.availability doc number).Keeps
        (.ofHeader header reader.availability doc number line) :=
      ⟨⟨rfl, rfl⟩, rfl, rfl, rfl⟩
    have quiet : warningsBy [.entered header.name (header.category.getD []) number] = [] := rfl
    have none : declaredBy [.entered header.name (header.category.getD []) number] = [] := rfl
    simpa [ClassEntry.openMarks, ClassEntry.openWarnings, ClassEntry.ofHeader, markOfHeader, inside,
      quiet, none, doc] using Booked.inClass ledger closed keeps (.header rfl rfl rfl)

theorem outsideLine_booked {ledger : List LedgerEntry}
    (closed : ∀ entry ∈ ledger, entry.Sound ∧ entry.IsClosed) (outside : reader.region = .outside)
    (number : Nat) (line : Text) :
    let step := reader.outsideLine number line
    Booked step.1.region (ledger.flatMap LedgerEntry.marks ++ (reader.mark? number line).toList)
      (ledger.flatMap LedgerEntry.warnings ++ warningsBy step.2)
      (ledger.filterMap LedgerEntry.decl? ++ declaredBy step.2) := by
  -- Any line but one that opens a class leaves the books as they are.
  have same (region : Region) (elsewhere : region.place ≠ .inClass) (notes : List Note)
      (quiet : warningsBy notes = []) (none : declaredBy notes = []) :
      Booked region (ledger.flatMap LedgerEntry.marks ++ [])
        (ledger.flatMap LedgerEntry.warnings ++ warningsBy notes)
        (ledger.filterMap LedgerEntry.decl? ++ declaredBy notes) := by
    simpa [quiet, none] using Booked.outside elsewhere ledger closed
  unfold outsideLine mark?
  rw [outside]
  by_cases opens : firstDirective? line = some "@interface".toList
  · simp only [if_pos opens, Option.toList_some]
    exact reader.openClass_booked closed number line
  · simp only [if_neg opens, Option.toList_none]
    split
    · exact same .skipping Region.skipping_place [.skippedProtocol number] rfl rfl
    split
    · exact same .skipping Region.skipping_place [] rfl rfl
    split
    · exact same .outside Region.outside_place [] rfl rfl
    · exact same .outside Region.outside_place [] rfl rfl

/-- A line of code keeps the books: its mark and what is noted at it are there. -/
theorem codeLine_booked {marks : List Mark} {warnings : List (Nat × Text)} {decls : List ClassDecl}
    (booked : Booked reader.region marks warnings decls) (number : Nat) (line : Text) :
    let step := reader.codeLine number line
    Booked step.1.region (marks ++ (reader.mark? number line).toList)
      (warnings ++ warningsBy step.2) (decls ++ declaredBy step.2) := by
  generalize region : reader.region = place at booked
  cases booked with
  | inClass ledger closed keeps pends =>
    have leaves := booked_of_leaves closed (reader.classLine_leaves keeps pends number line)
    simpa [codeLine, mark?, region, List.append_assoc] using leaves
  | outside elsewhere ledger closed =>
    cases place with
    | inClass current => exact absurd rfl elsewhere
    | outside => simpa [codeLine, region] using reader.outsideLine_booked closed region number line
    | skipping =>
      by_cases ends : startsEnd line = true
      · simpa [codeLine, mark?, region, ends] using
          Booked.outside Region.outside_place ledger closed
      · simpa [codeLine, mark?, region, ends] using Booked.outside elsewhere ledger closed

/-- The end of a text closes the books: a class that is open goes on them without an end. -/
theorem finish_balances {marks : List Mark} {warnings : List (Nat × Text)} {decls : List ClassDecl}
    (booked : Booked reader.region marks warnings decls) :
    ∃ ledger, Balances ledger marks (warnings ++ warningsBy reader.finish)
      (decls ++ declaredBy reader.finish) := by
  generalize region : reader.region = place at booked
  cases booked with
  | outside elsewhere ledger closed =>
    have quiet : reader.finish = [] := by
      unfold finish
      rw [region]
      cases place with
      | inClass current => exact absurd rfl elsewhere
      | _ => rfl
    refine ⟨ledger, ?_⟩
    rw [quiet]
    exact
      { sound := fun entry member => (closed entry member).1
        closed := fun entry member => (closed entry (List.dropLast_subset _ member)).2
        marks := rfl
        warnings := List.append_nil _
        decls := List.append_nil _ }
  | @inClass ledger closed current entry begun? keeps pends =>
    -- Nothing but a member that is pending is noted before the class.
    have plain (finish : reader.finish =
        [.declared current.decl, .unclosed current.decl current.line]) :
        ∃ ledger', Balances ledger' (ledger.flatMap LedgerEntry.marks ++ entry.openMarks)
          (ledger.flatMap LedgerEntry.warnings ++ entry.openWarnings ++ warningsBy reader.finish)
          (ledger.filterMap LedgerEntry.decl? ++ declaredBy reader.finish) := by
      rw [finish, keeps.notes_unclosed.1, keeps.notes_unclosed.2, List.append_assoc]
      exact ⟨_, balances_unclosed closed keeps⟩
    cases pends with
    | nothing pending => simpa using plain (by simp [finish, region, pending])
    | header pending => simpa using plain (by simp [finish, region, pending])
    | @member member begun pending text begins =>
      obtain ⟨kept, _, _, openWarnings, decls⟩ :=
        keeps.addMember reader.assumeNonnull member begun text begins
      have finish : reader.finish = (current.addMember reader.assumeNonnull member).2 ++
          [.declared (current.addMember reader.assumeNonnull member).1.decl,
           .unclosed (current.addMember reader.assumeNonnull member).1.decl
            (current.addMember reader.assumeNonnull member).1.line] := by
        simp [Reader.finish, region, pending, kept.line.trans keeps.line.symm]
      have balances := balances_unclosed closed kept
      rw [ClassEntry.openMarks_add, openWarnings] at balances
      rw [finish, warningsBy_append, declaredBy_append, kept.notes_unclosed.1, kept.notes_unclosed.2,
        decls]
      exact ⟨_, by simpa using balances⟩

end Reader

end Runs

section Headers

namespace Scanner

variable {scanner : Scanner}

theorem mark?_abstract (consistent : scanner.Consistent) (code : scanner.stage = .code scanner.place)
    (number : Nat) (line : Text) : scanner.abstract.mark? number line = scanner.mark? number line := by
  unfold Reader.mark? mark?
  rw [code]
  cases place : scanner.place with
  | outside =>
    have region : scanner.abstract.region = .outside := by simp [abstract, Scanner.region, place]
    rw [region]
  | skipping =>
    have region : scanner.abstract.region = .skipping := by simp [abstract, Scanner.region, place]
    rw [region]
  | inClass =>
    obtain ⟨decl, current⟩ := Option.isSome_iff_exists.mp (consistent.current.mp place)
    have region : scanner.abstract.region = .inClass (scanner.opened decl) :=
      region_of_open place current
    rw [region]
    rfl

theorem flushMember_frame (unit : SourceUnit) (scanner : Scanner) :
    (scanner.flushMember unit).member = none ∧ (scanner.flushMember unit).doc = scanner.doc := by
  unfold flushMember
  cases held : scanner.member with
  | none => exact ⟨held, rfl⟩
  | some member =>
    dsimp only
    split
    · cases Property.parse scanner.assumeNonnull member.text <;> exact ⟨rfl, rfl⟩
    · cases Method.parse member.text <;> exact ⟨rfl, rfl⟩

/-- The start of a member is taken into the buffer, which is flushed before. -/
theorem memberLine_begun (unit : SourceUnit) (scanner : Scanner) (number : Nat) {line : Text}
    (goesOn : Reader.startsEnd line ≠ true) (starts : Reader.startsMember line = true) :
    ∃ before : Scanner, before.member = none ∧
      scanner.memberLine unit number line = before.holdMember unit ⟨line, number, scanner.doc⟩ line := by
  have fresh (scanner : Scanner) : scanner.freshLine unit number line =
      { scanner with doc := none }.holdMember unit ⟨line, number, scanner.doc⟩ line := by
    rw [freshLine, if_neg goesOn, if_pos starts]
  unfold memberLine
  cases held : scanner.member with
  | none => exact ⟨{ scanner with doc := none }, held, fresh scanner⟩
  | some member =>
    obtain ⟨empty, doc⟩ := flushMember_frame unit scanner
    refine ⟨{ scanner.flushMember unit with doc := none }, empty, ?_⟩
    simp only [starts, Bool.true_or, if_true]
    rw [fresh, doc]

/-- A member is on the books as begun where it is taken into the buffer, which is empty then. -/
theorem codeLine_begun (unit : SourceUnit) {number first : Nat} {line text : Text}
    (begun : scanner.mark? number line = some (.begun first text)) :
    first = number ∧ text = line ∧ ∃ before : Scanner, before.member = none ∧
      scanner.codeLine unit number line =
        before.holdMember unit ⟨line, number, scanner.doc⟩ line := by
  have inside : scanner.stage = .code .inClass := by
    cases stage : scanner.stage with
    | comment resume => simp [mark?, stage] at begun
    | code place =>
      cases place with
      | outside =>
        simp only [mark?, stage] at begun
        split at begun
        · cases parsed : ClassHeader.parse line <;> rw [parsed] at begun <;> cases begun
        · cases begun
      | skipping => simp [mark?, stage] at begun
      | inClass => rfl
  simp only [mark?, inside, innerMark?] at begun
  by_cases deep : scanner.depth > 0
  · simp [deep] at begun
  by_cases ends : Reader.startsEnd line = true
  · simp [deep, freshMark?, ends] at begun
  by_cases starts : Reader.startsMember line = true
  · have angle : line.head? ≠ some '<' := fun head => by
      have quiet := freshMark_of_angle number head
      simp [freshMark?, ends, starts] at quiet
    simp only [if_neg deep, freshMark?, if_neg ends, if_pos starts, Option.some_or, Option.some.injEq,
      Mark.begun.injEq] at begun
    refine ⟨begun.1.symm, begun.2.symm, ?_⟩
    rw [codeLine, inside]
    simp only [insideLine, if_neg deep, angle, decide_false, Bool.false_and, Bool.false_eq_true, if_false]
    exact memberLine_begun unit { scanner with header := none } number ends starts
  · simp only [if_neg deep, freshMark?, if_neg ends, if_neg starts, Option.none_or] at begun
    unfold Pending.mark? at begun
    split at begun
    · split at begun
      · split at begun <;> cases begun
      · cases begun
    · cases begun
    · cases begun

/-- A line keeps the books: the mark of its code and what is noted at it are there. -/
theorem readLine_booked (consistent : scanner.Consistent) {marks : List Mark}
    {warnings : List (Nat × Text)} {decls : List ClassDecl}
    (booked : Booked scanner.abstract.region marks warnings decls) (number : Nat) (raw : Text) :
    let step := scanner.abstract.readLine number raw
    Booked step.1.region (marks ++ scanner.marksOfLine number raw) (warnings ++ warningsBy step.2)
      (decls ++ declaredBy step.2) := by
  induction shorter : raw.length using Nat.strongRecOn generalizing raw scanner with
  | ind length ih =>
    rcases peeled : scanner.peel (Text.trim raw) with ⟨next, remainder⟩
    have peels := peels_peel scanner (Text.trim raw)
    rw [peeled] at peels
    have kept := peels.frame.consistent consistent
    have seen : scanner.abstract.peel (Text.trim raw) = (next.abstract, remainder) :=
      Prod.ext peels.reader.symm peels.remainder.symm
    have same : next.abstract.region = scanner.abstract.region := peels.frame.region
    have here : Booked next.abstract.region marks warnings decls := by rwa [same]
    rw [marksOfLine, Reader.readLine, peeled, seen]
    cases left : remainder with
    | nothing => simpa using here
    | code line =>
      have code : next.stage = .code next.place := by
        rw [peels.code line left, peels.frame.place]
      have later := next.abstract.codeLine_booked here number line
      rwa [mark?_abstract kept code] at later
    | again rest =>
      have fewer : rest.length < length := by
        have := length_peel _ _ _ _ (left ▸ peeled)
        have := Text.length_trim raw
        omega
      exact ih rest.length fewer kept here rest rfl

/-- Whatever is read, the books are kept. -/
theorem readLines_booked (unit : SourceUnit) (consistent : scanner.Consistent) {marks : List Mark}
    {warnings : List (Nat × Text)} {decls : List ClassDecl}
    (booked : Booked scanner.abstract.region marks warnings decls) (number : Nat) (lines : List Text) :
    let step := scanner.abstract.readLines number lines
    Booked step.1.region (marks ++ scanner.marks unit number lines) (warnings ++ warningsBy step.2)
      (decls ++ declaredBy step.2) := by
  induction lines generalizing scanner number marks warnings decls with
  | nil => simpa [Reader.readLines, Scanner.marks] using booked
  | cons line lines ih =>
    have follows := readLine_follows unit consistent number line
    have first := readLine_booked consistent booked number line
    dsimp only at first
    rw [← follows.reader] at first
    have later := ih follows.consistent first (number + 1)
    rw [follows.reader] at later
    simpa [Reader.readLines, Scanner.marks, warningsBy_append, declaredBy_append] using later

end Scanner

/-- What is noted on a header balances with a ledger of its marks. -/
theorem balances_notesOf (unit : SourceUnit) (set : ClassSet) :
    ∃ ledger, Balances ledger ((Scanner.start set).marks unit 1 unit.content.lines)
      (warningsBy (notesOf unit.content)) (declaredBy (notesOf unit.content)) := by
  have start : Booked (Scanner.start set).abstract.region [] [] [] :=
    Booked.outside Region.outside_place [] (by simp)
  have read := Scanner.readLines_booked unit (Scanner.consistent_start set) start 1 unit.content.lines
  obtain ⟨ledger, balances⟩ := Reader.finish_balances _ read
  rw [List.nil_append, List.nil_append, List.nil_append, ← warningsBy_append,
    ← declaredBy_append] at balances
  exact ⟨ledger, balances⟩

/-- Reading a header is on the books: every class whose header is read is declared once, with one outcome
for each member that is begun in it, and warned of if it has no end. -/
structure LedgerOf (unit : SourceUnit) (before after : ClassSet) (ledger : List LedgerEntry) : Prop where
  sound : ∀ entry ∈ ledger, entry.Sound
  closed : ∀ entry ∈ ledger.dropLast, entry.IsClosed
  marks : (Scanner.start before).marks unit 1 unit.content.lines =
    ledger.flatMap LedgerEntry.marks
  classes : after.classes = (ledger.filterMap LedgerEntry.decl?).foldl
    (fun classes decl => ClassSet.insertInto decl classes) before.classes
  diagnostics : after.diagnostics = before.diagnostics ++
    (ledger.flatMap LedgerEntry.warnings).map fun warning => unit.diagnostic warning.1 warning.2

/-- The scanner is consistent behind every line of every header, and every class and member is accounted
for. -/
theorem consistent_and_accounted (unit : SourceUnit) (set : ClassSet) :
    (∀ count, ((Scanner.start set).readLines unit 1 (unit.content.lines.take count)).Consistent) ∧
      ∃ ledger, LedgerOf unit set (unit.extract set).classes ledger := by
  constructor
  · intro count
    exact (Scanner.readLines_follows unit (Scanner.consistent_start set) 1 _).consistent
  · obtain ⟨ledger, balances⟩ := balances_notesOf unit set
    refine ⟨ledger, balances.sound, balances.closed, balances.marks, ?_, ?_⟩
    · rw [unit.extract_eq, SourceUnit.findings, (set.recordAll_notes unit _).1, ← balances.decls]
    · rw [unit.extract_eq, SourceUnit.findings, set.recordAll_diagnostics unit, ← balances.warnings]

example :
    let unit := SourceUnit.inline "@interface Box\n- (void)hide\n  :(int)x;\n@end".toList
    (Scanner.start .empty).marks unit 1 unit.content.lines =
      [.opened 1 { name := "Box".toList }, .begun 2 "- (void)hide".toList, .joined ":(int)x;".toList,
       .ended 4] := by
  decide +kernel

end Headers

end HeaderBindings
