import HeaderBindings.Run.Generate

/-!
The scanner against the reader. A scanner whose fields agree about the place it is in is a reader beside a
class set and a log: its class, its header and its member are those of the region. Each of its steps leaves
such a scanner, and what the reader notes on the way is what the set and the log take, so that extracting a
header is recording what it yields.
-/

namespace HeaderBindings

section Abstraction

def HeldMember.pending (member : HeldMember) : PendingMember :=
  ⟨member.text, member.line, member.doc.getD {}⟩

namespace Scanner

variable (scanner : Scanner)

/-- The place that code is in, or that a comment resumes. -/
def place : Place :=
  match scanner.stage with
  | .code place => place
  | .comment resume => resume

/-- A class is open in the place of a class and nowhere else, and what is pending is pending there: a member
only if no header is, and outside of blocks of variables. -/
structure Consistent : Prop where
  current : scanner.place = .inClass ↔ scanner.current.isSome
  header : scanner.header.isSome → scanner.place = .inClass
  member : scanner.member.isSome →
    scanner.place = .inClass ∧ scanner.header = none ∧ scanner.depth ≤ 0

def pending : Pending :=
  match scanner.header with
  | some header => .header header
  | none => match scanner.member with
    | some member => .member member.pending
    | none => .nothing

def opened (decl : ClassDecl) : OpenClass := ⟨decl, scanner.classLine, scanner.pending, scanner.depth⟩

/-- The region of a place: in a class it has what the fields have. -/
def region : Region :=
  match scanner.place, scanner.current with
  | .inClass, some decl => .inClass (scanner.opened decl)
  | .skipping, _ => .skipping
  | _, _ => .outside

def abstract : Reader where
  assumeNonnull := scanner.assumeNonnull
  comment := match scanner.stage with
    | .code _ => none
    | .comment _ => some scanner.comment
  doc := scanner.doc
  availability := scanner.availability
  region := scanner.region

end Scanner

end Abstraction

namespace Scanner

variable (unit : SourceUnit) {scanner : Scanner}

section Steps

/-- A step of the scanner does what a step of the reader does, and what the reader notes is taken by the set
and by the log. -/
structure Follows (before after : Scanner) (step : Reader × List Note) : Prop where
  consistent : after.Consistent
  reader : after.abstract = step.1
  log : after.log = before.log.takeAll (step.2.map unit.finding)

namespace Follows

variable {unit} {before between after : Scanner} {reader : Reader} {step : Reader × List Note}

theorem quiet (consistent : after.Consistent) (abstracts : after.abstract = reader)
    (log : after.log = before.log) : Follows unit before after (reader, []) :=
  ⟨consistent, abstracts, log⟩

theorem noted {note : Note} (consistent : after.Consistent) (abstracts : after.abstract = reader)
    (log : after.log = (before.report unit note).log) : Follows unit before after (reader, [note]) :=
  ⟨consistent, abstracts, log⟩

/-- A step that is taken from a scanner with the same log. -/
theorem of_log (follows : Follows unit between after step) (same : between.log = before.log) :
    Follows unit before after step :=
  ⟨follows.consistent, follows.reader, same ▸ follows.log⟩

theorem andThen {notes : List Note}
    (first : Follows unit before between (reader, notes)) (second : Follows unit between after step) :
    Follows unit before after (step.1, notes ++ step.2) where
  consistent := second.consistent
  reader := second.reader
  log := by rw [second.log, first.log, List.map_append, ClassLog.takeAll_append]

end Follows

end Steps

section Places

/-- Outside of classes there is no class, and nothing of one is pending. -/
theorem Consistent.vacant (consistent : scanner.Consistent) (elsewhere : scanner.place ≠ .inClass) :
    scanner.current = none ∧ scanner.header = none ∧ scanner.member = none := by
  refine ⟨?_, ?_, ?_⟩
  · have open? := mt consistent.current.mpr elsewhere
    simpa using open?
  · have header := mt consistent.header elsewhere
    simpa using header
  · have member := mt (fun some => (consistent.member some).1) elsewhere
    simpa using member

/-- Where nothing of a class is left, a scanner outside of classes is consistent. -/
theorem consistent_of_vacant (elsewhere : scanner.place ≠ .inClass) (current : scanner.current = none)
    (header : scanner.header = none) (member : scanner.member = none) : scanner.Consistent where
  current := by simp [elsewhere, current]
  header some := by simp [header] at some
  member some := by simp [member] at some

theorem consistent_start (classes : ClassSet) : (start classes).Consistent :=
  consistent_of_vacant (by simp [place, start]) rfl rfl rfl

/-- In a class a scanner is consistent if its class is there and no two things are pending. -/
theorem consistent_of_open {decl : ClassDecl} (inside : scanner.place = .inClass)
    (current : scanner.current = some decl)
    (member : scanner.member.isSome → scanner.header = none ∧ scanner.depth ≤ 0) :
    scanner.Consistent where
  current := by simp [inside, current]
  header _ := inside
  member some := ⟨inside, member some⟩

end Places

section Comments

/-- Comments leave everything of classes as it is. -/
structure Frame (before after : Scanner) : Prop where
  place : after.place = before.place
  log : after.log = before.log
  current : after.current = before.current
  classLine : after.classLine = before.classLine
  header : after.header = before.header
  member : after.member = before.member
  depth : after.depth = before.depth

namespace Frame

variable {before after : Scanner} (frame : Frame before after)
include frame

theorem consistent (known : before.Consistent) : after.Consistent := by
  constructor
  · rw [frame.place, frame.current]
    exact known.current
  · rw [frame.header, frame.place]
    exact known.header
  · rw [frame.member, frame.place, frame.header, frame.depth]
    exact known.member

theorem region : after.region = before.region := by
  simp [Scanner.region, opened, pending, frame.place, frame.current, frame.classLine, frame.header,
    frame.member, frame.depth]

theorem trans {last : Scanner} (later : Frame after last) : Frame before last where
  place := later.place.trans frame.place
  log := later.log.trans frame.log
  current := later.current.trans frame.current
  classLine := later.classLine.trans frame.classLine
  header := later.header.trans frame.header
  member := later.member.trans frame.member
  depth := later.depth.trans frame.depth

end Frame

/-- A look at comments of the scanner is one of the reader, and code that is left is left in code. -/
structure Peels (scanner : Scanner) (step : Scanner × Remainder) (seen : Reader × Remainder) : Prop where
  frame : Frame scanner step.1
  reader : step.1.abstract = seen.1
  remainder : step.2 = seen.2
  code : ∀ line, step.2 = .code line → step.1.stage = .code scanner.place

/-- What is looked at after a comment has been dealt with. -/
theorem Peels.behind {between : Scanner} {step : Scanner × Remainder} {seen : Reader × Remainder}
    (frame : Frame scanner between) (peels : Peels between step seen) : Peels scanner step seen where
  frame := frame.trans peels.frame
  reader := peels.reader
  remainder := peels.remainder
  code line left := by rw [peels.code line left, frame.place]

/-- A line without a comment's start or end, but for what it says of null. -/
theorem peels_quiet {place : Place} (code : scanner.stage = .code place) (assumed : Bool)
    {remainder : Remainder} : Peels scanner ({ scanner with assumeNonnull := assumed }, remainder)
      ({ scanner.abstract with assumeNonnull := assumed }, remainder) where
  frame := by constructor <;> rfl
  reader := rfl
  remainder := rfl
  code line _ := by simp [Scanner.place, code]

/-- A comment begins behind code and goes on on the next line. -/
theorem peels_beginComment {place : Place} (code : scanner.stage = .code place) (comment : OpenComment) :
    Peels scanner (scanner.beginComment comment, .nothing)
      ({ scanner.abstract with comment := some comment }, .nothing) where
  frame := by constructor <;> simp [beginComment, Scanner.place, resume, code]
  reader := by simp [beginComment, abstract, Scanner.region, Scanner.place, resume, code, opened, pending]
  remainder := rfl
  code line left := by cases left

/-- A comment goes on. -/
theorem peels_goOn {place : Place} (inside : scanner.stage = .comment place) (comment : OpenComment) :
    Peels scanner ({ scanner with stage := .comment place, comment := comment }, .nothing)
      ({ scanner.abstract with comment := some comment }, .nothing) where
  frame := by constructor <;> simp [Scanner.place, inside]
  reader := by simp [abstract, inside, Scanner.region, Scanner.place, opened, pending]
  remainder := rfl
  code line left := by cases left

/-- A comment ends, and the place that it resumes is gone on with. -/
theorem peels_endComment (comment : OpenComment) {remainder : Remainder} :
    Peels scanner ({ scanner with comment := comment }.endComment scanner.place, remainder)
      (scanner.abstract.closeComment comment, remainder) where
  frame := by constructor <;> rfl
  reader := rfl
  remainder := rfl
  code line _ := rfl

theorem peels_uncommented {place : Place} (code : scanner.stage = .code place) (line : Text) :
    Peels scanner (scanner.uncommented line) (scanner.abstract.uncommented line) := by
  have here : scanner.resume = scanner.place := by simp [resume, Scanner.place, code]
  have same {remainder : Remainder} : Peels scanner (scanner, remainder) (scanner.abstract, remainder) :=
    peels_quiet code scanner.assumeNonnull
  unfold uncommented Reader.uncommented
  by_cases begins : line = "NS_ASSUME_NONNULL_BEGIN".toList
  · simp only [if_pos begins]
    exact peels_quiet code true
  by_cases ends : line = "NS_ASSUME_NONNULL_END".toList
  · simp only [if_neg begins, if_pos ends]
    exact peels_quiet code false
  simp only [if_neg begins, if_neg ends]
  clear begins ends
  split
  · exact same
  · exact same
  · exact peels_beginComment code _
  · next tail single =>
    have plain : ∀ body, tail ≠ '/' :: body := fun body => single body
    simpa [plain] using same
  · next tail =>
    simp only [here]
    cases Text.cutAt? ['*', '/'] tail with
    | none => exact peels_beginComment code _
    | some cut => exact peels_endComment _
  · simp_all

/-- A look at comments, wherever the scanner is. -/
theorem peels_peel (scanner : Scanner) (line : Text) :
    Peels scanner (scanner.peel line) (scanner.abstract.peel line) := by
  unfold peel
  match stage : scanner.stage with
  | .code place =>
    have outside : scanner.abstract.comment = none := by simp [abstract, stage]
    rw [Reader.peel, outside]
    exact peels_uncommented stage line
  | .comment place =>
    have inside : scanner.abstract.comment = some scanner.comment := by simp [abstract, stage]
    obtain rfl : scanner.place = place := by simp [Scanner.place, stage]
    have ended : Peels scanner (_, .nothing) _ := peels_endComment scanner.comment
    simp only [Reader.peel, inside]
    by_cases slashes : scanner.comment.ofSlashes = true
    · simp only [if_pos slashes]
      split
      · exact peels_goOn stage _
      · next finished =>
        have behind : Peels (scanner.endComment scanner.place) _ _ := peels_uncommented rfl line
        rw [ended.reader] at behind
        simpa [finished] using behind.behind ended.frame
    · simp only [if_neg slashes]
      cases Text.cutAt? ['*', '/'] line with
      | none => exact peels_goOn stage _
      | some cut => exact peels_endComment _

end Comments

section Outside

variable (consistent : scanner.Consistent) (code : scanner.stage = .code .outside)
include consistent code

theorem openClass_follows (number : Nat) (line : Text) :
    Follows unit scanner (scanner.openClass unit number line)
      (scanner.abstract.openClass number line) := by
  have elsewhere : scanner.place ≠ .inClass := by simp [place, code]
  obtain ⟨current, header, member⟩ := consistent.vacant elsewhere
  unfold openClass Reader.openClass
  cases ClassHeader.parse line with
  | error error =>
    refine Follows.noted (consistent_of_vacant (by simp [place]) current header member) ?_ rfl
    simp [abstract, region, place, report, code]
  | ok read =>
    refine Follows.noted (consistent_of_open rfl rfl fun held => ?_) ?_ rfl
    · simp [report, member] at held
    · simp [abstract, region, place, report, code, opened, pending, OpenClass.ofHeader]

theorem outsideLine_follows (number : Nat) (line : Text) :
    Follows unit scanner (scanner.outsideLine unit number line)
      (scanner.abstract.outsideLine number line) := by
  have elsewhere : scanner.place ≠ .inClass := by simp [place, code]
  obtain ⟨current, header, member⟩ := consistent.vacant elsewhere
  unfold outsideLine Reader.outsideLine
  simp only
  split
  · exact openClass_follows unit consistent code number line
  split
  · refine Follows.noted ?vacant ?skipping rfl
    case vacant => exact consistent_of_vacant (by simp [place]) current header member
    case skipping => simp [abstract, region, place, report, code]
  split
  · refine Follows.quiet ?vacant ?skipping rfl
    case vacant => exact consistent_of_vacant (by simp [place]) current header member
    case skipping => simp [abstract, region, place, code]
  cases macroOnly? line with
  | some availability =>
    refine Follows.quiet ?_ rfl rfl
    exact consistent_of_vacant elsewhere current header member
  | none =>
    refine Follows.quiet ?_ rfl rfl
    exact consistent_of_vacant elsewhere current header member

end Outside

section Inside

/-- A scanner in a class, where no header is pending and outside of blocks of variables. -/
structure Flat (scanner : Scanner) (decl : ClassDecl) : Prop where
  place : scanner.place = .inClass
  current : scanner.current = some decl
  header : scanner.header = none
  depth : scanner.depth ≤ 0

variable {decl : ClassDecl}

theorem region_of_open (inside : scanner.place = .inClass) (current : scanner.current = some decl) :
    scanner.region = .inClass (scanner.opened decl) := by
  simp [region, inside, current]

theorem pending_of_header {header : Text} (headed : scanner.header = some header) :
    scanner.pending = .header header := by
  simp [pending, headed]

theorem pending_of_member {member : HeldMember} (unheaded : scanner.header = none)
    (held : scanner.member = some member) : scanner.pending = .member member.pending := by
  simp [pending, unheaded, held]

theorem pending_of_nothing (unheaded : scanner.header = none) (nothing : scanner.member = none) :
    scanner.pending = .nothing := by
  simp [pending, unheaded, nothing]

theorem Flat.consistent (flat : scanner.Flat decl) : scanner.Consistent :=
  consistent_of_open flat.place flat.current fun _ => ⟨flat.header, flat.depth⟩

/-- The class of a scanner that is a given reader is the class of the reader. -/
theorem Flat.opened_eq (flat : scanner.Flat decl) {reader : Reader} {step : OpenClass × List Note}
    (abstracts : scanner.abstract = (reader.inside step).1) : scanner.opened decl = step.1 :=
  Region.inClass.inj
    ((region_of_open flat.place flat.current).symm.trans (congrArg Reader.region abstracts))

/-- A scanner in a class is the reader that another one is but for the class. -/
theorem abstract_inside (before : Scanner) {after : Scanner} (inside : after.place = .inClass)
    (current : after.current = some decl)
    (others : { after.abstract with region := .outside } = { before.abstract with region := .outside }) :
    after.abstract = { before.abstract with region := .inClass (after.opened decl) } := by
  have region : after.abstract.region = .inClass (after.opened decl) := region_of_open inside current
  calc
    after.abstract = { after.abstract with region := after.abstract.region } := rfl
    _ = { after.abstract with region := .inClass (after.opened decl) } := by rw [region]
    _ = { before.abstract with region := .inClass (after.opened decl) } :=
      congrArg (fun reader : Reader => { reader with region := .inClass (after.opened decl) }) others

/-- A member that can be read is appended to the class. -/
theorem append_follows (flat : scanner.Flat decl) (decl' : ClassDecl) :
    let after := { scanner with member := none, current := some decl' }
    after.Flat decl' ∧ after.member = none ∧
      Follows unit scanner after
        (scanner.abstract.inside
          ({ scanner.opened decl with pending := .nothing, decl := decl' }, [])) := by
  intro after
  have kept : after.Flat decl' := ⟨flat.place, rfl, flat.header, flat.depth⟩
  have same : after.opened decl' = { scanner.opened decl with pending := .nothing, decl := decl' } := by
    simp [after, opened, pending, flat.header]
  have reader := abstract_inside scanner kept.place rfl rfl
  rw [same] at reader
  exact ⟨kept, rfl, Follows.quiet kept.consistent reader rfl⟩

/-- A member that cannot be read is warned of, and the class is as it was. -/
theorem reject_follows (flat : scanner.Flat decl) (note : Note) :
    let after := { scanner with member := none }.report unit note
    after.Flat decl ∧ after.member = none ∧
      Follows unit scanner after
        (scanner.abstract.inside ({ scanner.opened decl with pending := .nothing }, [note])) := by
  intro after
  have kept : after.Flat decl := ⟨flat.place, flat.current, flat.header, flat.depth⟩
  have same : after.opened decl = { scanner.opened decl with pending := .nothing } := by
    simp [after, report, opened, pending, flat.header]
  have reader := abstract_inside scanner kept.place kept.current rfl
  rw [same] at reader
  exact ⟨kept, rfl, Follows.noted kept.consistent reader rfl⟩

/-- A flush leaves a scanner with the member appended or with a warning. -/
theorem flushMember_follows (flat : scanner.Flat decl) {member : HeldMember}
    (held : scanner.member = some member) :
    let step := (scanner.opened decl).addMember scanner.assumeNonnull member.pending
    (scanner.flushMember unit).Flat step.1.decl ∧ (scanner.flushMember unit).member = none ∧
      Follows unit scanner (scanner.flushMember unit) (scanner.abstract.inside step) := by
  unfold flushMember OpenClass.addMember
  rw [held]
  by_cases property : Text.startsWith "@property".toList member.text = true
  · have pending : Text.startsWith "@property".toList member.pending.text = true := property
    simp only [if_pos property, if_pos pending]
    simp only [HeldMember.pending]
    cases Property.parse scanner.assumeNonnull member.text with
    | ok property =>
      rw [flat.current]
      exact append_follows unit flat _
    | error error => exact reject_follows unit flat _
  · have pending : ¬ Text.startsWith "@property".toList member.pending.text = true := property
    simp only [if_neg property, if_neg pending]
    simp only [HeldMember.pending]
    cases Method.parse member.text with
    | ok method =>
      rw [flat.current]
      exact append_follows unit flat _
    | error error => exact reject_follows unit flat _

/-- A member is held, or flushed at once. -/
theorem holdMember_follows (flat : scanner.Flat decl) (member : HeldMember) (pending : Pending)
    (line : Text) :
    Follows unit scanner (scanner.holdMember unit member line)
      (scanner.abstract.inside
        ({ scanner.opened decl with pending := pending }.holdMember scanner.assumeNonnull
          member.pending line)) := by
  let holding := { scanner with member := some member }
  have held : holding.Flat decl := ⟨flat.place, flat.current, flat.header, flat.depth⟩
  unfold holdMember OpenClass.holdMember
  by_cases complete : line.contains ';' = true
  · simp only [if_pos complete]
    obtain ⟨_, _, flushed⟩ := flushMember_follows unit held rfl
    exact flushed.of_log rfl
  · simp only [if_neg complete]
    have same : holding.opened decl = { scanner.opened decl with pending := .member member.pending } := by
      simp [holding, opened, Scanner.pending, flat.header]
    have reader := abstract_inside scanner held.place held.current rfl
    rw [same] at reader
    exact Follows.quiet held.consistent reader rfl

/-- Between its members a class goes on whatever the depth. -/
theorem deepen_follows (inside : scanner.place = .inClass) (current : scanner.current = some decl)
    (nothing : scanner.member = none) (depth : Int) :
    Follows unit scanner { scanner with depth := depth }
      (scanner.abstract.inside ({ scanner.opened decl with braceDepth := depth }, [])) := by
  let deeper := { scanner with depth := depth }
  have consistent : deeper.Consistent :=
    consistent_of_open inside current fun held => by simp [deeper, nothing] at held
  exact Follows.quiet consistent (abstract_inside scanner inside current rfl) rfl

/-- The end of a class puts it into the set. -/
theorem closeClass_follows (flat : scanner.Flat decl) (code : scanner.stage = .code .inClass)
    (nothing : scanner.member = none) :
    Follows unit scanner (scanner.closeClass unit)
      ({ scanner.abstract with doc := none, region := .outside }, [.closing decl, .declared decl]) := by
  have closed : scanner.closeClass unit =
      { ({ scanner with current := none }.report unit (.closing decl)).report unit (.declared decl) with
        doc := none, stage := .code .outside } := by
    rw [closeClass, flat.current]
  rw [closed]
  constructor
  · exact consistent_of_vacant (by simp [place]) rfl flat.header nothing
  · simp [abstract, region, place, report, code]
  · rfl

/-- A line of a class with which no member goes on, if none is pending. -/
theorem freshLine_follows (flat : scanner.Flat decl) (code : scanner.stage = .code .inClass)
    (nothing : scanner.member = none) (number : Nat) (line : Text) :
    Follows unit scanner (scanner.freshLine unit number line)
      (scanner.abstract.freshLine (scanner.opened decl) number line) := by
  let undocumented := { scanner with doc := none }
  have kept : undocumented.Flat decl := ⟨flat.place, flat.current, flat.header, flat.depth⟩
  unfold freshLine Reader.freshLine
  split
  · exact closeClass_follows unit flat code nothing
  split
  · exact (holdMember_follows unit kept ⟨line, number, scanner.doc⟩ scanner.pending line).of_log rfl
  split
  · exact deepen_follows unit flat.place flat.current nothing _
  split
  · exact deepen_follows unit flat.place flat.current nothing scanner.depth
  · exact (deepen_follows unit kept.place kept.current nothing scanner.depth).of_log rfl

/-- A protocol list below the header is read with it. -/
theorem continueHeader_follows (inside : scanner.place = .inClass)
    (current : scanner.current = some decl) {header : Text} (pending : scanner.header = some header)
    (nothing : scanner.member = none) (number : Nat) (line : Text) :
    Follows unit scanner (scanner.continueHeader unit number line)
      (scanner.abstract.inside ((scanner.opened decl).continueHeader header number line)) := by
  unfold continueHeader OpenClass.continueHeader
  simp only [pending, current]
  cases ClassHeader.parse (header ++ ' ' :: line) with
  | ok parsed =>
    refine Follows.quiet ?_ (abstract_inside scanner inside rfl rfl) rfl
    exact consistent_of_open inside rfl fun held => by simp [nothing] at held
  | error error =>
    refine Follows.noted ?_ ?_ rfl
    · exact consistent_of_open inside rfl fun held => by simp [report, nothing] at held
    · let refused := { scanner with header := none, current := some decl }.report unit
        (.rejected number error.message)
      have kept : ({ refused with depth := OpenClass.braceBalance line } : Scanner).abstract = _ :=
        abstract_inside scanner inside rfl rfl
      simpa [refused, opened, Scanner.pending, report, nothing] using kept

/-- Where the reader is in no comment, the scanner is in code. -/
theorem code_of_comment (outside : scanner.abstract.comment = none) :
    scanner.stage = .code scanner.place := by
  cases stage : scanner.stage with
  | code place => simp [Scanner.place, stage]
  | comment resume => simp [abstract, stage] at outside

/-- A member that is pending is flushed before a line that begins another one or ends the class. -/
theorem memberLine_follows (flat : scanner.Flat decl) (code : scanner.stage = .code .inClass)
    (number : Nat) (line : Text) :
    Follows unit scanner (scanner.memberLine unit number line)
      (match scanner.member with
      | none => scanner.abstract.freshLine (scanner.opened decl) number line
      | some member =>
        scanner.abstract.memberLine (scanner.opened decl) member.pending number line) := by
  unfold memberLine Reader.memberLine
  cases held : scanner.member with
  | none => exact freshLine_follows unit flat code held number line
  | some member =>
    dsimp only
    split
    · obtain ⟨flushed, nothing, follows⟩ := flushMember_follows unit flat held
      have outside : (scanner.flushMember unit).abstract.comment = none := by
        rw [follows.reader]
        simp [Reader.inside, abstract, code]
      have coded := (code_of_comment outside).trans (congrArg Stage.code flushed.place)
      have fresh := freshLine_follows unit flushed coded nothing number line
      rw [flushed.opened_eq follows.reader, follows.reader] at fresh
      exact follows.andThen fresh
    · exact holdMember_follows unit flat _ scanner.pending line

/-- In a block of variables only braces are counted, and no member is pending. -/
theorem blockLine_follows (consistent : scanner.Consistent) (inside : scanner.place = .inClass)
    (current : scanner.current = some decl) (deep : scanner.depth > 0) (number : Nat) (line : Text) :
    Follows unit scanner (scanner.insideLine unit number line)
      (scanner.abstract.classLine (scanner.opened decl) number line) := by
  have deep' : (scanner.opened decl).braceDepth > 0 := deep
  let deeper := { scanner with depth := scanner.depth + OpenClass.braceBalance line }
  have kept : deeper.Consistent := consistent_of_open inside current fun held => by
    have flat := (consistent.member held).2.2
    omega
  rw [insideLine, Reader.classLine, if_pos deep, if_pos deep']
  exact Follows.quiet kept (abstract_inside scanner inside current rfl) rfl

/-- While a header is pending, a line goes on with its protocols or is one of the class. -/
theorem headedLine_follows (unheaded : { scanner with header := none }.Flat decl)
    (code : scanner.stage = .code .inClass) {header : Text} (headed : scanner.header = some header)
    (nothing : scanner.member = none) (number : Nat) (line : Text) :
    Follows unit scanner (scanner.insideLine unit number line)
      (scanner.abstract.classLine (scanner.opened decl) number line) := by
  have pending : (scanner.opened decl).pending = .header header := pending_of_header headed
  have flat : ¬ scanner.depth > 0 := Int.not_lt.mpr unheaded.depth
  have flat' : ¬ (scanner.opened decl).braceDepth > 0 := flat
  rw [insideLine, Reader.classLine, if_neg flat, if_neg flat', headed]
  simp only [pending]
  by_cases protocols : line.head? = some '<'
  · simp only [protocols, Option.isSome_some, decide_true, Bool.and_self, if_true]
    have inside : scanner.place = .inClass := unheaded.place
    exact continueHeader_follows unit inside unheaded.current headed nothing number line
  · have same : { scanner with header := none }.opened decl =
        { scanner.opened decl with pending := .nothing } := by
      simp [opened, Scanner.pending, nothing]
    have rest := memberLine_follows unit unheaded code number line
    rw [same] at rest
    simp only [nothing] at rest
    simp only [protocols, decide_false, Bool.false_and, Bool.false_eq_true, if_false, nothing]
    exact rest.of_log rfl

theorem insideLine_follows (consistent : scanner.Consistent) (code : scanner.stage = .code .inClass)
    (current : scanner.current = some decl) (number : Nat) (line : Text) :
    Follows unit scanner (scanner.insideLine unit number line)
      (scanner.abstract.classLine (scanner.opened decl) number line) := by
  have inside : scanner.place = .inClass := by simp [place, code]
  by_cases deep : scanner.depth > 0
  · exact blockLine_follows unit consistent inside current deep number line
  have unheaded : { scanner with header := none }.Flat decl :=
    ⟨inside, current, rfl, Int.not_lt.mp deep⟩
  cases headed : scanner.header with
  | some header =>
    have nothing : scanner.member = none := by
      cases held : scanner.member with
      | none => rfl
      | some member => simpa [headed] using (consistent.member (by simp [held])).2.1
    exact headedLine_follows unit unheaded code headed nothing number line
  | none =>
    have deep' : ¬ (scanner.opened decl).braceDepth > 0 := deep
    have rest := memberLine_follows unit unheaded code number line
    have same : { scanner with header := none }.opened decl = scanner.opened decl := by
      simp [opened, Scanner.pending, headed]
    rw [same] at rest
    rw [insideLine, Reader.classLine, if_neg deep, if_neg deep', headed]
    simp only [Option.isSome_none, Bool.and_false, Bool.false_eq_true, if_false]
    cases held : scanner.member with
    | none =>
      have pending : (scanner.opened decl).pending = .nothing := pending_of_nothing headed held
      simp only [held] at rest
      simp only [pending]
      exact rest.of_log rfl
    | some member =>
      have pending : (scanner.opened decl).pending = .member member.pending :=
        pending_of_member headed held
      simp only [held] at rest
      simp only [pending]
      exact rest.of_log rfl

end Inside

section Lines

/-- A line of code is read as the reader reads it. -/
theorem codeLine_follows (consistent : scanner.Consistent) (code : scanner.stage = .code scanner.place)
    (number : Nat) (line : Text) :
    Follows unit scanner (scanner.codeLine unit number line)
      (scanner.abstract.codeLine number line) := by
  unfold codeLine Reader.codeLine
  rw [code]
  cases place : scanner.place with
  | outside =>
    have region : scanner.abstract.region = .outside := by simp [abstract, region, place]
    rw [place] at code
    simp only [region]
    exact outsideLine_follows unit consistent code number line
  | skipping =>
    have region : scanner.abstract.region = .skipping := by simp [abstract, region, place]
    have elsewhere : scanner.place ≠ .inClass := by simp [place]
    obtain ⟨current, header, member⟩ := consistent.vacant elsewhere
    rw [place] at code
    simp only [region]
    split
    · refine Follows.quiet ?_ ?_ rfl
      · exact consistent_of_vacant (by simp [Scanner.place]) current header member
      · simp [abstract, Scanner.region, Scanner.place, code]
    · exact Follows.quiet consistent rfl rfl
  | inClass =>
    obtain ⟨decl, current⟩ := Option.isSome_iff_exists.mp (consistent.current.mp place)
    have region : scanner.abstract.region = .inClass (scanner.opened decl) :=
      region_of_open place current
    rw [place] at code
    simp only [region]
    exact insideLine_follows unit consistent code current number line

/-- A look at comments is a step that nothing is noted at. -/
theorem Peels.follows {next : Scanner} {remainder : Remainder} {seen : Reader × Remainder}
    (peels : Peels scanner (next, remainder) seen) (consistent : scanner.Consistent) :
    Follows unit scanner next (next.abstract, []) :=
  Follows.quiet (peels.frame.consistent consistent) rfl peels.frame.log

theorem readLine_follows (consistent : scanner.Consistent) (number : Nat) (raw : Text) :
    Follows unit scanner (scanner.readLine unit number raw)
      (scanner.abstract.readLine number raw) := by
  induction shorter : raw.length using Nat.strongRecOn generalizing raw scanner with
  | ind length ih =>
    rcases peeled : scanner.peel (Text.trim raw) with ⟨next, remainder⟩
    have peels := peels_peel scanner (Text.trim raw)
    rw [peeled] at peels
    have looked := peels.follows unit consistent
    have seen : scanner.abstract.peel (Text.trim raw) = (next.abstract, remainder) :=
      Prod.ext peels.reader.symm peels.remainder.symm
    rw [readLine, Reader.readLine, peeled, seen]
    cases left : remainder with
    | nothing => exact looked
    | code line =>
      have code : next.stage = .code next.place := by
        rw [peels.code line left, peels.frame.place]
      exact looked.andThen (codeLine_follows unit looked.consistent code number line)
    | again rest =>
      have fewer : rest.length < length := by
        have := length_peel _ _ _ _ (left ▸ peeled)
        have := Text.length_trim raw
        omega
      exact looked.andThen (ih rest.length fewer looked.consistent rest rfl)

/-- A run over lines is a run of the reader, and everything it notes is taken. -/
theorem readLines_follows (consistent : scanner.Consistent) (number : Nat) (lines : List Text) :
    Follows unit scanner (scanner.readLines unit number lines)
      (scanner.abstract.readLines number lines) := by
  induction lines generalizing scanner number with
  | nil => exact Follows.quiet consistent rfl rfl
  | cons line lines ih =>
    have first := readLine_follows unit consistent number line
    have later := ih first.consistent (number + 1)
    rw [first.reader] at later
    exact first.andThen later

theorem addMember_line (current : OpenClass) (assumeNonnull : Bool) (member : PendingMember) :
    (current.addMember assumeNonnull member).1.line = current.line := by
  unfold OpenClass.addMember
  split
  · cases Property.parse assumeNonnull member.text <;> rfl
  · cases Method.parse member.text <;> rfl

/-- The end of a text leaves with the class set what the reader notes at it. -/
theorem log_finish (consistent : scanner.Consistent) :
    (scanner.finish unit).log = scanner.log.takeAll (scanner.abstract.finish.map unit.finding) := by
  by_cases inside : scanner.place = .inClass
  · obtain ⟨decl, current⟩ := Option.isSome_iff_exists.mp (consistent.current.mp inside)
    have region : scanner.abstract.region = .inClass (scanner.opened decl) :=
      region_of_open inside current
    cases held : scanner.member with
    | none =>
      have quiet : scanner.abstract.finish = [.declared decl, .unclosed decl scanner.classLine] := by
        rw [Reader.finish, region]
        cases headed : scanner.header with
        | none => simp [pending_of_nothing headed held, opened]
        | some header => simp [pending_of_header headed, opened]
      rw [quiet, finish, flushMember, held, current]
      rfl
    | some member =>
      obtain ⟨_, header, depth⟩ := consistent.member (by simp [held])
      obtain ⟨flushed, _, follows⟩ := flushMember_follows unit ⟨inside, current, header, depth⟩ held
      have pending : (scanner.opened decl).pending = .member member.pending :=
        pending_of_member header held
      have line : (scanner.flushMember unit).classLine = scanner.classLine :=
        (congrArg OpenClass.line (flushed.opened_eq follows.reader)).trans (addMember_line _ _ _)
      have log : (scanner.flushMember unit).log = _ := follows.log
      rw [Reader.finish, region, finish, flushed.current]
      simp only [pending, line, report, log, List.map_append, ClassLog.takeAll_append]
      rfl
  · obtain ⟨current, _, member⟩ := consistent.vacant inside
    have quiet : scanner.abstract.finish = [] := by
      unfold Reader.finish
      cases place : scanner.place <;> simp_all [abstract, Scanner.region]
    rw [quiet, finish, flushMember, member, current]
    rfl

end Lines

end Scanner

namespace SourceUnit

/-- Extracting a header is recording what it yields. -/
theorem extract_eq (unit : SourceUnit) (classes : ClassSet) :
    unit.extract classes =
      ⟨classes.recordAll unit.findings, classes.eventsOfAll unit.findings⟩ := by
  have read := Scanner.readLines_follows unit (Scanner.consistent_start classes) 1 unit.content.lines
  have finished := Scanner.log_finish unit read.consistent
  rw [read.reader, read.log, ← ClassLog.takeAll_append, ← List.map_append, ClassLog.takeAll_eq] at finished
  exact finished

end SourceUnit

namespace Run

theorem extractUnits_cons (set : ClassSet) (unit : SourceUnit) (units : List SourceUnit) :
    extractUnits set (unit :: units) =
      let later := extractUnits (set.recordAll unit.findings) units
      (later.1, readingHeader unit :: set.eventsOfAll unit.findings ++ later.2) := by
  rw [extractUnits, unit.extract_eq]

theorem extractUnits_single (set : ClassSet) (unit : SourceUnit) :
    (extractUnits set [unit]).1 = set.recordAll unit.findings := by
  rw [extractUnits_cons]
  rfl

end Run

end HeaderBindings
