import HeaderBindings.Proofs.Header.Wrapping
import HeaderBindings.Proofs.Run.Independence
import Mathlib.Data.List.Forall2

/-!
Class declarations on lines. Where every header, every member and every end begins a line of its
own and every class but the last one has its end, no declaration gets lost: each class is in the
set with its superclass and its members, but for what a warning speaks of. Where two declarations
share a line, the second one does get lost.
-/

namespace HeaderBindings

/-- A text that begins a line, with white space around its first piece, and the lines below it with
its later pieces. -/
structure LaidText where
  indent : Text := []
  first : Text
  trail : Text := []
  later : List Text := []
  below : List Text := []
  deriving DecidableEq, Repr

namespace LaidText

def lines (laid : LaidText) : List Text := (laid.indent ++ laid.first ++ laid.trail) :: laid.below

def height (laid : LaidText) : Nat := laid.lines.length

/-- The text on one line. -/
def whole (laid : LaidText) : Text := laid.first ++ laid.later.flatten

structure OnLines (laid : LaidText) : Prop where
  before : ∀ c ∈ laid.indent, isBlank c = true
  behind : ∀ c ∈ laid.trail, isBlank c = true
  below : LaidOut laid.later laid.below

/-- A member, cut where its tokens end. -/
structure IsMember (laid : LaidText) : Prop extends laid.OnLines where
  cut : Reader.MemberCut laid.first laid.later
  skipped : ∀ piece ∈ laid.first :: laid.later, piece.SkippedEdges

/-- The header that a text declares when all its lines are read. -/
def header? (laid : LaidText) : Option ClassHeader :=
  (ClassHeader.parse (Reader.MemberCut.joined laid.first laid.later)).toOption

/-- The header as its first line declares it. -/
def firstHeader? (laid : LaidText) : Option ClassHeader :=
  (ClassHeader.parse laid.first.trim).toOption

/-- A header whose superclass stands on its first line, with nothing but its protocols below. -/
structure IsHeader (laid : LaidText) : Prop extends laid.OnLines where
  code : Reader.isCode laid.first.trim = true
  directive : Reader.firstDirective? laid.first.trim = some "@interface".toList
  closed : OpenClass.braceBalance laid.first.trim ≤ 0
  protocols : ∀ piece ∈ laid.later, piece.trim = [] ∨
    (piece.trim.head? = some '<' ∧ OpenClass.braceBalance piece.trim ≤ 0)
  superclass : ∀ header ∈ laid.firstHeader?, ∀ whole ∈ laid.header?,
    whole.superclass = header.superclass

/-- The end of a class. -/
structure IsEnd (laid : LaidText) : Prop extends laid.OnLines where
  word : laid.first = "@end".toList
  alone : laid.later = []

end LaidText

/-- A class declaration; its end may be missing. -/
structure LaidClass where
  header : LaidText
  members : List LaidText
  ending : Option LaidText
  deriving DecidableEq, Repr

/-- Things of some height one below another, with the numbers of the lines that they begin. -/
def numbered {α : Type} (height : α → Nat) : Nat → List α → List (Nat × α)
  | _, [] => []
  | number, thing :: later => (number, thing) :: numbered height (number + height thing) later

namespace LaidClass

def lines (laid : LaidClass) : List Text :=
  laid.header.lines ++ laid.members.flatMap (·.lines) ++ (laid.ending.map (·.lines)).getD []

def height (laid : LaidClass) : Nat := laid.lines.length

/-- The name that the header gives the class, if it can be read. -/
def name? (laid : LaidClass) : Option Text := laid.header.firstHeader?.map (·.name)

/-- The superclass that the header gives. -/
def superclass (laid : LaidClass) : Option Text :=
  (laid.header.header?.or laid.header.firstHeader?).bind (·.superclass)

def numberedMembers (laid : LaidClass) (number : Nat) : List (Nat × LaidText) :=
  numbered LaidText.height (number + laid.header.height) laid.members

structure Sound (laid : LaidClass) : Prop where
  header : laid.header.IsHeader
  members : ∀ member ∈ laid.members, member.IsMember
  ending : ∀ ending ∈ laid.ending, ending.IsEnd

/-- The superclass that a declaration gives to a name. -/
def superclassFor (name : Text) (laid : LaidClass) : Option Text :=
  if laid.name? = some name then laid.superclass else none

theorem superclass_of_first (laid : LaidClass) (sound : laid.header.IsHeader) (header : ClassHeader)
    (first : laid.header.firstHeader? = some header) : laid.superclass = header.superclass := by
  unfold superclass
  cases whole : laid.header.header? with
  | none => simp [first]
  | some other => simpa using sound.superclass header first other whole

end LaidClass

/-- A class has the member that a declaration declares without documentation. -/
def ClassDecl.records (decl : ClassDecl) (declaration : Text) : Bool :=
  if Text.startsWith "@property".toList declaration then
    (Property.parse false declaration).toOption.any fun property =>
      decl.properties.contains (property.withDoc {})
  else
    (Method.parse declaration).toOption.any fun method =>
      decl.methods.contains (method.withDoc {})

theorem ClassDecl.records_of_includes {decl other : ClassDecl} (includes : decl.Includes other)
    (declaration : Text) (known : other.records declaration = true) :
    decl.records declaration = true := by
  unfold records at known ⊢
  by_cases property : Text.startsWith "@property".toList declaration = true
  · rw [if_pos property] at known ⊢
    cases read : (Property.parse false declaration).toOption with
    | none => simp [read] at known
    | some property =>
      simp only [read, Option.any_some, List.contains_iff_mem] at known ⊢
      exact includes.properties known
  · rw [if_neg property] at known ⊢
    cases read : (Method.parse declaration).toOption with
    | none => simp [read] at known
    | some method =>
      simp only [read, Option.any_some, List.contains_iff_mem] at known ⊢
      exact includes.methods known

namespace OpenClass

/-- A class in which a member may begin. -/
structure Waits (current : OpenClass) : Prop where
  depth : current.braceDepth ≤ 0
  pending : ∀ member, current.pending ≠ .member member

/-- What lines of a class leave of it: its name, its superclass and its members. -/
structure Grows (before after : OpenClass) : Prop where
  name : after.decl.name = before.decl.name
  superclass : after.decl.superclass = before.decl.superclass
  members : after.decl.Includes before.decl

theorem grows_refl (current : OpenClass) : current.Grows current :=
  ⟨rfl, rfl, current.decl.includes_refl⟩

theorem Grows.trans {first second third : OpenClass} (begun : first.Grows second)
    (ended : second.Grows third) : first.Grows third :=
  ⟨ended.name.trans begun.name, ended.superclass.trans begun.superclass,
    ended.members.trans begun.members⟩

/-- What has been read of a class on some lines: the class goes on, and nothing is declared yet. -/
structure GoesOn (before after : OpenClass) (notes : List Note) : Prop where
  waits : after.Waits
  grows : before.Grows after
  undeclared : declaredBy notes = []

end OpenClass

/-- What a declaration adds to a class. -/
theorem ClassDecl.withMember_ok {decl grown : ClassDecl} {declaration : Text}
    (added : decl.withMember false {} declaration = .ok grown) :
    grown.name = decl.name ∧ grown.superclass = decl.superclass ∧ grown.Includes decl ∧
      grown.records declaration = true := by
  unfold withMember at added
  unfold records
  by_cases property : Text.startsWith "@property".toList declaration = true
  · rw [if_pos property] at added ⊢
    cases read : Property.parse false declaration with
    | error error => simp [read, Except.map] at added
    | ok property =>
      simp only [read, Except.map, Except.ok.injEq] at added
      subst added
      exact ⟨rfl, rfl, ⟨List.subset_append_left _ _, List.Subset.refl _⟩,
        by simp [Except.toOption, addProperty]⟩
  · rw [if_neg property] at added ⊢
    cases read : Method.parse declaration with
    | error error => simp [read, Except.map] at added
    | ok method =>
      simp only [read, Except.map, Except.ok.injEq] at added
      subst added
      exact ⟨rfl, rfl, ⟨List.Subset.refl _, List.subset_append_left _ _⟩,
        by simp [Except.toOption, addMethod]⟩

namespace OpenClass

/-- A declaration that is taken is recorded or warned of, and the class goes on. -/
theorem Takes.outcome {current after : OpenClass} {number : Nat} {declaration : Text}
    {notes : List Note} (takes : current.Takes false {} number declaration after notes)
    (waits : current.Waits) :
    current.GoesOn after notes ∧
      (number ∈ warnedBy notes ∨ after.decl.records declaration = true) := by
  unfold Takes at takes
  cases added : current.decl.withMember false {} declaration with
  | ok grown =>
    rw [added] at takes
    obtain ⟨rfl, rfl⟩ := takes
    obtain ⟨name, superclass, members, recorded⟩ := ClassDecl.withMember_ok added
    exact ⟨⟨⟨waits.depth, by simp⟩, ⟨name, superclass, members⟩, rfl⟩, Or.inr recorded⟩
  | error error =>
    rw [added] at takes
    obtain ⟨rfl, warned⟩ := takes
    match notes with
    | [.rejected line message] =>
      cases warned
      exact ⟨⟨⟨waits.depth, by simp⟩, ⟨rfl, rfl, current.decl.includes_refl⟩, rfl⟩,
        Or.inl List.mem_cons_self⟩

end OpenClass

theorem OpenClass.GoesOn.append {first second third : OpenClass} {notes later : List Note}
    (begun : first.GoesOn second notes) (ended : second.GoesOn third later) :
    first.GoesOn third (notes ++ later) where
  waits := ended.waits
  grows := begun.grows.trans ended.grows
  undeclared := by
    rw [declaredBy_append]
    exact List.append_eq_nil_iff.mpr ⟨begun.undeclared, ended.undeclared⟩

namespace Reader

/-- A reader in a class, with nothing else pending. -/
def within (current : OpenClass) : Reader := { region := .inClass current }

theorem within_awaits (current : OpenClass) (waits : current.Waits) :
    (within current).AwaitsMember current where
  region := rfl
  depth := waits.depth
  pending := waits.pending
  comment := by simp [within]

/-- A line that goes on with the header, if that is still pending. -/
theorem readLine_protocols (number : Nat) (raw : Text) (current : OpenClass) (waits : current.Waits)
    (angle : raw.trim.head? = some '<') (closed : OpenClass.braceBalance raw.trim ≤ 0) :
    ∃ after notes, (within current).readLine number raw = (within after, notes) ∧
      current.GoesOn after notes := by
  obtain ⟨rest, whole⟩ := List.head?_eq_some_iff.mp angle
  have code : isCode raw.trim = true := by
    rw [whole]
    simp [isCode, nonnullMarks, Text.startsWith, Text.after?]
  rw [readLine_code _ number raw rfl code, codeLine]
  simp only [within, classLine]
  rw [if_neg (by have := waits.depth; omega)]
  cases pending : current.pending with
  | nothing =>
    refine ⟨current, [], ?_, waits, current.grows_refl, rfl⟩
    rw [whole]
    simp [freshLine, startsEnd, startsMember, Text.startsWith, Text.after?, inside]
  | header header =>
    simp only [if_pos angle, inside, OpenClass.continueHeader]
    cases ClassHeader.parse (header ++ ' ' :: raw.trim) with
    | ok parsed =>
      exact ⟨_, _, rfl, ⟨closed, by simp⟩, ⟨rfl, rfl, List.Subset.refl _, List.Subset.refl _⟩, rfl⟩
    | error error => 
      exact ⟨_, _, rfl, ⟨closed, by simp⟩, ⟨rfl, rfl, ClassDecl.includes_refl _⟩, rfl⟩
  | member member => exact absurd pending (waits.pending member)

theorem readLines_protocols (number : Nat) (pieces lines : List Text) (laid : LaidOut pieces lines)
    (current : OpenClass) (waits : current.Waits)
    (protocols : ∀ piece ∈ pieces, piece.trim = [] ∨
      (piece.trim.head? = some '<' ∧ OpenClass.braceBalance piece.trim ≤ 0)) :
    ∃ after notes, (within current).readLines number lines = (within after, notes) ∧
      current.GoesOn after notes := by
  induction laid generalizing number current with
  | done => exact ⟨current, [], rfl, waits, current.grows_refl, rfl⟩
  | idle idle later ih =>
    rw [readLines, readLine_idle _ number _ rfl idle]
    exact ih (number + 1) current waits protocols
  | @piece pieces lines piece indent trail before behind later ih =>
    have trimmed := Text.trim_indented indent piece trail before behind
    have others : ∀ other ∈ pieces, other.trim = [] ∨
        (other.trim.head? = some '<' ∧ OpenClass.braceBalance other.trim ≤ 0) :=
      fun other member => protocols other (List.mem_cons_of_mem piece member)
    rcases protocols piece List.mem_cons_self with blank | ⟨angle, closed⟩
    · have idle : isIdle (Text.trim (indent ++ piece ++ trail)) = true := by
        rw [trimmed, blank]
        rfl
      rw [readLines, readLine_idle _ number _ rfl idle]
      exact ih (number + 1) current waits others
    · obtain ⟨middle, first, read, goes⟩ := readLine_protocols number _ current waits
        (trimmed ▸ angle) (trimmed ▸ closed)
      obtain ⟨after, rest, reads, goes'⟩ := ih (number + 1) middle goes.waits others
      rw [readLines, read]
      simp only [reads]
      exact ⟨after, first ++ rest, rfl, goes.append goes'⟩

/-- A member on its lines is recorded or warned of. -/
theorem readLines_laid_member (number : Nat) (laid : LaidText) (member : laid.IsMember)
    (current : OpenClass) (waits : current.Waits) :
    ∃ after notes, (within current).readLines number laid.lines = (within after, notes) ∧
      current.GoesOn after notes ∧
      (number ∈ warnedBy notes ∨ after.decl.records laid.whole = true) := by
  have read := readLines_member (within current) number laid.first laid.indent laid.trail laid.later
    laid.below current (within_awaits current waits) member.cut member.before member.behind
    member.below
  have takes := OpenClass.takes_congr (member.cut.lex_joined member.skipped)
    member.cut.joined_property (current.takes_addMember false
      ⟨MemberCut.joined laid.first laid.later, number, {}⟩)
  exact ⟨_, _, read, takes.outcome waits⟩

theorem readLines_members (number : Nat) (members : List LaidText)
    (sound : ∀ member ∈ members, member.IsMember) (current : OpenClass) (waits : current.Waits) :
    ∃ after notes, (within current).readLines number (members.flatMap (·.lines)) =
        (within after, notes) ∧
      current.GoesOn after notes ∧
      ∀ placed ∈ numbered LaidText.height number members,
        placed.1 ∈ warnedBy notes ∨ after.decl.records placed.2.whole = true := by
  induction members generalizing number current with
  | nil => exact ⟨current, [], rfl, ⟨waits, current.grows_refl, rfl⟩, by simp [numbered]⟩
  | cons member members ih =>
    obtain ⟨middle, first, read, goes, kept⟩ :=
      readLines_laid_member number member (sound member List.mem_cons_self) current waits
    obtain ⟨after, rest, reads, goes', others⟩ :=
      ih (number + member.height) (fun other known => sound other (List.mem_cons_of_mem member known))
        middle goes.waits
    refine ⟨after, first ++ rest, ?_, goes.append goes', ?_⟩
    · rw [List.flatMap_cons, readLines_append, read]
      simp only
      rw [← LaidText.height, reads]
    · intro placed known
      rcases List.mem_cons.mp known with rfl | later
      · rcases kept with warned | recorded
        · left
          rw [warnedBy_append]
          exact List.mem_append_left _ warned
        · exact Or.inr (ClassDecl.records_of_includes goes'.grows.members _ recorded)
      · rcases others placed later with warned | recorded
        · left
          rw [warnedBy_append]
          exact List.mem_append_right _ warned
        · exact Or.inr recorded

-- The end of a class is one line of code, with idle lines below it.
theorem readLines_ending (reader : Reader) (number : Nat) (laid : LaidText) (ending : laid.IsEnd)
    (closed : reader.comment = none) (notes : List Note)
    (step : reader.codeLine number "@end".toList = ({}, notes)) :
    reader.readLines number laid.lines = ({}, notes) := by
  have trimmed : Text.trim (laid.indent ++ laid.first ++ laid.trail) = "@end".toList := by
    rw [Text.trim_indented _ _ _ ending.before ending.behind, ending.word]
    decide
  have code : isCode (Text.trim (laid.indent ++ laid.first ++ laid.trail)) = true := by
    rw [trimmed]
    decide
  have idle := readLines_nothing {} (number + 1) laid.later laid.below ending.below
    (by rw [ending.alone]; rfl) rfl
  rw [LaidText.lines, readLines, readLine_code _ number _ closed code, trimmed, step]
  simp [idle]

/-- The end of a class declares it. -/
theorem readLines_end (number : Nat) (laid : LaidText) (ending : laid.IsEnd) (current : OpenClass)
    (waits : current.Waits) :
    (within current).readLines number laid.lines =
      ({}, [.closing current.decl, .declared current.decl]) := by
  have fresh (own : OpenClass) : (within current).freshLine own number "@end".toList =
      ({}, [.closing own.decl, .declared own.decl]) := rfl
  apply readLines_ending _ number laid ending rfl
  simp only [codeLine, within, classLine]
  rw [if_neg (by have := waits.depth; omega)]
  cases pending : current.pending with
  | nothing => exact fresh current
  | header header => exact fresh { current with pending := .nothing }
  | member member => exact absurd pending (waits.pending member)

theorem readLines_end_skipped (number : Nat) (laid : LaidText) (ending : laid.IsEnd) :
    ({ region := .skipping } : Reader).readLines number laid.lines = ({}, []) :=
  readLines_ending _ number laid ending rfl [] rfl

/-- Code between a header that cannot be read and its end is skipped. -/
theorem readLines_skipping (number : Nat) (pieces lines : List Text) (laid : LaidOut pieces lines)
    (inner : ∀ piece ∈ pieces, piece.trim = [] ∨
      (isCode piece.trim = true ∧ startsEnd piece.trim = false)) :
    ({ region := .skipping } : Reader).readLines number lines = ({ region := .skipping }, []) := by
  induction laid generalizing number with
  | done => rfl
  | idle idle later ih =>
    rw [readLines, readLine_idle _ number _ rfl idle, ih (number + 1) inner]
    rfl
  | @piece pieces lines piece indent trail before behind later ih =>
    have trimmed := Text.trim_indented indent piece trail before behind
    have rest := ih (number + 1) fun other member => inner other (List.mem_cons_of_mem piece member)
    rcases inner piece List.mem_cons_self with blank | ⟨code, other⟩
    · have idle : isIdle (Text.trim (indent ++ piece ++ trail)) = true := by
        rw [trimmed, blank]
        rfl
      rw [readLines, readLine_idle _ number _ rfl idle, rest]
      rfl
    · rw [readLines, readLine_code _ number _ rfl (trimmed ▸ code), trimmed]
      simp only [codeLine, other]
      rw [if_neg (by simp), rest]
      rfl

/-- The lines of a member are code, or blank, and none of them is an end. -/
theorem inner_of_member (laid : LaidText) (member : laid.IsMember) :
    ∀ piece ∈ laid.first :: laid.later, piece.trim = [] ∨
      (isCode piece.trim = true ∧ startsEnd piece.trim = false) := by
  intro piece inside
  rcases List.mem_cons.mp inside with rfl | later
  · obtain ⟨code, _, other, _⟩ :=
      code_of_startsMember _ (startsMember_trim _ member.cut.first_starts)
    exact Or.inr ⟨code, other⟩
  · rcases member.cut.more piece later with blank | on
    · exact Or.inl blank
    · simp only [goesOn, Bool.and_eq_true, Bool.not_eq_true'] at on
      exact Or.inr ⟨on.1.1, on.2⟩

theorem inner_of_header (laid : LaidText) (header : laid.IsHeader) :
    ∀ piece ∈ laid.later, piece.trim = [] ∨
      (isCode piece.trim = true ∧ startsEnd piece.trim = false) := by
  intro piece inside
  rcases header.protocols piece inside with blank | ⟨angle, _⟩
  · exact Or.inl blank
  · obtain ⟨rest, whole⟩ := List.head?_eq_some_iff.mp angle
    rw [whole]
    simp [isCode, startsEnd, nonnullMarks, Text.startsWith, Text.after?]

theorem laidOut_lines (laid : LaidText) (onLines : laid.OnLines) :
    LaidOut (laid.first :: laid.later) laid.lines :=
  .piece onLines.before onLines.behind onLines.below

theorem readLines_members_skipped (number : Nat) (members : List LaidText)
    (sound : ∀ member ∈ members, member.IsMember) :
    ({ region := .skipping } : Reader).readLines number (members.flatMap (·.lines)) =
      ({ region := .skipping }, []) := by
  induction members generalizing number with
  | nil => rfl
  | cons member members ih =>
    have here := sound member List.mem_cons_self
    have first := readLines_skipping number _ _ (laidOut_lines member here.toOnLines)
      (inner_of_member member here)
    rw [List.flatMap_cons, readLines_append, first]
    simp only
    rw [ih _ fun other known => sound other (List.mem_cons_of_mem member known)]
    rfl

/-- The first line of a header opens its class, or is warned of. -/
theorem readLine_header (number : Nat) (laid : LaidText) (header : laid.IsHeader) :
    ({} : Reader).readLine number (laid.indent ++ laid.first ++ laid.trail) =
      match ClassHeader.parse laid.first.trim with
      | .error error => ({ region := .skipping }, [.rejected number error.message])
      | .ok parsed =>
        (within (.ofHeader parsed none [] number laid.first.trim),
          [.entered parsed.name (parsed.category.getD []) number]) := by
  have trimmed := Text.trim_indented laid.indent laid.first laid.trail header.before header.behind
  rw [readLine_code _ number _ rfl (trimmed ▸ header.code), trimmed, codeLine]
  simp only [outsideLine, header.directive, if_true, openClass]
  cases ClassHeader.parse laid.first.trim <;> rfl

end Reader

/-- What the notes on a class declaration say: its header is warned of, or the class is declared as
its header says, each member being recorded or warned of. -/
inductive Accounts (number : Nat) (laid : LaidClass) (notes : List Note) : Prop where
  | rejected (unread : laid.name? = none) (nothing : declaredBy notes = [])
      (warned : number ∈ warnedBy notes) : Accounts number laid notes
  | declared {decl : ClassDecl} (name : laid.name? = some decl.name)
      (once : declaredBy notes = [decl]) (superclass : decl.superclass = laid.superclass)
      (members : ∀ placed ∈ laid.numberedMembers number,
        placed.1 ∈ warnedBy notes ∨ decl.records placed.2.whole = true) : Accounts number laid notes

namespace LaidClass

variable (laid : LaidClass)

/-- The lines of a class up to its end. -/
def body : List Text := laid.header.lines ++ laid.members.flatMap (·.lines)

theorem lines_of_open (ending : laid.ending = none) : laid.lines = laid.body := by
  simp [lines, body, ending]

theorem lines_of_ended {end? : LaidText} (ending : laid.ending = some end?) :
    laid.lines = laid.body ++ end?.lines := by
  simp [lines, body, ending]

section Read

variable (sound : laid.Sound) (number : Nat) (header : ClassHeader)
  (parsed : ClassHeader.parse laid.header.first.trim = .ok header)

include sound parsed

/-- Up to its end a class is opened, and each of its members recorded or warned of. -/
theorem readLines_body :
    ∃ after notes, ({} : Reader).readLines number laid.body =
        (Reader.within after, .entered header.name (header.category.getD []) number :: notes) ∧
      (OpenClass.ofHeader header none [] number laid.header.first.trim).GoesOn after notes ∧
      ∀ placed ∈ laid.numberedMembers number,
        placed.1 ∈ warnedBy notes ∨ after.decl.records placed.2.whole = true := by
  have first := Reader.readLine_header number laid.header sound.header
  rw [parsed] at first
  obtain ⟨opened, notes, below, goes⟩ := Reader.readLines_protocols (number + 1) _ _
    sound.header.below (.ofHeader header none [] number laid.header.first.trim)
    ⟨sound.header.closed, by simp [OpenClass.ofHeader]⟩ sound.header.protocols
  obtain ⟨after, more, inner, goes', kept⟩ := Reader.readLines_members
    (number + laid.header.height) laid.members sound.members opened goes.waits
  refine ⟨after, notes ++ more, ?_, goes.append goes', ?_⟩
  · rw [body, Reader.readLines_append, ← LaidText.height, LaidText.lines, Reader.readLines, first]
    simp only [below, inner]
    rfl
  · intro placed known
    refine (kept placed known).imp_left fun warned => ?_
    rw [warnedBy_append]
    exact List.mem_append_right _ warned

/-- Whatever ends a class declares it as it stands. -/
theorem accounts_declared {after : OpenClass} {notes : List Note}
    (goes : (OpenClass.ofHeader header none [] number laid.header.first.trim).GoesOn after notes)
    (kept : ∀ placed ∈ laid.numberedMembers number,
      placed.1 ∈ warnedBy notes ∨ after.decl.records placed.2.whole = true)
    (last : List Note) (once : declaredBy last = [after.decl]) :
    Accounts number laid
      (.entered header.name (header.category.getD []) number :: notes ++ last) := by
  have read : laid.header.firstHeader? = some header := by
    simp [LaidText.firstHeader?, parsed, Except.toOption]
  have name : laid.name? = some after.decl.name := by
    rw [name?, read, goes.grows.name]
    rfl
  have superclass : after.decl.superclass = laid.superclass := by
    rw [laid.superclass_of_first sound.header header read, goes.grows.superclass]
    rfl
  have before : declaredBy (.entered header.name (header.category.getD []) number :: notes) = [] :=
    goes.undeclared
  have declared := declaredBy_append (.entered header.name (header.category.getD []) number :: notes)
    last
  rw [before, once, List.nil_append] at declared
  refine .declared name declared superclass fun placed known => ?_
  refine (kept placed known).imp_left fun warned => ?_
  rw [warnedBy_append]
  exact List.mem_append_left _ warned

/-- A class whose header can be read is declared with its members. -/
theorem accounts_read :
    let read := ({} : Reader).readLines number laid.lines
    (laid.ending.isSome → read.1 = {}) ∧ Accounts number laid (read.2 ++ read.1.finish) := by
  obtain ⟨after, notes, begun, goes, kept⟩ := laid.readLines_body sound number header parsed
  have declared := laid.accounts_declared sound number header parsed goes kept
  cases ending : laid.ending with
  | none =>
    have finished : (Reader.within after).finish =
        [.declared after.decl, .unclosed after.decl after.line] := by
      cases pending : after.pending with
      | member member => exact absurd pending (goes.waits.pending member)
      | _ => simp [Reader.within, Reader.finish, pending]
    rw [laid.lines_of_open ending, begun]
    exact ⟨by simp, finished ▸ declared _ rfl⟩
  | some end? =>
    have closing := Reader.readLines_end (number + laid.body.length) end?
      (sound.ending end? ending) after goes.waits
    rw [laid.lines_of_ended ending, Reader.readLines_append, begun]
    simp only [closing]
    have closed := declared [.closing after.decl, .declared after.decl] rfl
    exact ⟨by simp, by simpa [Reader.finish] using closed⟩

end Read

/-- A class whose header cannot be read is warned of at its header. -/
theorem accounts_unread (sound : laid.Sound) (number : Nat)
    (error : DeclarationError) (parsed : ClassHeader.parse laid.header.first.trim = .error error) :
    let read := ({} : Reader).readLines number laid.lines
    (laid.ending.isSome → read.1 = {}) ∧ Accounts number laid (read.2 ++ read.1.finish) := by
  have first := Reader.readLine_header number laid.header sound.header
  rw [parsed] at first
  have below := Reader.readLines_skipping (number + 1) _ _ sound.header.below
    (Reader.inner_of_header laid.header sound.header)
  have begun : ({} : Reader).readLines number laid.body =
      ({ region := .skipping }, [.rejected number error.message]) := by
    rw [body, Reader.readLines_append, LaidText.lines, Reader.readLines, first]
    simp only [below, Reader.readLines_members_skipped _ _ sound.members]
    rfl
  have unread : laid.name? = none := by
    simp [name?, LaidText.firstHeader?, parsed, Except.toOption]
  have rejected : Accounts number laid [.rejected number error.message] :=
    .rejected unread rfl List.mem_cons_self
  cases ending : laid.ending with
  | none =>
    rw [laid.lines_of_open ending, begun]
    exact ⟨by simp, rejected⟩
  | some end? =>
    have closing := Reader.readLines_end_skipped (number + laid.body.length) end?
      (sound.ending end? ending)
    rw [laid.lines_of_ended ending, Reader.readLines_append, begun]
    simp only [closing]
    exact ⟨by simp, rejected⟩

/-- One class declaration is accounted for, and the reader is outside of classes after its end. -/
theorem accounts (sound : laid.Sound) (number : Nat) :
    let read := ({} : Reader).readLines number laid.lines
    (laid.ending.isSome → read.1 = {}) ∧ Accounts number laid (read.2 ++ read.1.finish) := by
  cases parsed : ClassHeader.parse laid.header.first.trim with
  | ok header => exact laid.accounts_read sound number header parsed
  | error error => exact laid.accounts_unread sound number error parsed

/-- Class declarations one below another are accounted for one after another. -/
theorem accounts_all (classes : List LaidClass) (number : Nat)
    (sound : ∀ laid ∈ classes, laid.Sound)
    (ended : ∀ laid ∈ classes.dropLast, laid.ending.isSome = true) :
    let read := ({} : Reader).readLines number (classes.flatMap (·.lines))
    ∃ parts : List (List Note), read.2 ++ read.1.finish = parts.flatten ∧
      List.Forall₂ (fun placed part => Accounts placed.1 placed.2 part)
        (numbered height number classes) parts := by
  induction classes generalizing number with
  | nil => exact ⟨[], rfl, .nil⟩
  | cons laid classes ih =>
    obtain ⟨after, first⟩ := laid.accounts (sound laid List.mem_cons_self) number
    cases classes with
    | nil =>
      refine ⟨[_], ?_, .cons first .nil⟩
      simp
    | cons next classes =>
      have outside := after (ended laid List.mem_cons_self)
      obtain ⟨parts, notes, others⟩ := ih (number + laid.height)
        (fun other member => sound other (List.mem_cons_of_mem laid member))
        (fun other member => ended other (List.mem_cons_of_mem laid member))
      rw [outside] at first
      refine ⟨_ :: parts, ?_, .cons first others⟩
      rw [List.flatMap_cons, Reader.readLines_append, ← height]
      simp only [outside, List.flatten_cons, ← notes, Reader.finish, List.append_nil,
        List.append_assoc]

end LaidClass

theorem superclassFor_parts (placed : List (Nat × LaidClass)) (parts : List (List Note)) (name : Text)
    (accounts : List.Forall₂ (fun placed part => Accounts placed.1 placed.2 part) placed parts) :
    (declaredBy parts.flatten).findSome? (·.superclassFor name) =
      (placed.map (·.2)).findSome? (·.superclassFor name) := by
  induction accounts with
  | nil => rfl
  | @cons first part placed parts here later ih =>
    rw [List.flatten_cons, declaredBy_append, List.findSome?_append, ih, List.map_cons,
      List.findSome?_cons]
    cases here with
    | rejected unread nothing warned =>
      simp [nothing, LaidClass.superclassFor, unread]
    | @declared decl known once superclass members =>
      simp only [once, LaidClass.superclassFor, known, ← superclass, ClassDecl.superclassFor,
        List.findSome?_cons, List.findSome?_nil]
      by_cases same : decl.name = name
      · cases decl.superclass <;> simp [same]
      · simp [same]

theorem numbered_things {α : Type} (height : α → Nat) (number : Nat) (things : List α) :
    (numbered height number things).map (·.2) = things := by
  induction things generalizing number with
  | nil => rfl
  | cons thing things ih => simp [numbered, ih]

/-- A text whose lines are class declarations below idle lines. All of them but the last one have
their end. -/
structure DeclaresOnLines (content : Text) (lead : List Text) (classes : List LaidClass) : Prop where
  lines : content.lines = lead ++ classes.flatMap (·.lines)
  idle : ∀ line ∈ lead, Reader.isIdle line.trim = true
  sound : ∀ laid ∈ classes, laid.Sound
  ended : ∀ laid ∈ classes.dropLast, laid.ending.isSome = true

def ClassSet.WarnsAt (set : ClassSet) (line : Nat) : Prop :=
  ∃ diagnostic ∈ set.diagnostics, diagnostic.line = some line

theorem exists_part {placed : List (Nat × LaidClass)} {parts : List (List Note)}
    (accounts : List.Forall₂ (fun placed part => Accounts placed.1 placed.2 part) placed parts)
    (one : Nat × LaidClass) (member : one ∈ placed) : ∃ part ∈ parts, Accounts one.1 one.2 part := by
  induction accounts with
  | nil => cases member
  | @cons first part placed parts here later ih =>
    rcases List.mem_cons.mp member with rfl | deeper
    · exact ⟨part, List.mem_cons_self, here⟩
    · obtain ⟨part', known, accounts⟩ := ih deeper
      exact ⟨part', List.mem_cons_of_mem part known, accounts⟩

theorem laidOut_idle (lead : List Text) (idle : ∀ line ∈ lead, Reader.isIdle line.trim = true) :
    LaidOut [] lead := by
  induction lead with
  | nil => exact .done
  | cons line lead ih =>
    exact .idle (idle line List.mem_cons_self)
      (ih fun other member => idle other (List.mem_cons_of_mem line member))

theorem DeclaresOnLines.notes {content : Text} {lead : List Text} {classes : List LaidClass}
    (declares : DeclaresOnLines content lead classes) :
    ∃ parts : List (List Note), notesOf content = parts.flatten ∧
      List.Forall₂ (fun placed part => Accounts placed.1 placed.2 part)
        (numbered LaidClass.height (1 + lead.length) classes) parts := by
  obtain ⟨parts, notes, accounts⟩ :=
    LaidClass.accounts_all classes (1 + lead.length) declares.sound declares.ended
  refine ⟨parts, ?_, accounts⟩
  rw [notesOf, declares.lines, Reader.readLines_append,
    Reader.readLines_nothing {} 1 [] lead (laidOut_idle lead declares.idle) rfl rfl, ← notes]
  rfl

/-- No declaration that begins a line is lost: its header is warned of, or there is a class of its
name with the superclass that the declarations of the name give first, and each of its members is
warned of or recorded in that class. -/
theorem declarations_kept (unit : SourceUnit) (lead : List Text) (classes : List LaidClass)
    (declares : DeclaresOnLines unit.content lead classes) :
    let set := (Run.extractUnits .empty [unit]).1
    ∀ placed ∈ numbered LaidClass.height (1 + lead.length) classes,
      (placed.2.name? = none ∧ set.WarnsAt placed.1) ∨
        ∃ decl ∈ set.classes, placed.2.name? = some decl.name ∧
          decl.superclass = classes.findSome? (·.superclassFor decl.name) ∧
          ∀ member ∈ placed.2.numberedMembers placed.1,
            set.WarnsAt member.1 ∨ decl.records member.2.whole = true := by
  intro set placed member
  obtain ⟨parts, notes, accounts⟩ := declares.notes
  have whole : set = ClassSet.empty.recordAll (parts.flatten.map unit.finding) := by
    rw [← notes]
    exact Run.extractUnits_single .empty unit
  obtain ⟨part, known, accounted⟩ := exists_part accounts placed member
  have inner : part ⊆ parts.flatten := fun note inPart => List.mem_flatten_of_mem known inPart
  have warns (line : Nat) (warned : line ∈ warnedBy part) : set.WarnsAt line := by
    have inside : line ∈ warnedBy parts.flatten := List.filterMap_subset _ inner warned
    rw [whole]
    exact ClassSet.exists_warned .empty unit parts.flatten line inside
  cases accounted with
  | rejected unread nothing warned => exact Or.inl ⟨unread, warns _ warned⟩
  | @declared decl name once superclass members =>
    right
    have inside : decl ∈ declaredBy parts.flatten :=
      List.filterMap_subset _ inner (by rw [← declaredBy, once]; exact List.mem_cons_self)
    obtain ⟨known, there, same, includes, sup⟩ :=
      ClassSet.exists_declared unit parts.flatten decl inside
    rw [superclassFor_parts _ _ _ accounts, numbered_things] at sup
    refine ⟨known, whole ▸ there, by rw [name, same], by rw [sup, same], ?_⟩
    intro other placed'
    rcases members other placed' with warned | recorded
    · exact Or.inl (warns _ warned)
    · exact Or.inr (ClassDecl.records_of_includes includes _ recorded)

/-- A class whose protocols and whose member are wrapped, and one without an end. -/
def twoPanels : SourceUnit where
  path := "Panels.h".toList
  content :=
    ["".toList,
     "@interface Panel : NSObject".toList,
     "    <NSCopying>".toList,
     "- (void)move:(int)x".toList,
     "    to:(int)y;".toList,
     "@end".toList,
     "".toList,
     "@interface Box".toList,
     "- (void)hide;".toList].flatMap (· ++ ['\n'])

def panelOnLines : LaidClass where
  header :=
    { first := "@interface Panel : NSObject".toList
      later := ["<NSCopying>".toList]
      below := ["    <NSCopying>".toList] }
  members :=
    [{ first := "- (void)move:(int)x".toList
       later := [" to:(int)y;".toList]
       below := ["    to:(int)y;".toList] }]
  ending := some { first := "@end".toList, below := [[]] }

def boxOnLines : LaidClass where
  header := { first := "@interface Box".toList }
  members := [{ first := "- (void)hide;".toList }]
  ending := none

theorem panel_sound : panelOnLines.Sound where
  header :=
    { before := by decide
      behind := by decide
      below := @LaidOut.piece _ _ _ "    ".toList [] (by decide) (by decide) .done
      code := by decide
      directive := by decide +kernel
      closed := by decide
      protocols := by decide
      superclass := by decide +kernel }
  members := by
    intro member known
    cases List.mem_singleton.mp known
    exact
      { before := by decide
        behind := by decide
        below := @LaidOut.piece _ _ _ "   ".toList [] (by decide) (by decide) .done
        cut :=
          { starts := by decide
            complete := ⟨"- (void)move:(int)x to:(int)y".toList, by decide, by decide⟩
            feed := by decide
            written := by decide
            ends := by decide +kernel
            more := by decide }
        skipped := by decide }
  ending := by
    rintro ending ⟨⟩
    exact
      { before := by decide
        behind := by decide
        below := .idle (by decide) .done
        word := rfl
        alone := rfl }

theorem box_sound : boxOnLines.Sound where
  header :=
    { before := by decide
      behind := by decide
      below := .done
      code := by decide
      directive := by decide +kernel
      closed := by decide
      protocols := by decide
      superclass := by decide +kernel }
  members := by
    intro member known
    cases List.mem_singleton.mp known
    exact
      { before := by decide
        behind := by decide
        below := .done
        cut :=
          { starts := by decide
            complete := ⟨"- (void)hide".toList, by decide, by decide⟩
            feed := by decide
            written := by decide
            ends := by decide +kernel
            more := by decide }
        skipped := by decide }
  ending := by simp [boxOnLines]

theorem twoPanels_declares :
    DeclaresOnLines twoPanels.content [[]] [panelOnLines, boxOnLines] where
  lines := by decide +kernel
  idle := by decide
  sound := by
    intro laid known
    rcases List.mem_cons.mp known with rfl | later
    · exact panel_sound
    · cases List.mem_singleton.mp later
      exact box_sound
  ended := by decide

theorem declarations_kept_panels :
    let set := (Run.extractUnits .empty [twoPanels]).1
    ∀ placed ∈ [(2, panelOnLines), (8, boxOnLines)],
      (placed.2.name? = none ∧ set.WarnsAt placed.1) ∨
        ∃ decl ∈ set.classes, placed.2.name? = some decl.name ∧
          decl.superclass = [panelOnLines, boxOnLines].findSome? (·.superclassFor decl.name) ∧
          ∀ member ∈ placed.2.numberedMembers placed.1,
            set.WarnsAt member.1 ∨ decl.records member.2.whole = true :=
  declarations_kept twoPanels [[]] [panelOnLines, boxOnLines] twoPanels_declares

/-- Two members on one line. -/
def twoOnALine : SourceUnit where
  path := "Panel.h".toList
  content := "@interface Panel : NSObject\n- (void)show; - (void)hide;\n@end\n".toList

/-- The second member of a line is lost: it is not recorded, and nothing is warned of. -/
theorem second_on_line_lost :
    lex twoOnALine.content = lex "@interface Panel : NSObject".toList ++ lex "- (void)show;".toList ++
        lex "- (void)hide;".toList ++ lex "@end".toList ∧
      (Run.extractUnits .empty [twoOnALine]).1.diagnostics = [] ∧
      ∀ decl ∈ (Run.extractUnits .empty [twoOnALine]).1.classes,
        decl.records "- (void)hide;".toList = false := by
  decide +kernel

end HeaderBindings
