import HeaderBindings.Proofs.Header.Gathering
import HeaderBindings.Proofs.Header.Wrapping
import HeaderBindings.Proofs.Token.Blanking

/-!
Lines that the reader of a header cannot tell apart. Two lines with the same tokens and the same first
word are twins; readers that differ in twins only, read twins alike, as long as the few tests on the
characters of a line have the same answers.
-/

namespace HeaderBindings

open Token (Settles)

namespace Text

/-- Visible characters that neither begin a comment nor a string. -/
def IsWord (word : Text) : Prop := ∀ c ∈ word, isBlank c = false ∧ c ≠ '/' ∧ c ≠ '"'

instance (word : Text) : Decidable word.IsWord := inferInstanceAs (Decidable (∀ _ ∈ _, _))

-- Membership among marks is decided by one instance.
instance decidableMem (text : Text) (texts : List Text) : Decidable (text ∈ texts) := inferInstance

theorem IsWord.free {word : Text} (known : word.IsWord) : word.IsFree :=
  ⟨fun member => (known _ member).2.1 rfl, fun member => (known _ member).2.2 rfl⟩

theorem IsWord.solid {word : Text} (known : word.IsWord) : ' ' ∉ word :=
  fun member => absurd (known _ member).1 (by decide)

end Text

/-- Two texts with the same tokens and the same words in front. The second one settles if the first one
does, and is the first one if that holds no comment. -/
structure Twin (line other : Text) : Prop where
  tokens : lex other = lex line
  plain : '/' ∉ line → other = line
  settles : Settles line → Settles other
  starts : ∀ word, Text.IsWord word → (word <+: other ↔ word <+: line)
  feed : '\n' ∉ line
  feed' : '\n' ∉ other

namespace Twin

variable {line other text text' : Text}

theorem refl (feed : '\n' ∉ line) : Twin line line :=
  ⟨rfl, fun _ => rfl, id, fun _ _ => Iff.rfl, feed, feed⟩

/-- Twins that are joined to settled twins are twins. -/
theorem join_settled (texts : Twin text text') (settles : Settles text) (lines : Twin line other) :
    Twin (text ++ ' ' :: line) (text' ++ ' ' :: other) where
  plain := by
    intro free
    rw [List.mem_append, List.mem_cons, not_or, not_or] at free
    rw [texts.plain free.1, lines.plain free.2.2]
  tokens := by
    rw [Token.lex_settled settles texts.feed, Token.lex_settled (texts.settles settles) texts.feed',
      texts.tokens, lines.tokens]
  settles := by
    rw [Token.settles_joined settles texts.feed,
      Token.settles_joined (texts.settles settles) texts.feed']
    exact lines.settles
  starts := by
    intro word known
    have apart (rest : Text) : ∀ c ∈ (' ' :: rest).head?, c ∉ word := by
      rintro _ ⟨⟩
      exact known.solid
    rw [Text.prefix_append_iff _ _ _ (apart other), Text.prefix_append_iff _ _ _ (apart line)]
    exact texts.starts word known
  feed := by simpa using ⟨texts.feed, lines.feed⟩
  feed' := by simpa using ⟨texts.feed', lines.feed'⟩

/-- A line can be joined to a text whose last token has ended, or if there is no comment in the two. -/
def Joins (text line : Text) : Prop := Settles text ∨ ('/' ∉ text ∧ '/' ∉ line)

instance (text line : Text) : Decidable (Joins text line) := inferInstanceAs (Decidable (_ ∨ _))

theorem join (texts : Twin text text') (lines : Twin line other) (joins : Joins text line) :
    Twin (text ++ ' ' :: line) (text' ++ ' ' :: other) := by
  rcases joins with settles | ⟨free, free'⟩
  · exact texts.join_settled settles lines
  · rw [texts.plain free, lines.plain free']
    exact refl (by simpa using ⟨texts.feed, lines.feed⟩)

theorem startsWith (twin : Twin line other) (word : Text) (known : Text.IsWord word) :
    Text.startsWith word other = Text.startsWith word line := by
  rw [Bool.eq_iff_iff, Text.startsWith_iff, Text.startsWith_iff]
  exact twin.starts word known

theorem head (twin : Twin line other) (c : Char) (known : Text.IsWord [c]) :
    other.head? = some c ↔ line.head? = some c := by
  have front (text : Text) : text.head? = some c ↔ [c] <+: text := by
    rw [List.head?_eq_some_iff]
    exact ⟨fun ⟨rest, whole⟩ => ⟨rest, whole.symm⟩, fun ⟨rest, whole⟩ => ⟨rest, whole.symm⟩⟩
  rw [front, front]
  exact twin.starts [c] known

theorem startsMember (twin : Twin line other) :
    Reader.startsMember other = Reader.startsMember line := by
  have known : ∀ word ∈ Reader.memberStarts, Text.IsWord word := by decide
  rw [Bool.eq_iff_iff, Reader.startsMember_iff, Reader.startsMember_iff]
  refine exists_congr fun word => and_congr_right fun member => ?_
  exact twin.starts word (known word member)

theorem startsEnd (twin : Twin line other) : Reader.startsEnd other = Reader.startsEnd line :=
  twin.startsWith _ (by decide)

theorem firstDirective (twin : Twin line other) :
    Reader.firstDirective? other = Reader.firstDirective? line := by
  rw [Reader.firstDirective?, twin.tokens]
  rfl

theorem macroOnly (twin : Twin line other) : macroOnly? other = macroOnly? line := by
  rw [macroOnly?, macroOnly?, twin.tokens]

end Twin

/-! ## What the reader tests on the characters of a line -/

namespace OpenClass

/-- The lines that mark the members behind them as optional or as required. -/
def sectionMarks : List Text := ["@optional".toList, "@required".toList]

theorem mem_sectionMarks (line : Text) :
    line ∈ sectionMarks ↔ line = "@optional".toList ∨ line = "@required".toList := by
  rw [sectionMarks, List.mem_cons, List.mem_singleton]

/-- The text that a line of code is joined to: a header that goes on, or a member that has not
ended. -/
def joined? (current : OpenClass) (line : Text) : Option Text :=
  if current.braceDepth > 0 then none
  else match current.pending with
    | .nothing => none
    | .header text => if line.head? = some '<' then some text else none
    | .member member =>
      if Reader.startsMember line || Reader.startsEnd line then none else some member.text

theorem joined_header (current : OpenClass) {text line : Text} (flat : ¬ current.braceDepth > 0)
    (pending : current.pending = .header text) (goesOn : line.head? = some '<') :
    current.joined? line = some text := by
  rw [joined?, if_neg flat, pending]
  exact if_pos goesOn

theorem joined_member (current : OpenClass) {member : PendingMember} {line : Text}
    (flat : ¬ current.braceDepth > 0) (pending : current.pending = .member member)
    (inner : ¬ (Reader.startsMember line || Reader.startsEnd line) = true) :
    current.joined? line = some member.text := by
  rw [joined?, if_neg flat, pending]
  exact if_neg inner

/-- Whether the braces of a line are counted. -/
def CountsBraces (current : OpenClass) (line : Text) : Prop :=
  current.braceDepth > 0 ∨ line.head? = some '{' ∨ line.head? = some '<'

/-- Whether a semicolon ends a member with a line: the line starts one, or one is pending. -/
def AwaitsSemicolon (current : OpenClass) (line : Text) : Prop :=
  Reader.startsMember line = true ∨ (current.joined? line).isSome

instance (current : OpenClass) (line : Text) : Decidable (current.CountsBraces line) :=
  inferInstanceAs (Decidable (_ ∨ _))

instance (current : OpenClass) (line : Text) : Decidable (current.AwaitsSemicolon line) :=
  inferInstanceAs (Decidable (_ ∨ _))

/-- In a class, the tests on the characters of a line have the same answers for another one: its braces
are balanced alike where they count, both or neither have a semicolon where a member waits for one, and
both or neither are marks. The line can be joined to what is pending. -/
structure Overlooks (current : OpenClass) (line other : Text) : Prop where
  braces : current.CountsBraces line → braceBalance other = braceBalance line
  semicolon : current.AwaitsSemicolon line → (';' ∈ other ↔ ';' ∈ line)
  marks : other ∈ sectionMarks ↔ line ∈ sectionMarks
  joins : ∀ text ∈ current.joined? line, Twin.Joins text line

instance (current : OpenClass) (line other : Text) : Decidable (current.Overlooks line other) :=
  decidable_of_iff
    ((current.CountsBraces line → braceBalance other = braceBalance line) ∧
      (current.AwaitsSemicolon line → (';' ∈ other ↔ ';' ∈ line)) ∧
      (other ∈ sectionMarks ↔ line ∈ sectionMarks) ∧
      ∀ text ∈ current.joined? line, Twin.Joins text line)
    ⟨fun ⟨braces, semicolon, marks, joins⟩ => ⟨braces, semicolon, marks, joins⟩,
      fun tests => ⟨tests.braces, tests.semicolon, tests.marks, tests.joins⟩⟩

end OpenClass

/-- The tests that a region makes on the characters of a line have the same answers for another one.
Outside classes they are the balance of braces behind a header, and the semicolon at the end of a
forward declaration of a protocol; in a block that is skipped there are none. -/
def Region.Overlooks : Region → Text → Text → Prop
  | .outside, line, other =>
    (Reader.firstDirective? line = some "@interface".toList →
      OpenClass.braceBalance other = OpenClass.braceBalance line) ∧
    (Reader.firstDirective? line = some "@protocol".toList →
      (other.getLast? = some ';' ↔ line.getLast? = some ';'))
  | .skipping, _, _ => True
  | .inClass current, line, other => current.Overlooks line other

instance Region.decidableOverlooks : (region : Region) → (line other : Text) →
    Decidable (region.Overlooks line other)
  | .outside, _, _ => inferInstanceAs (Decidable (_ ∧ _))
  | .skipping, _, _ => inferInstanceAs (Decidable True)
  | .inClass current, line, other => inferInstanceAs (Decidable (current.Overlooks line other))

/-! ## Readers that differ in twins only -/

inductive Pending.Alike : Pending → Pending → Prop where
  | nothing : Alike .nothing .nothing
  | header {text text' : Text} (twin : Twin text text') : Alike (.header text) (.header text')
  | member {text text' : Text} {line : Nat} {doc : DocComment} (twin : Twin text text') :
      Alike (.member ⟨text, line, doc⟩) (.member ⟨text', line, doc⟩)

structure OpenClass.Alike (current other : OpenClass) : Prop where
  decl : other.decl = current.decl
  line : other.line = current.line
  depth : other.braceDepth = current.braceDepth
  pending : current.pending.Alike other.pending

inductive Region.Alike : Region → Region → Prop where
  | outside : Alike .outside .outside
  | skipping : Alike .skipping .skipping
  | inClass {current other : OpenClass} (alike : current.Alike other) :
      Alike (.inClass current) (.inClass other)

/-- Notes that declare the same classes and warn of the same lines. -/
structure NotesAlike (notes other : List Note) : Prop where
  declared : declaredBy other = declaredBy notes
  warned : warnedBy other = warnedBy notes

theorem NotesAlike.refl (notes : List Note) : NotesAlike notes notes := ⟨rfl, rfl⟩

theorem NotesAlike.append {notes other later later' : List Note} (first : NotesAlike notes other)
    (second : NotesAlike later later') : NotesAlike (notes ++ later) (other ++ later') where
  declared := by rw [declaredBy_append, declaredBy_append, first.declared, second.declared]
  warned := by rw [warnedBy_append, warnedBy_append, first.warned, second.warned]

/-- Readers outside comments, or with the same comment, that differ in twins only. -/
structure Reader.Alike (reader other : Reader) : Prop where
  assumeNonnull : other.assumeNonnull = reader.assumeNonnull
  doc : other.doc = reader.doc
  availability : other.availability = reader.availability
  region : reader.region.Alike other.region

namespace OpenClass

/-- Classes with their notes that differ in twins only. -/
structure StepAlike (step other : OpenClass × List Note) : Prop where
  current : step.1.Alike other.1
  notes : NotesAlike step.2 other.2

variable {current other : OpenClass} {line line' text text' : Text}

theorem Alike.settle (alike : current.Alike other) :
    { current with pending := .nothing }.Alike { other with pending := .nothing } :=
  ⟨alike.decl, alike.line, alike.depth, .nothing⟩

theorem addMember_alike (alike : current.Alike other) (assumeNonnull : Bool) (number : Nat)
    (doc : DocComment) (twin : Twin text text') :
    StepAlike (current.addMember assumeNonnull ⟨text, number, doc⟩)
      (other.addMember assumeNonnull ⟨text', number, doc⟩) := by
  have settled := alike.settle
  simp only [addMember, twin.startsWith "@property".toList (by decide), Property.parse, Method.parse,
    twin.tokens]
  split
  · cases Property.Reader.property assumeNonnull (untilSemicolon (lex text)) with
    | ok property =>
      exact ⟨⟨by simp [alike.decl, Except.mapError], alike.line, alike.depth, .nothing⟩, .refl _⟩
    | error fault => exact ⟨settled, ⟨rfl, rfl⟩⟩
  · cases Method.Reader.method (untilSemicolon (lex text)) with
    | ok method =>
      exact ⟨⟨by simp [alike.decl, Except.mapError], alike.line, alike.depth, .nothing⟩, .refl _⟩
    | error fault => exact ⟨settled, ⟨rfl, rfl⟩⟩

theorem holdMember_alike (alike : current.Alike other) (assumeNonnull : Bool) (number : Nat)
    (doc : DocComment) (twin : Twin text text') (same : ';' ∈ line' ↔ ';' ∈ line) :
    StepAlike (current.holdMember assumeNonnull ⟨text, number, doc⟩ line)
      (other.holdMember assumeNonnull ⟨text', number, doc⟩ line') := by
  by_cases complete : ';' ∈ line
  · rw [holdMember_complete _ _ _ _ complete, holdMember_complete _ _ _ _ (same.mpr complete)]
    exact addMember_alike alike assumeNonnull number doc twin
  · rw [holdMember_open _ _ _ _ complete,
      holdMember_open _ _ _ _ fun member => complete (same.mp member)]
    exact ⟨⟨alike.decl, alike.line, alike.depth, .member twin⟩, .refl _⟩

theorem continueHeader_alike (alike : current.Alike other) (number : Nat) (headers : Twin text text')
    (lines : Twin line line') (joins : Twin.Joins text line)
    (braces : braceBalance line' = braceBalance line) :
    StepAlike (current.continueHeader text number line)
      (other.continueHeader text' number line') := by
  have twin := headers.join lines joins
  simp only [continueHeader, ClassHeader.parse, twin.tokens]
  cases ClassHeader.Reader.header (lex (text ++ ' ' :: line)) with
  | ok header =>
    exact ⟨⟨by simp [alike.decl, Except.mapError], alike.line, braces, .header twin⟩, .refl _⟩
  | error fault => exact ⟨⟨alike.decl, alike.line, braces, .nothing⟩, ⟨rfl, rfl⟩⟩

end OpenClass

namespace Reader

/-- Readers with their notes that differ in twins only. Their open comments are not compared. -/
structure StepAlike (step other : Reader × List Note) : Prop where
  reader : step.1.Alike other.1
  notes : NotesAlike step.2 other.2

variable {reader other : Reader} {current current' : OpenClass} {line line' : Text}

theorem Alike.inside (alike : reader.Alike other) {step step' : OpenClass × List Note}
    (steps : OpenClass.StepAlike step step') : StepAlike (reader.inside step) (other.inside step') :=
  ⟨⟨alike.assumeNonnull, alike.doc, alike.availability, .inClass steps.current⟩, steps.notes⟩

theorem Alike.withoutDoc (alike : reader.Alike other) :
    { reader with doc := none }.Alike { other with doc := none } :=
  ⟨alike.assumeNonnull, rfl, alike.availability, alike.region⟩

theorem freshLine_alike (alike : reader.Alike other) (classes : current.Alike current') (number : Nat)
    (twin : Twin line line') (marks : line' ∈ OpenClass.sectionMarks ↔ line ∈ OpenClass.sectionMarks)
    (semicolon : startsMember line = true → (';' ∈ line' ↔ ';' ∈ line))
    (braces : line.head? = some '{' → OpenClass.braceBalance line' = OpenClass.braceBalance line) :
    StepAlike (reader.freshLine current number line) (other.freshLine current' number line') := by
  have brace := twin.head '{' (by decide)
  have mark : (line' = "@optional".toList || line' = "@required".toList) =
      (line = "@optional".toList || line = "@required".toList) := by
    rw [OpenClass.mem_sectionMarks, OpenClass.mem_sectionMarks] at marks
    rw [Bool.eq_iff_iff, Bool.or_eq_true, Bool.or_eq_true]
    simpa only [decide_eq_true_eq] using marks
  have held (starts : startsMember line = true) : OpenClass.StepAlike
      (current.holdMember reader.assumeNonnull ⟨line, number, reader.doc.getD {}⟩ line)
      (current'.holdMember other.assumeNonnull ⟨line', number, other.doc.getD {}⟩ line') := by
    rw [alike.doc, alike.assumeNonnull]
    exact OpenClass.holdMember_alike classes _ _ _ twin (semicolon starts)
  simp only [freshLine, twin.startsEnd, twin.startsMember, twin.macroOnly, brace, mark]
  split
  · refine ⟨⟨alike.assumeNonnull, rfl, alike.availability, .outside⟩, ?_⟩
    rw [classes.decl]
    exact .refl _
  split
  · next starts => exact alike.withoutDoc.inside (held starts)
  split
  · next opens =>
    exact alike.inside ⟨⟨classes.decl, classes.line, braces opens, classes.pending⟩, .refl _⟩
  split
  · exact alike.inside ⟨classes, .refl _⟩
  · exact alike.withoutDoc.inside ⟨classes, .refl _⟩

theorem classLine_alike (alike : reader.Alike other) (classes : current.Alike current') (number : Nat)
    (twin : Twin line line') (overlooks : current.Overlooks line line') :
    StepAlike (reader.classLine current number line) (other.classLine current' number line') := by
  have fresh {own own' : OpenClass} (owns : own.Alike own') :
      StepAlike (reader.freshLine own number line) (other.freshLine own' number line') :=
    freshLine_alike alike owns number twin overlooks.marks
      (fun starts => overlooks.semicolon (Or.inl starts))
      fun opens => overlooks.braces (Or.inr (Or.inl opens))
  unfold classLine
  by_cases deep : current.braceDepth > 0
  · rw [if_pos deep, if_pos (classes.depth ▸ deep)]
    refine alike.inside ⟨⟨classes.decl, classes.line, ?_, classes.pending⟩, .refl _⟩
    simp [classes.depth, overlooks.braces (Or.inl deep)]
  rw [if_neg deep, if_neg (classes.depth ▸ deep)]
  have pending := classes.pending
  generalize held : current.pending = before at pending
  generalize held' : current'.pending = after at pending
  cases pending with
  | nothing => exact fresh classes
  | @header text text' headers =>
    simp only [twin.head '<' (by decide)]
    split
    · next goesOn =>
      have joins := overlooks.joins text (current.joined_header deep held goesOn)
      exact alike.inside (OpenClass.continueHeader_alike classes number headers twin joins
        (overlooks.braces (Or.inr (Or.inr goesOn))))
    · exact fresh classes.settle
  | @member text text' start doc members =>
    simp only [memberLine, twin.startsMember, twin.startsEnd]
    rw [alike.assumeNonnull]
    split
    · have flushed := OpenClass.addMember_alike classes reader.assumeNonnull start doc members
      have next := fresh flushed.current
      exact ⟨next.reader, flushed.notes.append next.notes⟩
    · next inner =>
      have joined := current.joined_member deep held inner
      have twins := members.join twin (overlooks.joins text joined)
      have semicolon := overlooks.semicolon (Or.inr (by rw [joined]; rfl))
      exact alike.inside (OpenClass.holdMember_alike classes _ start doc twins semicolon)

theorem openClass_alike (alike : reader.Alike other) (number : Nat) (twin : Twin line line')
    (braces : OpenClass.braceBalance line' = OpenClass.braceBalance line) :
    StepAlike (reader.openClass number line) (other.openClass number line') := by
  simp only [openClass, ClassHeader.parse, twin.tokens]
  cases ClassHeader.Reader.header (lex line) with
  | ok header =>
    refine ⟨⟨alike.assumeNonnull, rfl, rfl, .inClass ⟨?_, rfl, braces, .header twin⟩⟩, .refl _⟩
    simp [OpenClass.ofHeader, alike.availability, alike.doc]
  | error fault => exact ⟨⟨alike.assumeNonnull, rfl, rfl, .skipping⟩, ⟨rfl, rfl⟩⟩

theorem outsideLine_alike (alike : reader.Alike other) (number : Nat) (twin : Twin line line')
    (overlooks : Region.outside.Overlooks line line') :
    StepAlike (reader.outsideLine number line) (other.outsideLine number line') := by
  obtain ⟨braces, forward⟩ := overlooks
  simp only [outsideLine, twin.firstDirective, twin.macroOnly]
  split
  · next opens => exact openClass_alike alike number twin (braces opens)
  have protocol : (decide (firstDirective? line = some "@protocol".toList) &&
        line'.getLast? != some ';') =
      (decide (firstDirective? line = some "@protocol".toList) && line.getLast? != some ';') := by
    by_cases protocol : firstDirective? line = some "@protocol".toList
    · have same := forward protocol
      rw [Bool.eq_iff_iff]
      simp only [Bool.and_eq_true, bne_iff_ne, ne_eq, same]
    · rw [decide_eq_false protocol]
      rfl
  rw [protocol]
  split
  · exact ⟨⟨alike.assumeNonnull, alike.doc, alike.availability, .skipping⟩, .refl _⟩
  split
  · exact ⟨⟨alike.assumeNonnull, alike.doc, alike.availability, .skipping⟩, .refl _⟩
  split
  · exact ⟨⟨alike.assumeNonnull, alike.doc, by simp [alike.availability], alike.region⟩, .refl _⟩
  · exact ⟨⟨alike.assumeNonnull, rfl, rfl, alike.region⟩, .refl _⟩

/-- A line of code is read like a twin of it, if it passes for the twin where its characters are
tested. -/
theorem codeLine_alike (alike : reader.Alike other) (number : Nat) (twin : Twin line line')
    (overlooks : reader.region.Overlooks line line') :
    StepAlike (reader.codeLine number line) (other.codeLine number line') := by
  have regions := alike.region
  simp only [codeLine]
  generalize here : reader.region = region at regions overlooks
  generalize there : other.region = region' at regions
  cases regions with
  | outside => exact outsideLine_alike alike number twin overlooks
  | skipping =>
    simp only [twin.startsEnd]
    split
    · exact ⟨⟨alike.assumeNonnull, alike.doc, alike.availability, .outside⟩, .refl _⟩
    · exact ⟨alike, .refl _⟩
  | inClass classes => exact classLine_alike alike classes number twin overlooks

end Reader

end HeaderBindings
