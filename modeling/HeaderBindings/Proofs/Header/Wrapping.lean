import HeaderBindings.Proofs.Header.Gathering
import HeaderBindings.Proofs.Header.Reading
import HeaderBindings.Proofs.Token.Joining

/-!
Members on several lines. A member that is pending holds the lines that it has so far, joined by
blanks, and idle lines do not disturb it; at the semicolon it is read. So a member that is cut where
its tokens end is read as if it stood on one line.
-/

namespace HeaderBindings

/-- Pieces of text on lines of their own, each between any white space, with idle lines among and
behind them. -/
inductive LaidOut : List Text → List Text → Prop where
  | done : LaidOut [] []
  | idle {pieces lines : List Text} {line : Text} (idle : Reader.isIdle line.trim = true)
      (later : LaidOut pieces lines) : LaidOut pieces (line :: lines)
  | piece {pieces lines : List Text} {piece indent trail : Text}
      (before : ∀ c ∈ indent, isBlank c = true) (behind : ∀ c ∈ trail, isBlank c = true)
      (later : LaidOut pieces lines) :
      LaidOut (piece :: pieces) ((indent ++ piece ++ trail) :: lines)

/-- The class with the member that a declaration declares. -/
def ClassDecl.withMember (decl : ClassDecl) (assumeNonnull : Bool) (doc : DocComment)
    (declaration : Text) : Except DeclarationError ClassDecl :=
  if Text.startsWith "@property".toList declaration then
    (Property.parse assumeNonnull declaration).map fun property =>
      decl.addProperty (property.withDoc doc)
  else (Method.parse declaration).map fun method => decl.addMethod (method.withDoc doc)

/-- What becomes of a class and what is noted when a declaration on a line has been read: the class
has the member, or there is one warning at the line. -/
def OpenClass.Takes (current : OpenClass) (assumeNonnull : Bool) (doc : DocComment) (number : Nat)
    (declaration : Text) (after : OpenClass) (notes : List Note) : Prop :=
  match current.decl.withMember assumeNonnull doc declaration with
  | .ok grown => after = { current with decl := grown, pending := .nothing } ∧ notes = []
  | .error _ =>
    after = { current with pending := .nothing } ∧ notes.map Note.warned? = [some number]

namespace OpenClass

theorem takes_addMember (current : OpenClass) (assumeNonnull : Bool) (member : PendingMember) :
    current.Takes assumeNonnull member.doc member.line member.text
      (current.addMember assumeNonnull member).1 (current.addMember assumeNonnull member).2 := by
  unfold Takes addMember ClassDecl.withMember
  by_cases property : Text.startsWith "@property".toList member.text = true
  · simp only [if_pos property]
    cases Property.parse assumeNonnull member.text with
    | ok property => exact ⟨rfl, rfl⟩
    | error error => exact ⟨rfl, rfl⟩
  · simp only [if_neg property]
    cases Method.parse member.text with
    | ok method => exact ⟨rfl, rfl⟩
    | error error => exact ⟨rfl, rfl⟩

-- There is one class that takes a declaration.
theorem Takes.unique {current after other : OpenClass} {assumeNonnull : Bool} {doc : DocComment}
    {number : Nat} {declaration : Text} {notes notes' : List Note}
    (takes : current.Takes assumeNonnull doc number declaration after notes)
    (takes' : current.Takes assumeNonnull doc number declaration other notes') : after = other := by
  unfold Takes at takes takes'
  cases read : current.decl.withMember assumeNonnull doc declaration with
  | ok grown =>
    rw [read] at takes takes'
    exact takes.1.trans takes'.1.symm
  | error error =>
    rw [read] at takes takes'
    exact takes.1.trans takes'.1.symm

/-- Declarations that start alike and have the same tokens declare the same member. -/
theorem takes_congr {current after : OpenClass} {assumeNonnull : Bool} {doc : DocComment}
    {number : Nat} {text other : Text} {notes : List Note} (same : lex text = lex other)
    (start : Text.startsWith "@property".toList text = Text.startsWith "@property".toList other)
    (takes : current.Takes assumeNonnull doc number text after notes) :
    current.Takes assumeNonnull doc number other after notes := by
  unfold Takes ClassDecl.withMember Property.parse Method.parse at *
  rw [start, same] at takes
  by_cases property : Text.startsWith "@property".toList other = true
  · simp only [if_pos property] at *
    cases read : Property.Reader.property assumeNonnull (untilSemicolon (lex other)) <;>
      rw [read] at takes <;> exact takes
  · simp only [if_neg property] at *
    cases read : Method.Reader.method (untilSemicolon (lex other)) <;>
      rw [read] at takes <;> exact takes

/-- What has been read of a member on several lines does not hold its semicolon. -/
theorem holdMember_open (current : OpenClass) (assumeNonnull : Bool) (member : PendingMember)
    (line : Text) (more : ';' ∉ line) :
    current.holdMember assumeNonnull member line =
      ({ current with pending := .member member }, []) := by
  simp [holdMember, more]

theorem holdMember_complete (current : OpenClass) (assumeNonnull : Bool) (member : PendingMember)
    (line : Text) (complete : ';' ∈ line) :
    current.holdMember assumeNonnull member line = current.addMember assumeNonnull member := by
  simp [holdMember, complete]

-- What was pending before does not matter to the member that is added.
theorem addMember_pending (current : OpenClass) (assumeNonnull : Bool) (pending : Pending)
    (member : PendingMember) :
    { current with pending := pending }.addMember assumeNonnull member =
      current.addMember assumeNonnull member := rfl

end OpenClass

namespace Reader

/-- A trimmed line that goes on with a member that is pending. -/
def goesOn (line : Text) : Bool := isCode line && !startsMember line && !startsEnd line

/-- Text that ends with its only semicolon. -/
def EndsAtSemicolon (text : Text) : Prop := ∃ body, text = body ++ [';'] ∧ ';' ∉ body

variable (reader : Reader)

-- Lines without text leave the reader as it is.
theorem readLines_nothing (number : Nat) (pieces lines : List Text) (laid : LaidOut pieces lines)
    (nothing : pieces.flatten = []) (closed : reader.comment = none) :
    reader.readLines number lines = (reader, []) := by
  induction laid generalizing number with
  | done => rfl
  | idle idle later ih =>
    rw [readLines, reader.readLine_idle number _ closed idle, ih (number + 1) nothing]
    rfl
  | @piece pieces lines piece indent trail before behind later ih =>
    rw [List.flatten_cons, List.append_eq_nil_iff] at nothing
    have idle : isIdle (Text.trim (indent ++ piece ++ trail)) = true := by
      rw [Text.trim_indented _ _ _ before behind, nothing.1]
      rfl
    rw [readLines, reader.readLine_idle number _ closed idle, ih (number + 1) nothing.2]
    rfl

/-- One more line of a member that is pending. -/
theorem readLine_goesOn (number : Nat) (raw : Text) (current : OpenClass) (member : PendingMember)
    (closed : reader.comment = none) (region : reader.region = .inClass current)
    (depth : current.braceDepth ≤ 0) (pending : current.pending = .member member)
    (more : goesOn raw.trim = true) :
    reader.readLine number raw =
      reader.inside (current.holdMember reader.assumeNonnull
        { member with text := member.text ++ ' ' :: raw.trim } raw.trim) := by
  simp only [goesOn, Bool.and_eq_true, Bool.not_eq_true'] at more
  obtain ⟨⟨code, start⟩, ending⟩ := more
  rw [reader.readLine_code number raw closed code, codeLine, region]
  simp only [classLine]
  rw [if_neg (by omega), pending]
  simp [memberLine, start, ending]

/-- The semicolon that ends a text is in its first part, which is all of it, or in the rest. -/
theorem semicolon_of_append (first rest : Text) (ends : EndsAtSemicolon (first ++ rest)) :
    (';' ∈ first ∧ rest = []) ∨ (';' ∉ first ∧ EndsAtSemicolon rest) := by
  obtain ⟨body, whole, free⟩ := ends
  rcases List.eq_nil_or_concat rest with rfl | ⟨inner, last, rfl⟩
  · left
    rw [List.append_nil] at whole
    simp [whole]
  · right
    rw [List.concat_eq_append, ← List.append_assoc] at whole
    obtain ⟨rfl, same⟩ := List.append_inj' whole rfl
    rw [List.mem_append, not_or] at free
    refine ⟨free.1, inner, ?_, free.2⟩
    rw [List.concat_eq_append, same]

/-- A member that is pending is read when the line with its semicolon has been joined to it. -/
theorem readLines_pending (number : Nat) (pieces lines : List Text) (laid : LaidOut pieces lines)
    (current : OpenClass) (member : PendingMember) (closed : reader.comment = none)
    (region : reader.region = .inClass { current with pending := .member member })
    (depth : current.braceDepth ≤ 0)
    (more : ∀ piece ∈ pieces, piece.trim = [] ∨ goesOn piece.trim = true)
    (complete : EndsAtSemicolon pieces.flatten) :
    reader.readLines number lines =
      reader.inside (current.addMember reader.assumeNonnull
        { member with text := member.text ++ pieces.flatMap Text.spaced }) := by
  induction laid generalizing reader number member with
  | done =>
    obtain ⟨body, whole, _⟩ := complete
    simp at whole
  | idle idle later ih =>
    rw [readLines, reader.readLine_idle number _ closed idle,
      ih reader (number + 1) member closed region more complete]
    rfl
  | @piece pieces lines piece indent trail before behind later ih =>
    have trimmed := Text.trim_indented indent piece trail before behind
    rw [List.flatten_cons] at complete
    rw [List.flatMap_cons, readLines]
    have others : ∀ other ∈ pieces, other.trim = [] ∨ goesOn other.trim = true :=
      fun other member => more other (List.mem_cons_of_mem piece member)
    rcases more piece List.mem_cons_self with blank | on
    · -- A piece without visible text holds no semicolon.
      have idle : isIdle (Text.trim (indent ++ piece ++ trail)) = true := by
        rw [trimmed, blank]
        rfl
      have rest : EndsAtSemicolon pieces.flatten := by
        rcases semicolon_of_append piece _ complete with ⟨here, _⟩ | ⟨_, rest⟩
        · have visible := (Text.mem_trim_iff piece ';' (by decide)).mpr here
          rw [blank] at visible
          cases visible
        · exact rest
      rw [reader.readLine_idle number _ closed idle,
        ih reader (number + 1) member closed region others rest]
      simp [Text.spaced, blank]
    · have written : piece.trim ≠ [] := by
        intro none
        rw [none] at on
        cases on
      rw [reader.readLine_goesOn number _ _ member closed region depth rfl (trimmed ▸ on), trimmed]
      rcases semicolon_of_append piece _ complete with ⟨here, nothing⟩ | ⟨missing, rest⟩
      · have inside := (Text.mem_trim_iff piece ';' (by decide)).mpr here
        have idle (step : OpenClass × List Note) :
            (reader.inside step).1.readLines (number + 1) lines = ((reader.inside step).1, []) :=
          readLines_nothing _ _ _ _ later nothing closed
        rw [OpenClass.holdMember_complete _ _ _ _ inside, OpenClass.addMember_pending,
          Text.spaced_nothing pieces nothing, idle]
        simp [Text.spaced, written, Reader.inside]
      · have outside : ';' ∉ piece.trim :=
          fun member => missing ((Text.mem_trim_iff piece ';' (by decide)).mp member)
        rw [OpenClass.holdMember_open _ _ _ _ outside]
        have rest' := ih { reader with
            region := .inClass { current with
              pending := .member { member with text := member.text ++ ' ' :: piece.trim } } }
          (number + 1) _ closed rfl others rest
        simp only [Reader.inside]
        rw [rest']
        simp [Text.spaced, written, Reader.inside]

/-- The words that a member starts with. -/
def memberStarts : List Text := ["@property".toList, ['-'], ['+']]

theorem startsMember_iff (line : Text) :
    startsMember line = true ↔ ∃ word ∈ memberStarts, word <+: line := by
  have head (c : Char) : line.head? = some c ↔ [c] <+: line := by
    rw [List.head?_eq_some_iff]
    exact ⟨fun ⟨rest, whole⟩ => ⟨rest, whole.symm⟩, fun ⟨rest, whole⟩ => ⟨rest, whole.symm⟩⟩
  simp only [startsMember, memberStarts, Bool.or_eq_true, Text.startsWith_iff, beq_iff_eq, head,
    List.mem_cons, List.not_mem_nil, or_false, exists_eq_or_imp, exists_eq_left, or_assoc]

theorem visible_memberStarts : ∀ word ∈ memberStarts, (∀ c ∈ word.head?, isBlank c = false) ∧
    ∀ c ∈ word.getLast?, isBlank c = false := by decide

theorem startsMember_trim (line : Text) (starts : startsMember line = true) :
    startsMember line.trim = true := by
  obtain ⟨word, known, front⟩ := (startsMember_iff line).mp starts
  obtain ⟨first, last⟩ := visible_memberStarts word known
  exact (startsMember_iff _).mpr ⟨word, known, Text.prefix_trim word line first last front⟩

-- A line that starts a member is code, and neither documentation nor an end.
theorem code_of_startsMember (line : Text) (starts : startsMember line = true) :
    isCode line = true ∧ Text.startsWith ['/', '/', '/'] line = false ∧ startsEnd line = false ∧
      line.head? ≠ some '<' := by
  obtain ⟨word, known, rest, rfl⟩ := (startsMember_iff line).mp starts
  simp only [memberStarts, List.mem_cons, List.not_mem_nil, or_false] at known
  rcases known with rfl | rfl | rfl <;>
    simp [isCode, startsEnd, nonnullMarks, Text.startsWith, Text.after?]

/-- A reader in a class that waits for a member: outside blocks of instance variables, no member is
pending, and no comment but a run of `///` lines is open. -/
structure AwaitsMember (current : OpenClass) : Prop where
  region : reader.region = .inClass current
  depth : current.braceDepth ≤ 0
  pending : ∀ member, current.pending ≠ .member member
  comment : ∀ comment ∈ reader.comment, comment.ofSlashes = true

/-- The documentation that the next member gets. -/
def pendingDoc : DocComment := reader.closeRun.doc.getD {}

theorem closeRun_comment (runs : ∀ comment ∈ reader.comment, comment.ofSlashes = true) :
    reader.closeRun.comment = none := by
  cases found : reader.comment with
  | none => simp [closeRun, found]
  | some comment => simp [closeRun, found, runs comment found, closeComment]

theorem closeRun_region : reader.closeRun.region = reader.region := by
  unfold closeRun
  repeat' split
  all_goals rfl

theorem closeRun_assumeNonnull : reader.closeRun.assumeNonnull = reader.assumeNonnull := by
  unfold closeRun
  repeat' split
  all_goals rfl

/-- The first line of a member. -/
theorem readLine_startsMember (number : Nat) (raw : Text) (current : OpenClass)
    (awaits : reader.AwaitsMember current) (starts : startsMember raw.trim = true) :
    reader.readLine number raw =
      { reader.closeRun with doc := none }.inside
        ({ current with pending := .nothing }.holdMember reader.assumeNonnull
          ⟨raw.trim, number, reader.pendingDoc⟩ raw.trim) := by
  obtain ⟨code, noDoc, noEnd, noAngle⟩ := code_of_startsMember _ starts
  have closed := reader.closeRun_comment awaits.comment
  have fresh (own : OpenClass) :
      reader.closeRun.freshLine own number raw.trim =
        { reader.closeRun with doc := none }.inside (own.holdMember reader.assumeNonnull
          ⟨raw.trim, number, reader.pendingDoc⟩ raw.trim) := by
    simp [freshLine, noEnd, starts, closeRun_assumeNonnull, pendingDoc]
  rw [reader.readLine_closeRun number raw noDoc, readLine_code _ number raw closed code, codeLine,
    closeRun_region, awaits.region]
  simp only [classLine]
  rw [if_neg (by have := awaits.depth; omega)]
  cases pending : current.pending with
  | nothing => 
    have same : { current with pending := .nothing } = current := by rw [← pending]
    rw [same]
    exact fresh current
  | header header =>
    simp only [if_neg noAngle]
    exact fresh _
  | member member => exact absurd pending (awaits.pending member)

/-- A declaration of a member that is cut where its tokens end, so that no piece but the first looks
like the start of anything. -/
structure MemberCut (first : Text) (later : List Text) : Prop where
  starts : startsMember (first ++ later.flatten) = true
  complete : EndsAtSemicolon (first ++ later.flatten)
  feed : '\n' ∉ first ++ later.flatten
  written : first ≠ []
  ends : Text.CutAtTokens (first :: later)
  more : ∀ piece ∈ later, piece.trim = [] ∨ goesOn piece.trim = true

namespace MemberCut

variable {first : Text} {later : List Text}

-- The lexer does not come to stand inside the directive.
theorem stops_property (rest after : Text) (known : after ∈ Token.stops ("@property".toList ++ rest)) :
    after = "@property".toList ++ rest ∨ after.length ≤ rest.length := by
  have name : ∀ c ∈ "property".toList, Token.isNameChar c = true := by decide
  have left : (Token.first '@' ("property".toList ++ rest)).2 = rest.dropWhile Token.isNameChar := by
    have run : ("property".toList ++ rest).dropWhile Token.isNameChar =
        rest.dropWhile Token.isNameChar := List.dropWhile_append_of_pos name
    simpa [Token.first, Token.isGap, Token.atSign, Token.nameRun, Token.isNameStart] using run
  have split : "@property".toList ++ rest = '@' :: ("property".toList ++ rest) := rfl
  rw [split, Token.stops, left] at known
  rcases List.mem_cons.mp known with same | inner
  · exact Or.inl same
  · right
    obtain ⟨tokens, reads⟩ := (Token.mem_stops_iff _ _).mp inner
    exact Nat.le_trans reads.suffix.length_le (Token.length_dropWhile Token.isNameChar rest)

-- The word that the declaration starts with is not cut.
theorem first_starts (cut : MemberCut first later) : startsMember first = true := by
  obtain ⟨word, known, front⟩ := (startsMember_iff _).mp cut.starts
  refine (startsMember_iff first).mpr ⟨word, known, ?_⟩
  rcases List.prefix_or_prefix_of_prefix front (List.prefix_append first later.flatten) with
    inside | beyond
  · exact inside
  · have written := List.length_pos_iff.mpr cut.written
    have long : word.length ≤ first.length := by
      simp only [memberStarts, List.mem_cons, List.not_mem_nil, or_false] at known
      rcases known with rfl | rfl | rfl
      · obtain ⟨rest, whole⟩ := front
        have sizes := congrArg List.length whole
        have stop := cut.ends.1
        rw [← whole] at stop
        rw [List.length_append, List.length_append] at sizes
        rcases stops_property rest _ stop with same | short
        · have again := congrArg List.length same
          rw [List.length_append] at again
          omega
        · omega
      · exact written
      · exact written
    exact ⟨[], by rw [List.append_nil, beyond.eq_of_length_le long]⟩

-- The first piece with the later ones joined to it.
def joined (first : Text) (later : List Text) : Text := first.trim ++ later.flatMap Text.spaced

theorem lex_joined (cut : MemberCut first later)
    (skipped : ∀ piece ∈ first :: later, piece.SkippedEdges) :
    lex (joined first later) = lex (first ++ later.flatten) := by
  obtain ⟨body, whole, _⟩ := cut.complete
  have written : first.trim ≠ [] := by
    intro none
    have starts := startsMember_trim first cut.first_starts
    rw [none] at starts
    cases starts
  have spaced := Token.lex_spaced (first :: later) cut.ends skipped cut.feed (by
    rw [List.flatten_cons, whole]
    simp
    decide)
  have blank := Token.lex_gap [' '] (joined first later) (by simp [Token.isGap])
  rw [List.flatten_cons] at spaced
  rw [← spaced, ← blank]
  simp [Text.spaced, written, joined]

theorem joined_property (cut : MemberCut first later) :
    Text.startsWith "@property".toList (joined first later) =
      Text.startsWith "@property".toList (first ++ later.flatten) := by
  obtain ⟨word, known, front⟩ := (startsMember_iff first).mp cut.first_starts
  obtain ⟨visible, visible'⟩ := visible_memberStarts word known
  obtain ⟨tail, trimmed⟩ := Text.prefix_trim word first visible visible' front
  obtain ⟨rest, rfl⟩ := front
  simp only [memberStarts, List.mem_cons, List.not_mem_nil, or_false] at known
  rw [joined, ← trimmed]
  rcases known with rfl | rfl | rfl <;> simp [Text.startsWith, Text.after?]

end MemberCut

/-- A member on several lines is read as its joined pieces at the line of the first one. -/
theorem readLines_member (number : Nat) (first indent trail : Text) (later lines : List Text)
    (current : OpenClass) (awaits : reader.AwaitsMember current) (cut : MemberCut first later)
    (before : ∀ c ∈ indent, isBlank c = true) (behind : ∀ c ∈ trail, isBlank c = true)
    (laid : LaidOut later lines) :
    reader.readLines number ((indent ++ first ++ trail) :: lines) =
      { reader.closeRun with doc := none }.inside (current.addMember reader.assumeNonnull
        ⟨MemberCut.joined first later, number, reader.pendingDoc⟩) := by
  have trimmed := Text.trim_indented indent first trail before behind
  have starts := startsMember_trim first cut.first_starts
  have closed := reader.closeRun_comment awaits.comment
  rw [readLines, readLine_startsMember reader number _ current awaits (trimmed ▸ starts), trimmed]
  rcases semicolon_of_append first _ cut.complete with ⟨here, nothing⟩ | ⟨missing, rest⟩
  · have inside := (Text.mem_trim_iff first ';' (by decide)).mpr here
    have idle (step : OpenClass × List Note) :
        ({ reader.closeRun with doc := none }.inside step).1.readLines (number + 1) lines =
          (({ reader.closeRun with doc := none }.inside step).1, []) :=
      readLines_nothing _ _ _ _ laid nothing closed
    rw [OpenClass.holdMember_complete _ _ _ _ inside, OpenClass.addMember_pending, idle]
    simp [MemberCut.joined, Text.spaced_nothing later nothing, Reader.inside]
  · have outside : ';' ∉ first.trim :=
      fun member => missing ((Text.mem_trim_iff first ';' (by decide)).mp member)
    rw [OpenClass.holdMember_open _ _ _ _ outside]
    have pending := readLines_pending
      { reader.closeRun with
        doc := none
        region := .inClass { current with
          pending := .member ⟨first.trim, number, reader.pendingDoc⟩ } }
      (number + 1) later lines laid current _ closed rfl awaits.depth cut.more rest
    simp only [Reader.inside]
    rw [pending]
    simp [MemberCut.joined, Reader.inside, closeRun_assumeNonnull]

/-- A member on one line. -/
theorem readLine_member (number : Nat) (first : Text) (later : List Text) (current : OpenClass)
    (awaits : reader.AwaitsMember current) (cut : MemberCut first later) :
    reader.readLine number (first ++ later.flatten) =
      { reader.closeRun with doc := none }.inside (current.addMember reader.assumeNonnull
        ⟨first ++ later.flatten, number, reader.pendingDoc⟩) := by
  obtain ⟨body, whole, _⟩ := cut.complete
  have trimmed : (first ++ later.flatten).trim = first ++ later.flatten := by
    obtain ⟨word, known, rest, front⟩ := (startsMember_iff _).mp cut.starts
    obtain ⟨visible, _⟩ := visible_memberStarts word known
    apply Text.trim_of_visible
    · intro c head
      rw [← front, List.head?_append] at head
      cases word with
      | nil => simp [memberStarts] at known
      | cons d word => exact visible c head
    · intro c last
      rw [whole] at last
      have same : ';' = c := by simpa using last
      rw [← same]
      decide
  have complete : ';' ∈ first ++ later.flatten := by simp [whole]
  rw [readLine_startsMember reader number _ current awaits (trimmed.symm ▸ cut.starts), trimmed,
    OpenClass.holdMember_complete _ _ _ _ complete, OpenClass.addMember_pending]

/-- Wrapping a member over lines does not show: wherever a reader waits for a member, a declaration
that is cut where its tokens end, each piece on a line with any white space around it and idle lines
in between, makes of the reader what it makes of it on one line. The class has the member that the
declaration declares on one line, or there is one warning at the first line. -/
theorem readLines_wrapped (number : Nat) (first indent trail : Text) (later lines : List Text)
    (current : OpenClass) (awaits : reader.AwaitsMember current) (cut : MemberCut first later)
    (skipped : ∀ piece ∈ first :: later, piece.SkippedEdges)
    (before : ∀ c ∈ indent, isBlank c = true) (behind : ∀ c ∈ trail, isBlank c = true)
    (laid : LaidOut later lines) :
    let read := reader.readLines number ((indent ++ first ++ trail) :: lines)
    read.1 = (reader.readLine number (first ++ later.flatten)).1 ∧
      ∃ after, read.1 = { reader.closeRun with doc := none, region := .inClass after } ∧
        current.Takes reader.assumeNonnull reader.pendingDoc number (first ++ later.flatten) after
          read.2 := by
  have same := cut.lex_joined skipped
  have wrapped := readLines_member reader number first indent trail later lines current awaits cut
    before behind laid
  have single := readLine_member reader number first later current awaits cut
  have takes := OpenClass.takes_congr same cut.joined_property (current.takes_addMember
    reader.assumeNonnull ⟨MemberCut.joined first later, number, reader.pendingDoc⟩)
  have takes' := current.takes_addMember reader.assumeNonnull
    ⟨first ++ later.flatten, number, reader.pendingDoc⟩
  simp only
  rw [wrapped, single]
  constructor
  · simp only [inside]
    rw [takes.unique takes']
  · exact ⟨_, rfl, takes⟩

/-- A class without members, and a reader in it. -/
def emptyPanel : OpenClass := { decl := { name := "Panel".toList }, line := 1 }

def inPanel : Reader := { region := .inClass emptyPanel }

theorem inPanel_awaits : inPanel.AwaitsMember emptyPanel where
  region := rfl
  depth := by decide
  pending := by simp [emptyPanel]
  comment := by simp [inPanel]

theorem move_cut : MemberCut "- (void)move:(int)x ".toList ["to:(int)y;".toList] where
  starts := by decide
  complete := ⟨"- (void)move:(int)x to:(int)y".toList, by decide, by decide⟩
  feed := by decide
  written := by decide
  ends := by decide +kernel
  more := by decide

/-- A method on two lines, with a preprocessor line between them. -/
theorem readLines_wrapped_move :
    let read := inPanel.readLines 2
      ["  - (void)move:(int)x ".toList, "#if 1".toList, "    to:(int)y;".toList]
    read.1 = (inPanel.readLine 2 "- (void)move:(int)x to:(int)y;".toList).1 ∧
      ∃ after, read.1 = { inPanel.closeRun with doc := none, region := .inClass after } ∧
        emptyPanel.Takes false {} 2 "- (void)move:(int)x to:(int)y;".toList after read.2 := by
  have laid : LaidOut ["to:(int)y;".toList]
      ["#if 1".toList, "    ".toList ++ "to:(int)y;".toList ++ []] :=
    .idle (by decide) (.piece (by decide) (by decide) .done)
  exact readLines_wrapped inPanel 2 "- (void)move:(int)x ".toList "  ".toList [] _ _ emptyPanel
    inPanel_awaits move_cut (by decide) (by decide) (by decide) laid

theorem panel_cut : MemberCut "- (void)size\u00a0".toList [";".toList] where
  starts := by decide
  complete := ⟨"- (void)size\u00a0".toList, by decide, by decide⟩
  feed := by decide
  written := by decide
  ends := by decide +kernel
  more := by decide

/-- White space that is trimmed but not skipped between tokens does show: a no-break space before
the semicolon is an unexpected token, unless the line ends there. -/
theorem no_break_space_shows :
    ¬ ∀ (reader : Reader) (number : Nat) (first indent trail : Text) (later lines : List Text)
      (current : OpenClass), reader.AwaitsMember current → MemberCut first later →
      (∀ c ∈ indent, isBlank c = true) → (∀ c ∈ trail, isBlank c = true) → LaidOut later lines →
      let read := reader.readLines number ((indent ++ first ++ trail) :: lines)
      read.1 = (reader.readLine number (first ++ later.flatten)).1 ∧
        ∃ after, read.1 = { reader.closeRun with doc := none, region := .inClass after } ∧
          current.Takes reader.assumeNonnull reader.pendingDoc number (first ++ later.flatten) after
            read.2 := by
  intro wraps
  have laid : LaidOut [";".toList] [[] ++ ";".toList ++ []] :=
    .piece (by decide) (by decide) .done
  have same := (wraps inPanel 2 _ [] [] _ _ emptyPanel inPanel_awaits panel_cut (by decide)
    (by decide) laid).1
  exact absurd same (by decide +kernel)

end Reader

end HeaderBindings
