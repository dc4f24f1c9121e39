import HeaderBindings.Header.Lines
import HeaderBindings.Proofs.Text.Lines
import HeaderBindings.Proofs.Text.Trimming

/-!
What the reader of a header does with one line. Only the trimmed line counts; a run of `///` lines
ends before any other line is looked at; idle lines are passed over, and a line of code goes to the
region that the reader is in.
-/

namespace HeaderBindings

namespace Reader

/-- The lines that begin and end a region in which null is ruled out. -/
def nonnullMarks : List Text := ["NS_ASSUME_NONNULL_BEGIN".toList, "NS_ASSUME_NONNULL_END".toList]

/-- A trimmed line that is passed over: an empty one, a preprocessor line, or a comment of one line
that is no documentation. -/
def isIdle (line : Text) : Bool :=
  line.isEmpty || line.head? == some '#'
    || (Text.startsWith ['/', '/'] line && !Text.startsWith ['/', '/', '/'] line)

/-- A trimmed line of code: not passed over, no comment, no mark of a region. -/
def isCode (line : Text) : Bool :=
  !line.isEmpty && line.head? != some '#' && !Text.startsWith ['/', '/'] line
    && !Text.startsWith ['/', '*'] line && !nonnullMarks.contains line

/-- The reader when a run of `///` lines ends. -/
def closeRun (reader : Reader) : Reader :=
  match reader.comment with
  | some comment => if comment.ofSlashes then reader.closeComment comment else reader
  | none => reader

variable (reader : Reader)

theorem readLine_of_trim (number : Nat) (raw other : Text) (same : raw.trim = other.trim) :
    reader.readLine number raw = reader.readLine number other := by
  rw [readLine, readLine, same]

theorem closeRun_of_none (closed : reader.comment = none) : reader.closeRun = reader := by
  simp [closeRun, closed]

theorem peel_of_none (line : Text) (closed : reader.comment = none) :
    reader.peel line = reader.uncommented line := by rw [peel, closed]

theorem peel_closeRun (line : Text) (other : Text.startsWith ['/', '/', '/'] line = false) :
    reader.peel line = reader.closeRun.peel line := by
  cases found : reader.comment with
  | none => rw [closeRun_of_none reader found]
  | some comment =>
    cases slashes : comment.ofSlashes with
    | false => simp [closeRun, found, slashes]
    | true =>
      simp only [closeRun, found, slashes, if_true, peel]
      split
      · next body whole => simp [Text.startsWith, Text.after?] at other
      · simp [closeComment]

theorem readLine_closeRun (number : Nat) (raw : Text)
    (other : Text.startsWith ['/', '/', '/'] raw.trim = false) :
    reader.readLine number raw = reader.closeRun.readLine number raw := by
  rw [readLine, readLine, reader.peel_closeRun raw.trim other]

theorem uncommented_idle (line : Text) (idle : isIdle line = true) :
    reader.uncommented line = (reader, .nothing) := by
  have others : line ≠ "NS_ASSUME_NONNULL_BEGIN".toList ∧ line ≠ "NS_ASSUME_NONNULL_END".toList := by
    constructor <;> rintro rfl <;> exact absurd idle (by decide)
  unfold uncommented
  rw [if_neg others.1, if_neg others.2]
  split
  · rfl
  · rfl
  · simp [isIdle, Text.startsWith, Text.after?] at idle
  · rfl
  · simp [isIdle, Text.startsWith, Text.after?] at idle
  · next empty directive _ slashes _ =>
    simp only [isIdle, Bool.or_eq_true, Bool.and_eq_true, List.isEmpty_iff, beq_iff_eq,
      Text.startsWith_iff] at idle
    rcases idle with (none | sharp) | ⟨⟨rest, comment⟩, _⟩
    · exact absurd none empty
    · obtain ⟨rest, whole⟩ := List.head?_eq_some_iff.mp sharp
      exact absurd whole (directive rest)
    · exact absurd comment.symm (slashes rest)

-- A mark of a region sets one thing, whatever the reader.
theorem uncommented_mark (line : Text) (mark : line ∈ nonnullMarks) :
    ∃ ruled, ∀ reader : Reader,
      reader.uncommented line = ({ reader with assumeNonnull := ruled }, .nothing) := by
  simp only [nonnullMarks, List.mem_cons, List.not_mem_nil, or_false] at mark
  rcases mark with rfl | rfl
  · refine ⟨true, fun reader => ?_⟩
    unfold uncommented
    exact if_pos rfl
  · refine ⟨false, fun reader => ?_⟩
    unfold uncommented
    rw [if_neg (by decide)]
    exact if_pos rfl

theorem uncommented_code (line : Text) (code : isCode line = true) :
    reader.uncommented line = (reader, .code line) := by
  simp only [isCode, nonnullMarks, Bool.and_eq_true, Bool.not_eq_true'] at code
  obtain ⟨⟨⟨⟨written, directive⟩, slashes⟩, block⟩, marks⟩ := code
  have others : line ≠ "NS_ASSUME_NONNULL_BEGIN".toList ∧ line ≠ "NS_ASSUME_NONNULL_END".toList := by
    simpa using marks
  unfold uncommented
  rw [if_neg others.1, if_neg others.2]
  split
  · cases written
  · cases directive
  · cases slashes
  · cases slashes
  · cases block
  · rfl

theorem readLine_idle (number : Nat) (raw : Text) (closed : reader.comment = none)
    (idle : isIdle raw.trim = true) : reader.readLine number raw = (reader, []) := by
  have peeled : reader.peel raw.trim = (reader, .nothing) := by
    rw [reader.peel_of_none _ closed, reader.uncommented_idle raw.trim idle]
  rw [readLine, peeled]

theorem readLine_code (number : Nat) (raw : Text) (closed : reader.comment = none)
    (code : isCode raw.trim = true) :
    reader.readLine number raw = reader.codeLine number raw.trim := by
  have peeled : reader.peel raw.trim = (reader, .code raw.trim) := by
    rw [reader.peel_of_none _ closed, reader.uncommented_code raw.trim code]
  rw [readLine, peeled]

-- A line of code opens no comment.
theorem codeLine_comment (number : Nat) (line : Text) :
    (reader.codeLine number line).1.comment = reader.comment := by
  have fresh (current : OpenClass) :
      (reader.freshLine current number line).1.comment = reader.comment := by
    unfold freshLine
    repeat' split
    all_goals rfl
  cases region : reader.region with
  | skipping =>
    simp only [codeLine, region]
    split <;> rfl
  | outside =>
    simp only [codeLine, region, outsideLine, openClass]
    repeat' split
    all_goals rfl
  | inClass current =>
    simp only [codeLine, region, classLine]
    split
    · rfl
    split
    · split
      · rfl
      · exact fresh _
    · unfold memberLine
      split
      · exact fresh _
      · rfl
    · exact fresh _

theorem readLines_append (number : Nat) (first later : List Text) :
    reader.readLines number (first ++ later) =
      let read := reader.readLines number first
      let next := read.1.readLines (number + first.length) later
      (next.1, read.2 ++ next.2) := by
  induction first generalizing reader number with
  | nil => simp [readLines]
  | cons line first ih => simp [readLines, ih, Nat.add_assoc, Nat.add_comm 1]

-- An empty line changes nothing but what is read of a comment.
theorem readLine_nil (number : Nat) :
    (reader.readLine number []).2 = [] ∧ (reader.readLine number []).1.finish = reader.finish := by
  obtain ⟨after, peeled, same⟩ : ∃ after, reader.peel (Text.trim []) = (after, .nothing) ∧
      after.finish = reader.finish := by
    cases found : reader.comment with
    | none =>
      refine ⟨reader, ?_, rfl⟩
      rw [reader.peel_of_none _ found]
      exact reader.uncommented_idle _ rfl
    | some comment =>
      cases slashes : comment.ofSlashes with
      | true =>
        refine ⟨reader.closeComment comment, ?_, rfl⟩
        simp only [peel, found, slashes, if_true]
        exact (reader.closeComment comment).uncommented_idle _ rfl
      | false =>
        refine ⟨{ reader with comment := some (comment.addLine []) }, ?_, rfl⟩
        simp only [peel, found, slashes]
        rfl
  rw [readLine, peeled]
  exact ⟨rfl, same⟩

theorem readLine_dropReturn (number : Nat) (raw : Text) :
    reader.readLine number raw.dropReturn = reader.readLine number raw := by
  refine reader.readLine_of_trim number _ _ ?_
  rcases Text.dropReturn_cases raw with same | ended
  · rw [same]
  · have white : ∀ c ∈ ['\r'], isBlank c = true := by decide
    rw [← Text.trim_append_blank raw.dropReturn ['\r'] white, ← ended]

end Reader

/-- The notes on a header are those on what stands between its line feeds. -/
theorem notesOf_pieces (content : Text) :
    notesOf content = (Reader.readLines {} 1 content.pieces).2 ++
      (Reader.readLines {} 1 content.pieces).1.finish := by
  have all (reader : Reader) (number : Nat) (pieces : List Text) :
      (reader.readLines number (Text.linesOf pieces)).2 ++
          (reader.readLines number (Text.linesOf pieces)).1.finish =
        (reader.readLines number pieces).2 ++ (reader.readLines number pieces).1.finish := by
    induction pieces generalizing reader number with
    | nil => rfl
    | cons piece pieces ih =>
      cases pieces with
      | nil =>
        by_cases written : piece = []
        · subst written
          obtain ⟨notes, last⟩ := reader.readLine_nil number
          simp [Text.linesOf, Reader.readLines, notes, last]
        · simp [Text.linesOf, written]
      | cons next pieces =>
        have later := ih (reader.readLine number piece).1 (number + 1)
        simp only [Text.linesOf, Reader.readLines, reader.readLine_dropReturn, List.append_assoc,
          later]
  exact all {} 1 content.pieces

end HeaderBindings
