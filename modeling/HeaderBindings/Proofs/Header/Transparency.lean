import HeaderBindings.Proofs.Header.Comments
import HeaderBindings.Proofs.Header.Insertion

/-!
Plain comments that have their lines to themselves. Such a comment ends a run of `///` lines that is open
above it and leaves everything else as it is, whatever the reader is in the middle of: a class, a
member, a block of variables, a block that is skipped. So it can be put in between any two lines across
which no other comment goes on.
-/

namespace HeaderBindings

/-- A plain comment on lines of its own, with white space around it: two slashes and what follows them on
the line, or a block up to its first closing mark, whatever it holds. -/
inductive PlainComment : List Text → Prop where
  | slashes {indent body : Text} (before : ∀ c ∈ indent, isBlank c = true)
      (plain : Text.isDoc ('/' :: '/' :: body) = false) :
      PlainComment [indent ++ '/' :: '/' :: body]
  | block {indent body trail : Text} (before : ∀ c ∈ indent, isBlank c = true)
      (behind : ∀ c ∈ trail, isBlank c = true) (level : '\n' ∉ indent ++ trail)
      (plain : Text.isDoc ('/' :: '*' :: (body ++ ['*', '/'])) = false)
      (inner : ¬ ['*', '/'] <:+: body) :
      PlainComment (Text.pieces (indent ++ '/' :: '*' :: (body ++ ['*', '/'] ++ trail)))

/-- Text without a closing mark ends at the mark behind it. -/
theorem Text.cutAt_closing (body rest : Text) (inner : ¬ ['*', '/'] <:+: body) :
    cutAt? ['*', '/'] (body ++ ['*', '/'] ++ rest) = some (body, rest) := by
  induction body with
  | nil => simp [cutAt?, after?]
  | cons c body ih =>
    have later := ih fun within => inner (within.trans (List.suffix_cons c body).isInfix)
    -- A mark cannot begin with the last character of the text and end with the first of the mark.
    have apart : after? ['*', '/'] (c :: (body ++ ['*', '/'] ++ rest)) = none := by
      rw [after_eq_none_iff]
      rintro ⟨tail, whole⟩
      cases body with
      | nil => simp at whole
      | cons d body =>
        simp only [List.cons_append, List.nil_append, List.cons.injEq] at whole
        obtain ⟨rfl, rfl, _⟩ := whole
        exact inner ⟨[], body, rfl⟩
    rw [List.cons_append, List.cons_append, cutAt?, apart, later]
    rfl

/-- What stands in front of the first line feed is the front of the first piece. -/
theorem Text.pieces_front (front text : Text) (free : '\n' ∉ front) :
    ∃ first later, pieces (front ++ text) = (front ++ first) :: later := by
  by_cases broken : '\n' ∈ text
  · obtain ⟨first, rest, rfl, free'⟩ := List.eq_append_cons_of_mem broken
    have whole : '\n' ∉ front ++ first := by simp [free, free']
    exact ⟨first, pieces rest, by rw [← List.append_assoc, pieces_feed _ _ whole]⟩
  · have whole : '\n' ∉ front ++ text := by simp [free, broken]
    exact ⟨text, [], pieces_free _ whole⟩

namespace Reader

variable {reader : Reader}

/-- No comment goes on from the lines above to those below: what is open above is a run of `///` lines
at most, and the next line is none of them. -/
structure OutsideComments (reader : Reader) (behind : List Text) : Prop where
  block : ∀ comment ∈ reader.comment, comment.ofSlashes = true
  run : reader.comment.isSome = true → ∀ line ∈ behind.head?, ¬ ['/', '/', '/'] <+: line.trim

theorem closeComment_of_plain (reader : Reader) (comment : OpenComment) (plain : comment.isDoc = false) :
    reader.closeComment comment = reader.inComment none := by
  simp [closeComment, inComment, plain]

theorem inComment_of_none (closed : reader.comment = none) : reader.inComment none = reader := by
  rw [inComment, ← closed]

/-! ## The lines of one comment -/

section Lines

variable (number : Nat) {indent body trail : Text} (before : ∀ c ∈ indent, isBlank c = true)
  (behind : ∀ c ∈ trail, isBlank c = true)

include before in
/-- A plain comment of two slashes is none of a run of `///` lines. -/
theorem trim_slashes_plain (plain : Text.isDoc ('/' :: '/' :: body) = false) :
    Text.trim (indent ++ '/' :: '/' :: body) = '/' :: '/' :: Text.trimEnd body ∧
      ¬ ['/', '/', '/'] <+: '/' :: '/' :: Text.trimEnd body := by
  constructor
  · rw [Text.trim_blank_append _ _ before, Text.trim_slash '/' body (by decide)]
  · intro third
    obtain ⟨trail, whole, _⟩ := Text.trimEnd_parts body
    have run : ['/', '/', '/'] <+: '/' :: '/' :: body :=
      third.trans ⟨trail, congrArg (fun rest => '/' :: '/' :: rest) whole.symm⟩
    rw [← List.isPrefixOf_iff_prefix] at run
    simp [Text.isDoc, run] at plain

include before in
theorem readLine_slashes_plain (closed : reader.comment = none)
    (plain : Text.isDoc ('/' :: '/' :: body) = false) :
    reader.readLine number (indent ++ '/' :: '/' :: body) = (reader, []) := by
  obtain ⟨trimmed, other⟩ := trim_slashes_plain before plain
  rw [← Text.startsWith_iff, Bool.not_eq_true] at other
  refine reader.readLine_idle number _ closed ?_
  rw [trimmed, isIdle, other]
  rfl

include behind in
/-- The rest of a comment that is open, and white space up to the end of its last line. -/
theorem readLines_closing (level : '\n' ∉ trail) (comment : OpenComment)
    (inside : reader.comment = some comment) (block : comment.ofSlashes = false)
    (plain : comment.isDoc = false) (inner : ¬ ['*', '/'] <:+: body) :
    reader.readLines number (Text.pieces (body ++ ['*', '/'] ++ trail)) = (reader.inComment none, []) := by
  have last (reader : Reader) (comment : OpenComment) (inside : reader.comment = some comment)
      (block : comment.ofSlashes = false) (plain : comment.isDoc = false) (number : Nat) (body : Text)
      (inner : ¬ ['*', '/'] <:+: body) (free : '\n' ∉ body) :
      reader.readLines number (Text.pieces (body ++ ['*', '/'] ++ trail)) =
        (reader.inComment none, []) := by
    have closes := Text.cutAt_closing body trail inner
    have free' : '\n' ∉ body ++ ['*', '/'] ++ trail := by simp [free, level]
    have peeled := reader.peel_closing comment inside block _ body trail closes
    rw [reader.closeComment_of_plain (comment.addLine _) plain] at peeled
    rw [Text.pieces_free _ free', readLines, readLine_again peeled, readLine_blank rfl behind]
    rfl
  induction body using Text.line_induction generalizing reader comment number with
  | empty => exact last reader comment inside block plain number [] inner (by simp)
  | last body written free => exact last reader comment inside block plain number body inner free
  | feed line rest free ih =>
    have outer : line <:+: line ++ '\n' :: rest := (List.prefix_append _ _).isInfix
    have below : rest <:+: line ++ '\n' :: rest :=
      ((List.suffix_cons '\n' rest).trans (List.suffix_append line _)).isInfix
    have runs : Text.cutAt? ['*', '/'] line = none :=
      (Text.cutAt_eq_none_iff _ _).mpr fun within => inner (within.trans outer)
    have first : reader.readLine number line =
        ({ reader with comment := some (comment.addLine line.trim) }, []) :=
      readLine_nothing (reader.peel_open comment inside block line runs)
    have later := @ih { reader with comment := some (comment.addLine line.trim) } (number + 1)
      (comment.addLine line.trim) rfl block plain fun within => inner (within.trans below)
    have split : line ++ '\n' :: rest ++ ['*', '/'] ++ trail =
        line ++ '\n' :: (rest ++ ['*', '/'] ++ trail) := by simp
    rw [split, Text.pieces_feed line _ free, readLines, first, later]
    rfl

include before behind in
theorem readLines_block (closed : reader.comment = none) (level : '\n' ∉ indent ++ trail)
    (plain : Text.isDoc ('/' :: '*' :: (body ++ ['*', '/'])) = false)
    (inner : ¬ ['*', '/'] <:+: body) :
    reader.readLines number
        (Text.pieces (indent ++ '/' :: '*' :: (body ++ ['*', '/'] ++ trail))) = (reader, []) := by
  rw [List.mem_append, not_or] at level
  by_cases broken : '\n' ∈ body
  · obtain ⟨first, rest, rfl, free⟩ := List.eq_append_cons_of_mem broken
    have outer : first <:+: first ++ '\n' :: rest := (List.prefix_append _ _).isInfix
    have below : rest <:+: first ++ '\n' :: rest :=
      ((List.suffix_cons '\n' rest).trans (List.suffix_append first _)).isInfix
    obtain ⟨white, whole, _⟩ := Text.trimEnd_parts first
    have runs : Text.cutAt? ['*', '/'] (Text.trimEnd first) = none := by
      rw [Text.cutAt_eq_none_iff]
      exact fun within => inner ((within.trans ⟨[], white, whole.symm⟩).trans outer)
    -- The mark of documentation would stand on the first line.
    have marked : Text.isDoc ('/' :: '*' :: Text.trimEnd first) = false := by
      rw [isDoc_block] at plain ⊢
      generalize Text.trimEnd first = front at whole
      cases front with
      | nil => rfl
      | cons c front =>
        rw [whole] at plain
        exact plain
    have trimmed : Text.trim (indent ++ '/' :: '*' :: first) = '/' :: '*' :: Text.trimEnd first := by
      rw [Text.trim_blank_append _ _ before, Text.trim_slash '*' first (by decide)]
    let opened := reader.inComment (some ⟨'/' :: '*' :: Text.trimEnd first, false, false⟩)
    have opens : reader.peel (Text.trim (indent ++ '/' :: '*' :: first)) = (opened, .nothing) := by
      rw [trimmed, reader.peel_of_none _ closed, reader.uncommented_open _ runs, marked]
      rfl
    have later : opened.readLines (number + 1) (Text.pieces (rest ++ ['*', '/'] ++ trail)) =
        (opened.inComment none, []) :=
      readLines_closing (number + 1) behind level.2 _ rfl rfl rfl fun within =>
        inner (within.trans below)
    have split : indent ++ '/' :: '*' :: (first ++ '\n' :: rest ++ ['*', '/'] ++ trail) =
        (indent ++ '/' :: '*' :: first) ++ '\n' :: (rest ++ ['*', '/'] ++ trail) := by simp
    have free' : '\n' ∉ indent ++ '/' :: '*' :: first := by simp [level.1, free]
    rw [split, Text.pieces_feed _ _ free', readLines, readLine_nothing opens, later]
    exact Prod.ext (inComment_of_none closed) rfl
  · have closes := Text.cutAt_closing body trail inner
    have free : '\n' ∉ indent ++ '/' :: '*' :: (body ++ ['*', '/'] ++ trail) := by
      simp [level, broken]
    have trimmed : Text.trim (indent ++ '/' :: '*' :: (body ++ ['*', '/'] ++ trail)) =
        Text.trim ('/' :: '*' :: (body ++ ['*', '/']) ++ trail) := Text.trim_blank_append _ _ before
    have peeled := reader.peel_block closed body trail closes
    rw [reader.closeComment_of_plain _ plain, inComment_of_none closed, ← trimmed] at peeled
    rw [Text.pieces_free _ free, readLines, readLine_again peeled, readLine_blank closed behind]
    rfl

end Lines

/-! ## Any comments -/

-- A line that is none of a run of `///` lines ends the run first.
theorem readLines_closeRun (reader : Reader) (number : Nat) (first : Text) (later : List Text)
    (other : ¬ ['/', '/', '/'] <+: first.trim) :
    reader.readLines number (first :: later) = reader.closeRun.readLines number (first :: later) := by
  rw [← Text.startsWith_iff, Bool.not_eq_true] at other
  rw [readLines, readLines, reader.readLine_closeRun number first other]

/-- A plain comment ends a run of `///` lines, and that is all. -/
theorem readLines_plain (reader : Reader) (number : Nat) (lines : List Text)
    (comment : PlainComment lines) (runs : ∀ comment ∈ reader.comment, comment.ofSlashes = true) :
    reader.readLines number lines = (reader.closeRun, []) := by
  have closed := reader.closeRun_comment runs
  cases comment with
  | @slashes indent body before plain =>
    obtain ⟨trimmed, other⟩ := trim_slashes_plain before plain
    rw [readLines_closeRun _ _ _ _ (trimmed ▸ other), readLines,
      readLine_slashes_plain number before closed plain]
    rfl
  | @block indent body trail before behind level plain inner =>
    have front : '\n' ∉ indent ++ ['/', '*'] := by simp_all
    obtain ⟨first, later, split⟩ := Text.pieces_front _ (body ++ ['*', '/'] ++ trail) front
    have whole : Text.pieces (indent ++ '/' :: '*' :: (body ++ ['*', '/'] ++ trail)) =
        (indent ++ ['/', '*'] ++ first) :: later := by
      rw [← split]
      simp
    have other : ¬ ['/', '/', '/'] <+: Text.trim (indent ++ ['/', '*'] ++ first) := by
      have trimmed : Text.trim (['/', '*'] ++ first) = '/' :: '*' :: Text.trimEnd first :=
        Text.trim_slash '*' first (by decide)
      rw [List.append_assoc, Text.trim_blank_append _ _ before, trimmed]
      simp
    rw [whole, readLines_closeRun _ _ _ _ other, ← whole]
    exact readLines_block number before behind closed level plain inner

/-- Plain comments one below the other. -/
theorem readLines_comments (reader : Reader) (number : Nat) (comments : List (List Text))
    (plain : ∀ lines ∈ comments, PlainComment lines)
    (runs : ∀ comment ∈ reader.comment, comment.ofSlashes = true) :
    ∃ next, reader.readLines number comments.flatten = (next, []) ∧
      (next = reader ∨ next = reader.closeRun) := by
  induction comments generalizing reader number with
  | nil => exact ⟨reader, rfl, .inl rfl⟩
  | cons lines comments ih =>
    have closed := reader.closeRun_comment runs
    have first := reader.readLines_plain number lines (plain lines List.mem_cons_self) runs
    obtain ⟨next, read, same⟩ := ih reader.closeRun (number + lines.length)
      (fun other member => plain other (List.mem_cons_of_mem lines member)) (by simp [closed])
    rw [closeRun_of_none _ closed, or_self] at same
    refine ⟨next, ?_, .inr same⟩
    rw [List.flatten_cons, readLines_append, first]
    simp only [read, List.append_nil]

/-- Where no comment goes on, what is below is read in the same way whether a run is ended or not. -/
theorem following_closeRun {behind : List Text} (outside : reader.OutsideComments behind)
    (number : Nat) : reader.closeRun.following number behind = reader.following number behind := by
  cases found : reader.comment with
  | none => rw [closeRun_of_none reader found]
  | some comment =>
    cases behind with
    | nil =>
      simp only [following, readLines, closeRun, found, outside.block comment found]
      rfl
    | cons line behind =>
      have other := outside.run (by rw [found]; rfl) line rfl
      rw [following, following, readLines_closeRun reader number line behind other]

end Reader

/-- Plain comments on lines of their own make no difference. Between any two lines across which no
comment goes on, they leave the classes as they are, with their documentation, and the warnings as they
are but for lines that have moved down. -/
theorem Run.extractUnits_transparent (set : ClassSet) (path : Text) (before behind : List Text)
    (comments : List (List Text)) (later : List SourceUnit)
    (free : ∀ line ∈ before ++ comments.flatten ++ behind, '\n' ∉ line)
    (plain : ∀ lines ∈ comments, PlainComment lines)
    (outside : (Reader.readLines {} 1 before).1.OutsideComments behind) :
    let kept := Run.extractUnits set (.ofLines path (before ++ behind) :: later)
    let longer := Run.extractUnits set (.ofLines path (before ++ comments.flatten ++ behind) :: later)
    longer.1.classes = kept.1.classes ∧
      ∃ above below rest, kept.1.diagnostics = above ++ below ++ rest ∧
        longer.1.diagnostics =
          above ++ below.map (Diagnostic.pushed before.length comments.flatten.length) ++ rest := by
  intro kept longer
  obtain ⟨next, reads, same⟩ := Reader.readLines_comments _ (1 + before.length) comments plain
    outside.block
  have resumes (number : Nat) : next.following number behind =
      (Reader.readLines {} 1 before).1.following number behind := by
    rcases same with rfl | rfl
    · rfl
    · exact Reader.following_closeRun outside number
  obtain ⟨classes, above, below, rest, unchanged, moved⟩ :=
    extractUnits_insertion path free set later reads rfl resumes
  have silent : (SourceUnit.ofLines path (before ++ comments.flatten ++ behind)).reported [] = [] := rfl
  rw [silent, List.append_nil] at moved
  exact ⟨classes, above, below, rest, unchanged, moved⟩

/-- A class up to the middle of a member, two comments that look like code and like documentation, and
what stands below them, in which a member cannot be read and the end of the class is missing. -/
def aboveComments : List Text :=
  ["@interface Panel : NSObject".toList, "/// Moves it.".toList, "- (void)move:(int)x".toList]

def wholeComments : List (List Text) :=
  [["\t// - (void)lost; @end".toList],
   ["  /* @end \x7b".toList, "/// Not for it.".toList, "*/ ".toList]]

def belowComments : List Text := ["    to:(int)y;".toList, "- broken;".toList]

theorem plain_wholeComments : ∀ lines ∈ wholeComments, PlainComment lines := by
  have first : ["\t// - (void)lost; @end".toList] =
      ["\t".toList ++ '/' :: '/' :: " - (void)lost; @end".toList] := by decide +kernel
  have second : ["  /* @end \x7b".toList, "/// Not for it.".toList, "*/ ".toList] =
      Text.pieces ("  ".toList ++ '/' :: '*' :: (" @end \x7b\n/// Not for it.\n".toList ++ ['*', '/']
        ++ " ".toList)) := by decide +kernel
  intro lines member
  simp only [wholeComments, List.mem_cons, List.not_mem_nil, or_false] at member
  rcases member with rfl | rfl
  · rw [first]
    exact .slashes (by decide +kernel) (by decide +kernel)
  · rw [second]
    exact .block (by decide +kernel) (by decide +kernel) (by decide +kernel) (by decide +kernel)
      (by decide +kernel)

theorem extractUnits_transparent_panel :
    (∀ line ∈ aboveComments ++ wholeComments.flatten ++ belowComments, '\n' ∉ line) ∧
      (∀ lines ∈ wholeComments, PlainComment lines) ∧
      (Reader.readLines {} 1 aboveComments).1.OutsideComments belowComments ∧
      let kept := Run.extractUnits .empty [.ofLines "Panel.h".toList (aboveComments ++ belowComments)]
      let longer := Run.extractUnits .empty
        [.ofLines "Panel.h".toList (aboveComments ++ wholeComments.flatten ++ belowComments)]
      longer.1.classes = kept.1.classes ∧
        ∃ above below rest, kept.1.diagnostics = above ++ below ++ rest ∧
          longer.1.diagnostics = above ++ below.map (Diagnostic.pushed 3 4) ++ rest := by
  have free : ∀ line ∈ aboveComments ++ wholeComments.flatten ++ belowComments, '\n' ∉ line := by
    decide +kernel
  have closed : (Reader.readLines {} 1 aboveComments).1.comment = none := by decide +kernel
  have outside : (Reader.readLines {} 1 aboveComments).1.OutsideComments belowComments :=
    ⟨by simp [closed], by simp [closed]⟩
  exact ⟨free, plain_wholeComments, outside, Run.extractUnits_transparent .empty "Panel.h".toList
    aboveComments belowComments wholeComments [] free plain_wholeComments outside⟩

-- A run of `///` lines is cut in two by a comment, and only the last part of it is documentation.
example :
    let docs (lines : List Text) :=
      (Run.extractUnits .empty [.ofLines "Panel.h".toList
        (lines ++ ["@interface Panel : NSObject".toList, "@end".toList])]).1.classes.map (·.doc)
    docs ["/// Moves".toList, "/// it.".toList] = ["Moves it.".toList] ∧
      docs ["/// Moves".toList, "// now".toList, "/// it.".toList] = ["it.".toList] := by
  decide +kernel

end HeaderBindings
