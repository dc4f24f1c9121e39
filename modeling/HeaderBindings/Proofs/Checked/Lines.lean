import HeaderBindings.Header.Lines
import HeaderBindings.Proofs.Checked.Headers
import HeaderBindings.Proofs.Checked.Texts
import Mathlib.Tactic.SplitIfs

/-!
The lines of a header read by places. A comment is taken off a line at the end of its closing mark,
where a character starts; code is handed to the readers of headers, members and macros. No access in
reading a header is out of range, whatever its text is.
-/

namespace HeaderBindings

namespace Checked

section Comments

def closeComment (reader : Reader) (comment : OpenComment) : Checked Reader := do
  let doc ← if comment.isDoc then some <$> docComment comment.text else pure reader.doc
  return { reader with comment := none, doc := doc }

/-- A line that starts with the opening mark of a comment, which takes two bytes as its end does. -/
def blockComment (reader : Reader) (line : Text) (isDoc : Bool) : Checked (Reader × Remainder) := do
  let tail ← since line 2
  match find? ['*', '/'] tail with
  | some place =>
    let body ← till line (place + 4)
    let rest ← since line (place + 4)
    return (← closeComment reader ⟨body, false, isDoc⟩, .again rest)
  | none => return ({ reader with comment := some ⟨line, false, isDoc⟩ }, .nothing)

/-- A line outside comments; only a block comment is taken off it by places. -/
def uncommented (reader : Reader) (line : Text) : Checked (Reader × Remainder) :=
  match line with
  | '/' :: '*' :: tail =>
    blockComment reader ('/' :: '*' :: tail) (tail.head? == some '*' || tail.head? == some '!')
  | _ => return reader.uncommented line

def peel (reader : Reader) (line : Text) : Checked (Reader × Remainder) :=
  match reader.comment with
  | none => uncommented reader line
  | some comment =>
    if comment.ofSlashes then
      match line with
      | '/' :: '/' :: '/' :: body =>
        return ({ reader with comment := some (comment.addLine body) }, .nothing)
      | _ => do uncommented (← closeComment reader comment) line
    else match find? ['*', '/'] line with
      | none => return ({ reader with comment := some (comment.addLine line) }, .nothing)
      | some place => do
        let body ← till line (place + 2)
        let rest ← since line (place + 2)
        return (← closeComment reader (comment.addLine body), .again rest)

theorem closeComment_eq (reader : Reader) (comment : OpenComment) :
    closeComment reader comment = .ok (reader.closeComment comment) := by
  rw [closeComment, Reader.closeComment]
  split
  · rw [docComment_eq]
    rfl
  · rfl

/-- A closing mark that is found is a range of two bytes. -/
theorem till_find {line before rest : Text}
    (found : Text.cutAt? ['*', '/'] line = some (before, rest)) :
    till line (before.byteCount + 2) = .ok (before ++ ['*', '/']) ∧
      since line (before.byteCount + 2) = .ok rest := by
  have whole := Text.eq_of_cutAt _ _ _ _ found
  have two : before.byteCount + 2 = Text.byteCount (before ++ ['*', '/']) :=
    (Text.byteCount_append before ['*', '/']).symm
  rw [two, whole]
  exact ⟨till_append _ _, since_append _ _⟩

theorem blockComment_eq (reader : Reader) (tail : Text) :
    blockComment reader ('/' :: '*' :: tail) (tail.head? == some '*' || tail.head? == some '!') =
      .ok (reader.uncommented ('/' :: '*' :: tail)) := by
  have opening : since ('/' :: '*' :: tail) 2 = .ok tail := since_append ['/', '*'] tail
  unfold Reader.uncommented
  rw [if_neg (by simp), if_neg (by simp), blockComment, opening, ok_bind, find?]
  cases found : Text.cutAt? ['*', '/'] tail with
  | none =>
    simp only [found, Option.map_none]
    rfl
  | some cut =>
    obtain ⟨body, rest⟩ := cut
    have whole := Text.eq_of_cutAt _ _ _ _ found
    have four : body.byteCount + 4 = Text.byteCount ('/' :: '*' :: body ++ ['*', '/']) := by
      rw [Text.byteCount_append]
      change body.byteCount + 4 = 1 + (1 + body.byteCount) + 2
      omega
    have front : '/' :: '*' :: tail = ('/' :: '*' :: body ++ ['*', '/']) ++ rest := by simp [whole]
    simp only [found, Option.map_some]
    rw [four, front, till_append, since_append, ok_bind, ok_bind, closeComment_eq]
    rfl

theorem uncommented_eq (reader : Reader) (line : Text) :
    uncommented reader line = .ok (reader.uncommented line) := by
  unfold uncommented
  split
  · exact blockComment_eq reader _
  · rfl

theorem peel_eq (reader : Reader) (line : Text) : peel reader line = .ok (reader.peel line) := by
  unfold peel
  fun_cases Reader.peel reader line with
  | case1 line outside =>
    rw [outside]
    exact uncommented_eq reader line
  | case2 comment inside slashes body =>
    rw [inside]
    dsimp only
    rw [if_pos slashes]
    rfl
  | case3 line comment inside slashes other =>
    rw [inside]
    dsimp only
    rw [if_pos slashes]
    split
    · next body => exact absurd rfl (other body)
    · rw [closeComment_eq, ok_bind]
      exact uncommented_eq _ _
  | case4 line comment inside block absent =>
    rw [inside]
    dsimp only
    rw [if_neg block, find?, absent]
    rfl
  | case5 line comment inside block body rest found =>
    rw [inside]
    dsimp only
    rw [if_neg block, find?, found, Option.map_some]
    simp only [(till_find found).1, (till_find found).2, ok_bind, closeComment_eq]
    rfl

end Comments

section Code

def addMember (current : OpenClass) (assumeNonnull : Bool) (member : PendingMember) :
    Checked (OpenClass × List Note) := do
  let current := { current with pending := .nothing }
  if Text.startsWith "@property".toList member.text then
    match ← Property.parse assumeNonnull member.text with
    | .ok property =>
      return ({ current with decl := current.decl.addProperty (property.withDoc member.doc) }, [])
    | .error error => return (current, [.rejected member.line error.message])
  else
    match ← Method.parse member.text with
    | .ok method =>
      return ({ current with decl := current.decl.addMethod (method.withDoc member.doc) }, [])
    | .error error => return (current, [.rejected member.line error.message])

def holdMember (current : OpenClass) (assumeNonnull : Bool) (member : PendingMember) (line : Text) :
    Checked (OpenClass × List Note) :=
  if line.contains ';' then addMember current assumeNonnull member
  else return ({ current with pending := .member member }, [])

def continueHeader (current : OpenClass) (header : Text) (number : Nat) (line : Text) :
    Checked (OpenClass × List Note) := do
  let joined := header ++ ' ' :: line
  let current := { current with braceDepth := OpenClass.braceBalance line }
  match ← ClassHeader.parse joined with
  | .ok parsed =>
    let decl := current.decl.conform parsed.protocols
    return ({ current with
        decl := { decl with availability := decl.availability.or parsed.availability }
        pending := .header joined }, [])
  | .error error => return ({ current with pending := .nothing }, [.rejected number error.message])

def openClass (reader : Reader) (number : Nat) (line : Text) : Checked (Reader × List Note) := do
  let reader' := { reader with doc := none, availability := none }
  match ← ClassHeader.parse line with
  | .error error => return ({ reader' with region := .skipping }, [.rejected number error.message])
  | .ok header =>
    let doc := (reader.doc.map (·.description)).getD []
    return reader'.inside (.ofHeader header reader.availability doc number line,
      [.entered header.name (header.category.getD []) number])

def firstDirective? (line : Text) : Checked (Option Text) := do
  return (← lex line).findSome? fun token => match token with
    | .directive name => some name
    | _ => none

def outsideLine (reader : Reader) (number : Nat) (line : Text) : Checked (Reader × List Note) := do
  let directive ← firstDirective? line
  if directive = some "@interface".toList then openClass reader number line
  else if directive = some "@protocol".toList && line.getLast? != some ';' then
    return ({ reader with region := .skipping }, [.skippedProtocol number])
  else if directive = some "@implementation".toList then
    return ({ reader with region := .skipping }, [])
  else match ← macroOnly? line with
    | some availability =>
      return ({ reader with availability := availability.or reader.availability }, [])
    | none => return ({ reader with doc := none, availability := none }, [])

def freshLine (reader : Reader) (current : OpenClass) (number : Nat) (line : Text) :
    Checked (Reader × List Note) := do
  if Reader.startsEnd line then
    return ({ reader with doc := none, region := .outside },
      [.closing current.decl, .declared current.decl])
  else if Reader.startsMember line then
    let member := { text := line, line := number, doc := reader.doc.getD {} }
    return { reader with doc := none }.inside
      (← holdMember current reader.assumeNonnull member line)
  else if line.head? = some '{' then
    return reader.inside ({ current with braceDepth := OpenClass.braceBalance line }, [])
  else if line = "@optional".toList || line = "@required".toList then
    return reader.inside (current, [])
  else if (← macroOnly? line).isSome then return reader.inside (current, [])
  else return { reader with doc := none }.inside (current, [])

def memberLine (reader : Reader) (current : OpenClass) (member : PendingMember) (number : Nat)
    (line : Text) : Checked (Reader × List Note) := do
  if Reader.startsMember line || Reader.startsEnd line then
    let flushed ← addMember current reader.assumeNonnull member
    let next ← freshLine reader flushed.1 number line
    return (next.1, flushed.2 ++ next.2)
  else
    let member := { member with text := member.text ++ ' ' :: line }
    return reader.inside (← holdMember current reader.assumeNonnull member line)

def classLine (reader : Reader) (current : OpenClass) (number : Nat) (line : Text) :
    Checked (Reader × List Note) :=
  if current.braceDepth > 0 then
    return reader.inside
      ({ current with braceDepth := current.braceDepth + OpenClass.braceBalance line }, [])
  else match current.pending with
    | .header header => do
      if line.head? = some '<' then
        return reader.inside (← continueHeader current header number line)
      else freshLine reader { current with pending := .nothing } number line
    | .member member => memberLine reader current member number line
    | .nothing => freshLine reader current number line

def codeLine (reader : Reader) (number : Nat) (line : Text) : Checked (Reader × List Note) :=
  match reader.region with
  | .outside => outsideLine reader number line
  | .inClass current => classLine reader current number line
  | .skipping =>
    if Reader.startsEnd line then return ({ reader with region := .outside }, [])
    else return (reader, [])

theorem addMember_eq (current : OpenClass) (assumeNonnull : Bool) (member : PendingMember) :
    addMember current assumeNonnull member = .ok (current.addMember assumeNonnull member) := by
  rw [addMember, OpenClass.addMember, Property.parse_eq, Method.parse_eq]
  simp only [ok_bind]
  split_ifs
  · cases HeaderBindings.Property.parse assumeNonnull member.text <;> rfl
  · cases HeaderBindings.Method.parse member.text <;> rfl

theorem holdMember_eq (current : OpenClass) (assumeNonnull : Bool) (member : PendingMember)
    (line : Text) :
    holdMember current assumeNonnull member line =
      .ok (current.holdMember assumeNonnull member line) := by
  rw [holdMember, OpenClass.holdMember, addMember_eq]
  split_ifs <;> rfl

theorem continueHeader_eq (current : OpenClass) (header : Text) (number : Nat) (line : Text) :
    continueHeader current header number line = .ok (current.continueHeader header number line) := by
  rw [continueHeader, OpenClass.continueHeader, ClassHeader.parse_eq, ok_bind]
  cases HeaderBindings.ClassHeader.parse (header ++ ' ' :: line) <;> rfl

theorem openClass_eq (reader : Reader) (number : Nat) (line : Text) :
    openClass reader number line = .ok (reader.openClass number line) := by
  rw [openClass, Reader.openClass, ClassHeader.parse_eq, ok_bind]
  cases HeaderBindings.ClassHeader.parse line <;> rfl

theorem firstDirective_eq (line : Text) :
    firstDirective? line = .ok (Reader.firstDirective? line) := by
  rw [firstDirective?, lex_eq]
  rfl

theorem outsideLine_eq (reader : Reader) (number : Nat) (line : Text) :
    outsideLine reader number line = .ok (reader.outsideLine number line) := by
  rw [outsideLine, Reader.outsideLine, firstDirective_eq, openClass_eq, macroOnly_eq]
  simp only [ok_bind]
  split_ifs
  · rfl
  · rfl
  · rfl
  · cases HeaderBindings.macroOnly? line <;> rfl

theorem freshLine_eq (reader : Reader) (current : OpenClass) (number : Nat) (line : Text) :
    freshLine reader current number line = .ok (reader.freshLine current number line) := by
  rw [freshLine, Reader.freshLine, macroOnly_eq]
  simp only [holdMember_eq, ok_bind]
  by_cases keyword : (decide (line = "@optional".toList) || decide (line = "@required".toList)) = true
  · simp only [keyword, Bool.true_or, if_true]
    split_ifs <;> rfl
  · rw [Bool.not_eq_true] at keyword
    simp only [keyword, Bool.false_or, Bool.false_eq_true, if_false]
    split_ifs <;> rfl

theorem memberLine_eq (reader : Reader) (current : OpenClass) (member : PendingMember) (number : Nat)
    (line : Text) :
    memberLine reader current member number line =
      .ok (reader.memberLine current member number line) := by
  rw [memberLine, Reader.memberLine]
  simp only [addMember_eq, holdMember_eq, freshLine_eq, ok_bind]
  split_ifs <;> rfl

theorem classLine_eq (reader : Reader) (current : OpenClass) (number : Nat) (line : Text) :
    classLine reader current number line = .ok (reader.classLine current number line) := by
  rw [classLine, Reader.classLine]
  simp only [continueHeader_eq, freshLine_eq, memberLine_eq, ok_bind]
  cases current.pending with
  | nothing => split_ifs <;> rfl
  | header header => split_ifs <;> rfl
  | member member => split_ifs <;> rfl

theorem codeLine_eq (reader : Reader) (number : Nat) (line : Text) :
    codeLine reader number line = .ok (reader.codeLine number line) := by
  rw [codeLine, Reader.codeLine]
  cases reader.region with
  | outside => exact outsideLine_eq reader number line
  | skipping =>
    dsimp only
    split_ifs <;> rfl
  | inClass current => exact classLine_eq reader current number line

end Code

/-- One line of a header, in at most so many rounds. -/
def readLine : Nat → Reader → Nat → Text → Checked (Reader × List Note)
  | 0, _, _, _ => .error .endless
  | rounds + 1, reader, number, raw => do
    match ← peel reader (Text.trim raw) with
    | (reader, .nothing) => return (reader, [])
    | (reader, .code line) => codeLine reader number line
    | (reader, .again rest) => readLine rounds reader number rest

def readLines (reader : Reader) (number : Nat) : List Text → Checked (Reader × List Note)
  | [] => return (reader, [])
  | line :: lines => do
    let first ← readLine (line.length + 1) reader number line
    let later ← readLines first.1 (number + 1) lines
    return (later.1, first.2 ++ later.2)

def finish (reader : Reader) : Checked (List Note) :=
  match reader.region with
  | .inClass current => do
    let flushed ← match current.pending with
      | .member member => addMember current reader.assumeNonnull member
      | _ => pure (current, [])
    return flushed.2 ++ [.declared flushed.1.decl, .unclosed flushed.1.decl current.line]
  | _ => return []

def notes (content : Text) : Checked (List Note) := do
  let read ← readLines {} 1 content.lines
  return read.2 ++ (← finish read.1)

theorem readLine_eq (rounds : Nat) (reader : Reader) (number : Nat) (raw : Text)
    (enough : raw.length < rounds) :
    readLine rounds reader number raw = .ok (reader.readLine number raw) := by
  induction rounds generalizing reader raw with
  | zero => omega
  | succ rounds ih =>
    have trimmed := Text.length_trim raw
    rw [readLine, peel_eq, ok_bind]
    rcases peeled : reader.peel (Text.trim raw) with ⟨after, _ | line | rest⟩
    · rw [Reader.readLine, peeled]
      rfl
    · rw [Reader.readLine, peeled]
      exact codeLine_eq after number line
    · have shorter := Reader.length_peel _ _ _ _ peeled
      rw [Reader.readLine, peeled]
      exact ih after rest (by omega)

theorem readLines_eq (reader : Reader) (number : Nat) (lines : List Text) :
    readLines reader number lines = .ok (reader.readLines number lines) := by
  induction lines generalizing reader number with
  | nil => rfl
  | cons line lines ih =>
    rw [readLines, readLine_eq _ _ _ _ (Nat.lt_succ_self _), ok_bind, ih, ok_bind]
    rfl

theorem finish_eq (reader : Reader) : finish reader = .ok reader.finish := by
  rw [finish, Reader.finish]
  cases reader.region with
  | outside => rfl
  | skipping => rfl
  | inClass current =>
    dsimp only
    cases current.pending with
    | nothing => rfl
    | header header => rfl
    | member member =>
      dsimp only
      rw [addMember_eq]
      rfl

theorem notes_eq (content : Text) : notes content = .ok (notesOf content) := by
  rw [notes, readLines_eq, ok_bind, finish_eq]
  rfl

/-- No reader goes out of range: read by places, with every access checked, every text is read as it
is read without them, and so nothing is trapped. -/
theorem readers_in_range :
    (∀ declaration, Method.parse declaration = .ok (HeaderBindings.Method.parse declaration)) ∧
    (∀ assumeNonnull declaration, Property.parse assumeNonnull declaration =
      .ok (HeaderBindings.Property.parse assumeNonnull declaration)) ∧
    (∀ line, ClassHeader.parse line = .ok (HeaderBindings.ClassHeader.parse line)) ∧
    (∀ line, macroOnly? line = .ok (HeaderBindings.macroOnly? line)) ∧
    (∀ reader number raw, readLine (raw.length + 1) reader number raw =
      .ok (reader.readLine number raw)) ∧
    (∀ content, notes content = .ok (notesOf content)) ∧
    (∀ block, docComment block = .ok (DocComment.parse block)) ∧
    (∀ native, ofNative (native.length + 1) native = .ok (ScriptType.ofNative native)) :=
  ⟨Method.parse_eq, Property.parse_eq, ClassHeader.parse_eq, macroOnly_eq,
    fun reader number raw => readLine_eq _ reader number raw (Nat.lt_succ_self _), notes_eq,
    docComment_eq, fun native => ofNative_eq _ native (Nat.lt_succ_self _)⟩

end Checked

end HeaderBindings
