import HeaderBindings.Declaration.Method
import HeaderBindings.Declaration.Property
import HeaderBindings.Declaration.ClassHeader
import HeaderBindings.Declaration.Comment

/-!
The state between two lines of a header. A comment that is open interrupts a region and leaves it
as it is. Only a region inside a class holds a class, and there at most one thing is pending: the
header, while a wrapped protocol list may follow, or a member that has not ended.
-/

namespace HeaderBindings

/-- A member whose lines are being joined, with the number of its first line and the comment
written for it. -/
structure PendingMember where
  text : Text
  line : Nat
  doc : DocComment
  deriving DecidableEq, Repr

inductive Pending where
  | nothing
  | header (text : Text)
  | member (member : PendingMember)
  deriving DecidableEq, Repr

structure OpenClass where
  decl : ClassDecl
  line : Nat
  pending : Pending := .nothing
  braceDepth : Int := 0
  deriving DecidableEq, Repr

/-- Where code is: between declarations, in a block that is skipped up to its end, or in a
class. -/
inductive Region where
  | outside
  | skipping
  | inClass (current : OpenClass)
  deriving DecidableEq, Repr

/-- A comment that is being read. A run of `///` lines ends at the first line without the slashes,
any other comment at its closing mark; only documentation is kept. -/
structure OpenComment where
  text : Text
  ofSlashes : Bool
  isDoc : Bool
  deriving DecidableEq, Repr

structure Reader where
  assumeNonnull : Bool := false
  comment : Option OpenComment := none
  doc : Option DocComment := none
  availability : Option Text := none
  region : Region := .outside
  deriving DecidableEq, Repr

namespace OpenComment

def addLine (comment : OpenComment) (line : Text) : OpenComment :=
  { comment with text := comment.text ++ '\n' :: line }

end OpenComment

/-- What a line is after one look at comments: dealt with, code, or something to read again. -/
inductive Remainder where
  | nothing
  | code (line : Text)
  | again (text : Text)
  deriving DecidableEq, Repr

namespace Reader

def closeComment (reader : Reader) (comment : OpenComment) : Reader :=
  { reader with
    comment := none
    doc := if comment.isDoc then some (DocComment.parse comment.text) else reader.doc }

/-- A trimmed line outside comments. Line comments and preprocessor lines are transparent. -/
def uncommented (reader : Reader) (line : Text) : Reader × Remainder :=
  if line = "NS_ASSUME_NONNULL_BEGIN".toList then ({ reader with assumeNonnull := true }, .nothing)
  else if line = "NS_ASSUME_NONNULL_END".toList then
    ({ reader with assumeNonnull := false }, .nothing)
  else match line with
    | [] => (reader, .nothing)
    | '#' :: _ => (reader, .nothing)
    | '/' :: '/' :: '/' :: body => ({ reader with comment := some ⟨body, true, true⟩ }, .nothing)
    | '/' :: '/' :: _ => (reader, .nothing)
    | '/' :: '*' :: tail =>
      let isDoc := tail.head? == some '*' || tail.head? == some '!'
      match Text.cutAt? ['*', '/'] tail with
      | some (body, rest) =>
        (reader.closeComment ⟨'/' :: '*' :: body ++ ['*', '/'], false, isDoc⟩, .again rest)
      | none => ({ reader with comment := some ⟨'/' :: '*' :: tail, false, isDoc⟩ }, .nothing)
    | _ => (reader, .code line)

/-- A trimmed line inside or outside a comment. -/
def peel (reader : Reader) (line : Text) : Reader × Remainder :=
  match reader.comment with
  | none => reader.uncommented line
  | some comment =>
    if comment.ofSlashes then
      match line with
      | '/' :: '/' :: '/' :: body =>
        ({ reader with comment := some (comment.addLine body) }, .nothing)
      | _ => (reader.closeComment comment).uncommented line
    else match Text.cutAt? ['*', '/'] line with
      | none => ({ reader with comment := some (comment.addLine line) }, .nothing)
      | some (body, rest) =>
        (reader.closeComment (comment.addLine (body ++ ['*', '/'])), .again rest)

theorem length_uncommented (reader after : Reader) (line rest : Text)
    (again : reader.uncommented line = (after, .again rest)) : rest.length < line.length := by
  unfold uncommented at again
  repeat' split at again
  all_goals first | (cases again; done) | skip
  next found =>
    cases again
    have := Text.length_cutAt _ _ _ _ found
    simp
    omega

theorem length_peel (reader after : Reader) (line rest : Text)
    (again : reader.peel line = (after, .again rest)) : rest.length < line.length := by
  unfold peel at again
  repeat' split at again
  · exact length_uncommented _ _ _ _ again
  · cases again
  · exact length_uncommented _ _ _ _ again
  · cases again
  · next found =>
    cases again
    have whole := Text.eq_of_cutAt _ _ _ _ found
    subst whole
    simp
    omega

end Reader

end HeaderBindings
