import HeaderBindings.Proofs.Header.Reading

/-!
What the reader of a header sees: documentation, marks of regions in which null is ruled out, and
numbered lines of code. What is seen depends on the lines and on the comment that is open above them,
never on the region; reading lines is taking in their sights one after another.
-/

namespace HeaderBindings

inductive Sight where
  | doc (doc : DocComment)
  | nonnull (assumed : Bool)
  | code (number : Nat) (line : Text)
  deriving DecidableEq, Repr

namespace Sight

/-- The sight with the number of its line changed. -/
def renumber (change : Nat → Nat) : Sight → Sight
  | .code number line => .code (change number) line
  | sight => sight

def number? : Sight → Option Nat
  | .code number _ => some number
  | _ => none

end Sight

/-- One look at a trimmed line: what it sets, the comment that it leaves open, and what is left of
it. -/
structure Look where
  doc : Option DocComment
  nonnull : Option Bool
  comment : Option OpenComment
  remainder : Remainder

namespace Reader

variable (reader : Reader)

/-- The reader in another comment. -/
def inComment (comment : Option OpenComment) : Reader := { reader with comment := comment }

def after (look : Look) : Reader :=
  { reader with
    assumeNonnull := look.nonnull.getD reader.assumeNonnull
    doc := look.doc.or reader.doc
    comment := look.comment }

def see : Sight → Reader × List Note
  | .doc doc => ({ reader with doc := some doc }, [])
  | .nonnull assumed => ({ reader with assumeNonnull := assumed }, [])
  | .code number line => reader.codeLine number line

def seeAll (reader : Reader) : List Sight → Reader × List Note
  | [] => (reader, [])
  | sight :: sights =>
    let first := reader.see sight
    let later := first.1.seeAll sights
    (later.1, first.2 ++ later.2)

end Reader

namespace Look

/-- What a look sets shows on a reader without documentation, and on two readers with the two answers
to whether null is ruled out. -/
def of (comment : Option OpenComment) (line : Text) : Look :=
  let seen := Reader.peel { comment := comment } line
  let ruled := Reader.peel { comment := comment, assumeNonnull := true } line
  { doc := seen.1.doc
    nonnull :=
      if seen.1.assumeNonnull = ruled.1.assumeNonnull then some seen.1.assumeNonnull else none
    comment := seen.1.comment
    remainder := seen.2 }

/-- What a look sets, as sights. -/
def marks (look : Look) : List Sight := look.doc.toList.map .doc ++ look.nonnull.toList.map .nonnull

theorem length_of (comment : Option OpenComment) (line rest : Text)
    (again : (of comment line).remainder = .again rest) : rest.length < line.length :=
  Reader.length_peel { comment := comment } _ line rest (Prod.ext rfl again)

end Look

/-- The sights of a line below an open comment, and the comment that the line leaves open. What
follows a comment on the line is looked at again. -/
def sightsOfLine (comment : Option OpenComment) (number : Nat) (raw : Text) :
    List Sight × Option OpenComment :=
  let look := Look.of comment raw.trim
  match _left : look.remainder with
  | .nothing => (look.marks, look.comment)
  | .code line => (look.marks ++ [.code number line], look.comment)
  | .again rest =>
    let later := sightsOfLine look.comment number rest
    (look.marks ++ later.1, later.2)
termination_by raw.length
decreasing_by
  have shorter := Look.length_of _ _ _ _left
  have := Text.length_trim raw
  omega

def sightsOf (comment : Option OpenComment) (number : Nat) :
    List Text → List Sight × Option OpenComment
  | [] => ([], comment)
  | line :: lines =>
    let first := sightsOfLine comment number line
    let later := sightsOf first.2 (number + 1) lines
    (first.1 ++ later.1, later.2)

/-! ## What is seen of some lines -/

theorem sightsOf_append (comment : Option OpenComment) (number : Nat) (first later : List Text) :
    sightsOf comment number (first ++ later) =
      let seen := sightsOf comment number first
      let next := sightsOf seen.2 (number + first.length) later
      (seen.1 ++ next.1, next.2) := by
  induction first generalizing comment number with
  | nil => simp [sightsOf]
  | cons line first ih => simp [sightsOf, ih, Nat.add_assoc, Nat.add_comm 1]

theorem Look.marks_renumber (look : Look) (change : Nat → Nat) :
    look.marks.map (Sight.renumber change) = look.marks := by
  simp [Look.marks, Sight.renumber, Function.comp_def]

theorem Look.number_of_marks (look : Look) (sight : Sight) (mark : sight ∈ look.marks) :
    sight.number? = none := by
  simp only [marks, List.mem_append, List.mem_map] at mark
  rcases mark with ⟨doc, _, rfl⟩ | ⟨assumed, _, rfl⟩ <;> rfl

theorem sightsOfLine_eq (comment : Option OpenComment) (number : Nat) (raw : Text) :
    sightsOfLine comment number raw =
      let look := Look.of comment raw.trim
      match look.remainder with
      | .nothing => (look.marks, look.comment)
      | .code line => (look.marks ++ [.code number line], look.comment)
      | .again rest =>
        let later := sightsOfLine look.comment number rest
        (look.marks ++ later.1, later.2) := by
  rw [sightsOfLine]
  split <;> simp [*]

theorem sightsOfLine_renumber (change : Nat → Nat) (comment : Option OpenComment) (number : Nat)
    (raw : Text) :
    sightsOfLine comment (change number) raw =
      ((sightsOfLine comment number raw).1.map (Sight.renumber change),
        (sightsOfLine comment number raw).2) := by
  fun_induction sightsOfLine comment number raw with
  | case1 comment raw look left =>
    rw [sightsOfLine_eq]
    simp [look, left, Look.marks_renumber]
  | case2 comment raw look line left =>
    rw [sightsOfLine_eq]
    simp [look, left, Look.marks_renumber, Sight.renumber]
  | case3 comment raw look rest left later ih =>
    rw [sightsOfLine_eq]
    simp [look, left, Look.marks_renumber, ih, later]

theorem sightsOf_shift (shift : Nat) (comment : Option OpenComment) (number : Nat)
    (lines : List Text) :
    sightsOf comment (number + shift) lines =
      ((sightsOf comment number lines).1.map (Sight.renumber (· + shift)),
        (sightsOf comment number lines).2) := by
  induction lines generalizing comment number with
  | nil => rfl
  | cons line lines ih =>
    have first := sightsOfLine_renumber (· + shift) comment number line
    simp only [sightsOf, first, Nat.add_right_comm number shift 1, ih, List.map_append]

theorem number_of_sightsOfLine (comment : Option OpenComment) (number : Nat) (raw : Text)
    (sight : Sight) (seen : sight ∈ (sightsOfLine comment number raw).1) :
    ∀ own ∈ sight.number?, own = number := by
  have marks {look : Look} (mark : sight ∈ look.marks) : ∀ own ∈ sight.number?, own = number := by
    rw [look.number_of_marks sight mark]
    exact fun _ none => nomatch none
  fun_induction sightsOfLine comment number raw with
  | case1 comment raw look left => exact marks seen
  | case2 comment raw look text left =>
    rcases List.mem_append.mp seen with mark | code
    · exact marks mark
    · rw [List.mem_singleton.mp code]
      rintro _ ⟨⟩
      rfl
  | case3 comment raw look rest left later ih =>
    rcases List.mem_append.mp seen with mark | below
    · exact marks mark
    · exact ih below

theorem number_of_sightsOf (comment : Option OpenComment) (number : Nat) (lines : List Text)
    (sight : Sight) (seen : sight ∈ (sightsOf comment number lines).1) :
    ∀ own ∈ sight.number?, number ≤ own ∧ own < number + lines.length := by
  induction lines generalizing comment number with
  | nil => cases seen
  | cons line lines ih =>
    intro own code
    rw [List.length_cons]
    rcases List.mem_append.mp seen with first | later
    · have := number_of_sightsOfLine comment number line sight first own code
      omega
    · have := ih _ (number + 1) later own code
      omega

namespace Reader

variable (reader : Reader)

/-! ## A look does the same to every reader in the same comment -/

-- A comment that ends may leave documentation, and nothing else.
theorem closeComment_eq (comment : OpenComment) :
    ∃ doc, ∀ other : Reader, other.closeComment comment =
      { other with comment := none, doc := Option.or doc other.doc } := by
  refine ⟨if comment.isDoc then some (DocComment.parse comment.text) else none, fun other => ?_⟩
  unfold closeComment
  split <;> rfl

theorem uncommented_eq (line : Text) (comment : Option OpenComment) :
    ∃ look : Look, ∀ other : Reader, other.comment = comment →
      other.uncommented line = (other.after look, look.remainder) := by
  -- A line that sets nothing but the mark leaves the rest as it is.
  have plain (ruled : Option Bool) (remainder : Remainder) (other : Reader)
      (same : other.comment = comment) :
      ({ other with assumeNonnull := ruled.getD other.assumeNonnull } : Reader) =
        other.after ⟨none, ruled, comment, remainder⟩ := by
    rw [← same]
    rfl
  unfold uncommented
  split
  · exact ⟨⟨none, some true, comment, .nothing⟩, fun other same =>
      Prod.ext (plain (some true) .nothing other same) rfl⟩
  split
  · exact ⟨⟨none, some false, comment, .nothing⟩, fun other same =>
      Prod.ext (plain (some false) .nothing other same) rfl⟩
  split
  · exact ⟨⟨none, none, comment, .nothing⟩, fun other same =>
      Prod.ext (plain none .nothing other same) rfl⟩
  · exact ⟨⟨none, none, comment, .nothing⟩, fun other same =>
      Prod.ext (plain none .nothing other same) rfl⟩
  · exact ⟨⟨none, none, some _, .nothing⟩, fun other same => rfl⟩
  · exact ⟨⟨none, none, comment, .nothing⟩, fun other same =>
      Prod.ext (plain none .nothing other same) rfl⟩
  · dsimp only
    split
    · next body rest found =>
      obtain ⟨doc, closes⟩ := closeComment_eq ⟨'/' :: '*' :: body ++ ['*', '/'], false, _⟩
      refine ⟨⟨doc, none, none, .again rest⟩, fun other same => ?_⟩
      rw [closes other]
      rfl
    · exact ⟨⟨none, none, some _, .nothing⟩, fun other same => rfl⟩
  · exact ⟨⟨none, none, comment, .code line⟩, fun other same =>
      Prod.ext (plain none (.code line) other same) rfl⟩

theorem exists_look (line : Text) (comment : Option OpenComment) :
    ∃ look : Look, ∀ other : Reader, other.comment = comment →
      other.peel line = (other.after look, look.remainder) := by
  cases comment with
  | none =>
    obtain ⟨look, does⟩ := uncommented_eq line none
    refine ⟨look, fun other same => ?_⟩
    rw [other.peel_of_none line same]
    exact does other same
  | some comment =>
    obtain ⟨doc, closes⟩ := closeComment_eq comment
    obtain ⟨look, does⟩ := uncommented_eq line none
    by_cases slashes : comment.ofSlashes = true
    · by_cases more : ∃ body, line = '/' :: '/' :: '/' :: body
      · obtain ⟨body, rfl⟩ := more
        refine ⟨⟨none, none, some (comment.addLine body), .nothing⟩, fun other same => ?_⟩
        simp only [peel, same, slashes, if_true]
        rfl
      · refine ⟨{ look with doc := look.doc.or doc }, fun other same => ?_⟩
        have closed := does (other.closeComment comment) (by simp [closeComment])
        simp only [peel, same, slashes, if_true]
        split
        · next body => exact absurd ⟨body, rfl⟩ more
        · rw [closed, closes other]
          simp [after, Option.or_assoc]
    · cases found : Text.cutAt? ['*', '/'] line with
      | none =>
        refine ⟨⟨none, none, some (comment.addLine line), .nothing⟩, fun other same => ?_⟩
        simp only [peel, same, slashes, found]
        rfl
      | some cut =>
        obtain ⟨body, rest⟩ := cut
        obtain ⟨doc, closes⟩ := closeComment_eq (comment.addLine (body ++ ['*', '/']))
        refine ⟨⟨doc, none, none, .again rest⟩, fun other same => ?_⟩
        simp only [peel, same, slashes, found, closes other]
        rfl

end Reader

theorem Look.of_eq {comment : Option OpenComment} {line : Text} {look : Look}
    (does : ∀ other : Reader, other.comment = comment →
      other.peel line = (other.after look, look.remainder)) : of comment line = look := by
  have seen := does { comment := comment } rfl
  have ruled := does { comment := comment, assumeNonnull := true } rfl
  obtain ⟨doc, nonnull, opened, remainder⟩ := look
  rw [of, seen, ruled]
  cases nonnull <;> simp [Reader.after]

namespace Reader

variable (reader : Reader)

theorem peel_eq (line : Text) :
    reader.peel line =
      (reader.after (Look.of reader.comment line), (Look.of reader.comment line).remainder) := by
  obtain ⟨look, does⟩ := exists_look line reader.comment
  rw [Look.of_eq does]
  exact does reader rfl

/-! ## Reading lines is taking in their sights -/

theorem seeAll_append (first later : List Sight) :
    reader.seeAll (first ++ later) =
      let seen := reader.seeAll first
      let next := seen.1.seeAll later
      (next.1, seen.2 ++ next.2) := by
  induction first generalizing reader with
  | nil => simp [seeAll]
  | cons sight first ih => simp [seeAll, ih]

-- Code is read in the same way whatever comment was above it.
theorem codeLine_inComment (comment : Option OpenComment) (number : Nat) (line : Text) :
    (reader.inComment comment).codeLine number line =
      ((reader.codeLine number line).1.inComment comment, (reader.codeLine number line).2) := by
  have fresh (current : OpenClass) :
      (reader.inComment comment).freshLine current number line =
        ((reader.freshLine current number line).1.inComment comment,
          (reader.freshLine current number line).2) := by
    unfold freshLine
    repeat' split
    all_goals rfl
  have region : (reader.inComment comment).region = reader.region := rfl
  simp only [codeLine, region]
  split
  · simp only [outsideLine, openClass]
    repeat' split
    all_goals rfl
  · next current inside =>
    unfold classLine
    split
    · rfl
    split
    · split
      · rfl
      · exact fresh _
    · simp only [memberLine, fresh]
      split <;> rfl
    · exact fresh _
  · split <;> rfl

theorem see_inComment (comment : Option OpenComment) (sight : Sight) :
    (reader.inComment comment).see sight =
      ((reader.see sight).1.inComment comment, (reader.see sight).2) := by
  cases sight with
  | doc doc => rfl
  | nonnull assumed => rfl
  | code number line => exact reader.codeLine_inComment comment number line

theorem seeAll_inComment (comment : Option OpenComment) (sights : List Sight) :
    (reader.inComment comment).seeAll sights =
      ((reader.seeAll sights).1.inComment comment, (reader.seeAll sights).2) := by
  induction sights generalizing reader with
  | nil => rfl
  | cons sight sights ih => simp only [seeAll, see_inComment, ih]

theorem after_eq (look : Look) :
    reader.after look = (reader.seeAll look.marks).1.inComment look.comment ∧
      (reader.seeAll look.marks).2 = [] := by
  obtain ⟨doc, nonnull, comment, remainder⟩ := look
  cases doc <;> cases nonnull <;> exact ⟨rfl, rfl⟩

theorem readLine_eq (number : Nat) (raw : Text) :
    reader.readLine number raw =
      let sights := sightsOfLine reader.comment number raw
      ((reader.seeAll sights.1).1.inComment sights.2, (reader.seeAll sights.1).2) := by
  induction shorter : raw.length using Nat.strongRecOn generalizing raw reader with
  | ind length ih =>
    have peeled := reader.peel_eq raw.trim
    obtain ⟨marked, quiet⟩ := reader.after_eq (Look.of reader.comment raw.trim)
    rw [readLine, sightsOfLine, peeled]
    generalize looked : Look.of reader.comment raw.trim = look at marked quiet
    cases left : look.remainder with
    | nothing => simp [marked, quiet]
    | code line =>
      simp only [marked, codeLine_inComment, seeAll_append, quiet, seeAll, see, List.nil_append,
        List.append_nil]
    | again rest =>
      have fewer : rest.length < length := by
        have := Look.length_of _ _ _ (looked ▸ left)
        have := Text.length_trim raw
        omega
      have later := ih rest.length fewer (reader.after look) rest rfl
      have below : (reader.after look).comment = look.comment := rfl
      dsimp only at later ⊢
      rw [later, below, marked, seeAll_inComment, seeAll_append]
      simp [quiet, inComment]

theorem readLines_eq (number : Nat) (lines : List Text) :
    reader.readLines number lines =
      let sights := sightsOf reader.comment number lines
      ((reader.seeAll sights.1).1.inComment sights.2, (reader.seeAll sights.1).2) := by
  induction lines generalizing reader number with
  | nil => rfl
  | cons line lines ih =>
    have below (other : Reader) (comment : Option OpenComment) :
        (other.inComment comment).comment = comment := rfl
    simp only [readLines, sightsOf, readLine_eq, ih, below, seeAll_inComment, seeAll_append]
    rfl

theorem finish_inComment (comment : Option OpenComment) :
    (reader.inComment comment).finish = reader.finish := rfl

end Reader

/-- The notes on a header are those on its sights. -/
theorem notesOf_sights (content : Text) :
    notesOf content =
      let seen := Reader.seeAll {} (sightsOf none 1 content.pieces).1
      seen.2 ++ seen.1.finish := by
  rw [notesOf_pieces, Reader.readLines_eq]
  rfl

end HeaderBindings
