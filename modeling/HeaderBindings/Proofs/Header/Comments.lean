import HeaderBindings.Proofs.Header.Twins
import HeaderBindings.Proofs.Text.Fronts
import HeaderBindings.Proofs.Header.Refinement
import HeaderBindings.Proofs.Text.Lines

/-!
Comments that share a line with code. The reader of a header takes comments off the front of a line
only, and tests the characters of the rest, comments and all; where these tests come out as they do
without the comments, and no comment runs on behind code, a header is read as if white space stood in
the place of its comments.
-/

namespace HeaderBindings

open Token (Settles)

namespace Reader

/-- What is true of a line of code. -/
theorem isCode_iff (line : Text) : isCode line = true ↔
    line ≠ [] ∧ line.head? ≠ some '#' ∧ ¬ ['/', '/'] <+: line ∧ ¬ ['/', '*'] <+: line ∧
      line ∉ nonnullMarks := by
  simp only [isCode, Bool.and_eq_true, Bool.not_eq_true', ← Bool.not_eq_true, List.isEmpty_iff,
    bne_iff_ne, Text.startsWith_iff, List.contains_eq_mem, decide_eq_true_eq, and_assoc, ne_eq]

/-- The comments on a line of code make no difference to the reader: none of them runs on behind it,
they leave no white space at its end that is none between tokens, and what is left passes for the
line where the reader tests its characters. -/
structure OverlooksComments (reader : Reader) (line : Text) : Prop where
  ends : line.opened? = none
  edges : line.bare.SkippedEdges
  marks : line.stripped ∉ nonnullMarks
  region : reader.region.Overlooks line line.stripped

instance (reader : Reader) (line : Text) : Decidable (reader.OverlooksComments line) :=
  decidable_of_iff
    (line.opened? = none ∧ line.bare.SkippedEdges ∧ line.stripped ∉ nonnullMarks ∧
      reader.region.Overlooks line line.stripped)
    ⟨fun ⟨ends, edges, marks, region⟩ => ⟨ends, edges, marks, region⟩,
      fun tests => ⟨tests.ends, tests.edges, tests.marks, tests.region⟩⟩

/-- A line of code has a twin without comments. -/
theorem twin_stripped (line : Text) (code : isCode line = true) (trimmed : line.trim = line)
    (feed : '\n' ∉ line) (ends : line.opened? = none)
    (edges : line.bare.SkippedEdges) : Twin line line.stripped := by
  obtain ⟨written, _, slashes, block, _⟩ := (isCode_iff line).mp code
  have visible : ∀ c ∈ line.head?, isBlank c = false := trimmed ▸ Text.head_trim line
  obtain ⟨whole, _⟩ := Text.bare_stripped written slashes block visible
  have bareFeed : '\n' ∉ line.bare := fun member =>
    (Text.mem_bareAs true true line '\n' member).elim feed (by decide)
  have gaps : ∀ c ∈ ((line.bare).reverse.takeWhile isBlank).reverse, Token.isGap c = true :=
    fun c member => edges c (List.mem_append_right _ (List.mem_reverse.mp member))
  have spaces : ∀ c ∈ ((line.bare).reverse.takeWhile isBlank).reverse, isBlank c = true :=
    fun c member => List.mem_takeWhile_imp (List.mem_reverse.mp member)
  generalize ((line.bare).reverse.takeWhile isBlank).reverse = trail at whole gaps spaces
  have joinedFeed : '\n' ∉ line.stripped ++ trail := whole ▸ bareFeed
  refine ⟨?_, fun plain => ?_, fun settles => ?_, fun word known => ?_, feed, ?_⟩
  · rw [← Token.lex_append_gap trail joinedFeed gaps, ← whole, Token.lex_bare line feed ends]
  · rw [Text.stripped, Text.bare, Text.bareAs_plain true true line plain, trimmed]
  · have bared := settles.bare feed ends
    rw [whole] at bared
    exact bared.of_append_gap joinedFeed gaps
  · rw [← Text.prefix_bareAs_iff true true line word known.free known.solid, ← Text.bare, whole]
    refine (Text.prefix_append_iff _ _ _ fun c head member => ?_).symm
    have seen := (known c member).1
    simp [spaces c (List.mem_of_mem_head? head)] at seen
  · exact fun member => joinedFeed (List.mem_append_left _ member)

/-- What is left of a line of code is code. -/
theorem isCode_stripped (line : Text) (code : isCode line = true)
    (visible : ∀ c ∈ line.head?, isBlank c = false) (marks : line.stripped ∉ nonnullMarks) :
    isCode line.stripped = true := by
  obtain ⟨written, sharp, slashes, block, _⟩ := (isCode_iff line).mp code
  obtain ⟨whole, head⟩ := Text.bare_stripped written slashes block visible
  -- Nothing begins with the mark of a comment that did not before.
  have kept (word : Text) (solid : ' ' ∉ word) (front : word <+: line.stripped) : word <+: line :=
    Text.prefix_of_bareAs true true line word solid (by
      rw [← Text.bare, whole]
      exact front.trans (List.prefix_append _ _))
  refine (isCode_iff _).mpr ⟨?_, head ▸ sharp, ?_, ?_, marks⟩
  · rintro none
    rw [none] at head
    exact written (List.head?_eq_none_iff.mp head.symm)
  · exact fun front => slashes (kept _ (by decide) front)
  · exact fun front => block (kept _ (by decide) front)

section Peeling

variable (reader : Reader)

theorem isDoc_block (tail : Text) :
    Text.isDoc ('/' :: '*' :: tail) = (tail.head? == some '*' || tail.head? == some '!') := by
  cases tail with
  | nil => rfl
  | cons c tail => simp [Text.isDoc, List.isPrefixOf, Bool.beq_comm (a := c)]

theorem uncommented_block (body rest : Text)
    (closes : Text.cutAt? ['*', '/'] (body ++ ['*', '/'] ++ rest) = some (body, rest)) :
    reader.uncommented ('/' :: '*' :: (body ++ ['*', '/'] ++ rest)) =
      (reader.closeComment ⟨'/' :: '*' :: (body ++ ['*', '/']), false,
        Text.isDoc ('/' :: '*' :: (body ++ ['*', '/']))⟩, .again rest) := by
  have head : (body ++ ['*', '/'] ++ rest).head? = (body ++ ['*', '/']).head? := by
    cases body <;> rfl
  unfold uncommented
  rw [if_neg (by simp), if_neg (by simp)]
  simp only [closes, isDoc_block, head]
  simp

theorem uncommented_open (tail : Text) (runs : Text.cutAt? ['*', '/'] tail = none) :
    reader.uncommented ('/' :: '*' :: tail) =
      ({ reader with
          comment := some ⟨'/' :: '*' :: tail, false, Text.isDoc ('/' :: '*' :: tail)⟩ },
        .nothing) := by
  unfold uncommented
  rw [if_neg (by simp), if_neg (by simp)]
  simp only [runs, isDoc_block]

/-- A comment at the front of a line, closed there, with a rest of the line. -/
theorem peel_block (closed : reader.comment = none) (body rest : Text)
    (closes : Text.cutAt? ['*', '/'] (body ++ ['*', '/'] ++ rest) = some (body, rest)) :
    reader.peel (Text.trim ('/' :: '*' :: (body ++ ['*', '/']) ++ rest)) =
      (reader.closeComment ⟨'/' :: '*' :: (body ++ ['*', '/']), false,
        Text.isDoc ('/' :: '*' :: (body ++ ['*', '/']))⟩, .again (Text.trimEnd rest)) := by
  have again := Text.cutAt_append _ _ _ _ (Text.trimEnd rest) closes
  have last : ∀ c ∈ ('/' :: '*' :: (body ++ ['*', '/'])).getLast?, isBlank c = false := by
    intro c member
    have same : c = '/' := by simpa [List.getLast?_cons, List.getLast?_append] using member.symm
    exact same ▸ by decide
  rw [Text.trim_append_visible _ rest (by simp) last,
    Text.trimStart_of_head _ (by rintro c ⟨⟩; decide), reader.peel_of_none _ closed]
  exact reader.uncommented_block body _ again

/-- The end of the comment that is open. -/
theorem peel_closing (comment : OpenComment) (inside : reader.comment = some comment)
    (block : comment.ofSlashes = false) (raw body rest : Text)
    (closes : Text.cutAt? ['*', '/'] raw = some (body, rest)) :
    reader.peel raw.trim =
      (reader.closeComment (comment.addLine (Text.trimStart body ++ ['*', '/'])),
        .again (Text.trimEnd rest)) := by
  have whole := Text.eq_of_cutAt _ _ _ _ closes
  have again := Text.cutAt_append _ _ _ _ (Text.trimEnd rest) closes
  have last : ∀ c ∈ (body ++ ['*', '/']).getLast?, isBlank c = false := by
    intro c member
    have same : c = '/' := by simpa using member.symm
    exact same ▸ by decide
  have start : Text.trimStart (body ++ ['*', '/']) = Text.trimStart body ++ ['*', '/'] := by
    rw [Text.trimStart, List.dropWhile_append]
    split
    · next nothing =>
      rw [Text.trimStart, List.isEmpty_iff.mp nothing]
      rfl
    · rfl
  have trimmed : raw.trim = Text.trimStart body ++ ['*', '/'] ++ Text.trimEnd rest := by
    rw [whole, Text.trim_append_visible _ rest (by simp) last, start]
  -- The white space that is trimmed off does not hold the mark.
  have found : Text.cutAt? ['*', '/'] raw.trim = some (Text.trimStart body, Text.trimEnd rest) := by
    have lead : body = body.takeWhile isBlank ++ Text.trimStart body :=
      List.takeWhile_append_dropWhile.symm
    have outside : '*' ∉ body.takeWhile isBlank := fun member =>
      absurd (List.mem_takeWhile_imp member) (by decide)
    have shifted := Text.cutAt_lead raw.trim (body.takeWhile isBlank) '*' ['/'] outside
    rw [trimmed, ← List.append_assoc, ← List.append_assoc, ← lead, again] at shifted
    obtain ⟨cut, known, same⟩ := Option.map_eq_some_iff.mp shifted.symm
    rw [trimmed, known]
    obtain ⟨before, behind⟩ := Prod.mk.inj same
    rw [← behind]
    have inner := List.append_cancel_left (before.trans lead)
    rw [← inner]
  rw [peel, inside]
  simp [block, found]

theorem peel_open (comment : OpenComment) (inside : reader.comment = some comment)
    (block : comment.ofSlashes = false) (raw : Text) (runs : Text.cutAt? ['*', '/'] raw = none) :
    reader.peel raw.trim = ({ reader with comment := some (comment.addLine raw.trim) }, .nothing) := by
  have none : Text.cutAt? ['*', '/'] raw.trim = none := by
    rw [Text.cutAt_eq_none_iff] at runs ⊢
    obtain ⟨lead, trail, whole, _⟩ := Text.trim_parts raw
    exact fun inner => runs (inner.trans ⟨lead, trail, whole.symm⟩)
  rw [peel, inside]
  simp [block, none]

variable {reader} {after : Reader} {number : Nat} {raw rest : Text}

theorem readLine_nothing (peeled : reader.peel raw.trim = (after, .nothing)) :
    reader.readLine number raw = (after, []) := by rw [readLine, peeled]

-- A line of white space.
theorem readLine_blank (closed : reader.comment = none) (blank : ∀ c ∈ raw, isBlank c = true) :
    reader.readLine number raw = (reader, []) := by
  have trimmed : raw.trim = [] := Text.trim_append_blank [] raw blank
  exact reader.readLine_idle number raw closed (by rw [trimmed]; rfl)

theorem readLine_again (peeled : reader.peel raw.trim = (after, .again (Text.trimEnd rest))) :
    reader.readLine number raw = after.readLine number rest := by
  rw [readLine, peeled]
  exact after.readLine_of_trim number _ _ (Text.trim_trimEnd rest)

end Peeling

/-- Whether the comments on a line make no difference to the reader: not those on its code, and none
runs on behind a line that is passed over. -/
def overlooksLine (reader : Reader) (raw : Text) : Bool :=
  match _peeled : reader.peel raw.trim with
  | (after, .nothing) => after.comment.isSome || raw.trim.opened?.isNone
  | (after, .code line) => after.OverlooksComments line
  | (after, .again rest) => after.overlooksLine rest
termination_by raw.length
decreasing_by
  have shorter := length_peel _ _ _ _ _peeled
  have := Text.length_trim raw
  omega

/-- Whether the comments on lines make no difference to the reader. -/
def overlooksLines (reader : Reader) (number : Nat) : List Text → Bool
  | [] => true
  | line :: lines =>
    reader.overlooksLine line && (reader.readLine number line).1.overlooksLines (number + 1) lines

section Overlooking

variable {reader after : Reader} {raw line rest : Text}

theorem overlooksLine_of_trim (reader : Reader) (raw other : Text) (same : raw.trim = other.trim) :
    reader.overlooksLine raw = reader.overlooksLine other := by
  rw [overlooksLine, overlooksLine, same]

theorem overlooks_nothing (peeled : reader.peel raw.trim = (after, .nothing))
    (overlooks : reader.overlooksLine raw = true) (closed : after.comment = none) :
    raw.trim.opened? = none := by
  rw [overlooksLine, peeled] at overlooks
  simpa [closed] using overlooks

theorem overlooks_code (peeled : reader.peel raw.trim = (after, .code line))
    (overlooks : reader.overlooksLine raw = true) : after.OverlooksComments line := by
  rw [overlooksLine, peeled] at overlooks
  exact of_decide_eq_true overlooks

theorem overlooks_again (peeled : reader.peel raw.trim = (after, .again (Text.trimEnd rest)))
    (overlooks : reader.overlooksLine raw = true) : after.overlooksLine rest = true := by
  rw [overlooksLine, peeled] at overlooks
  rwa [← after.overlooksLine_of_trim _ _ (Text.trim_trimEnd rest)]

end Overlooking

/-! ## One line -/

/-- The comments of two readers behind a line, the second of which has read it without its comments: a
comment that stays is open for both or for none, one that goes for the first only. -/
inductive CommentsAlike : Option Bool → Option OpenComment → Option OpenComment → Prop where
  | outside {comment : Option OpenComment} (runs : ∀ c ∈ comment, c.ofSlashes = true) :
      CommentsAlike none comment comment
  | stays {comment : OpenComment} (block : comment.ofSlashes = false) :
      CommentsAlike (some false) (some comment) (some comment)
  | goes {comment : OpenComment} (block : comment.ofSlashes = false) (plain : comment.isDoc = false) :
      CommentsAlike (some true) (some comment) none

/-- Two readers have read a line alike, with its comments and without. -/
structure LineAlike (open? : Option Bool) (step other : Reader × List Note) : Prop where
  reader : step.1.Alike other.1
  notes : NotesAlike step.2 other.2
  comments : CommentsAlike open? step.1.comment other.1.comment

variable {reader other : Reader}

theorem CommentsAlike.closed (closed : reader.comment = none) (closed' : other.comment = none) :
    CommentsAlike none reader.comment other.comment := by
  rw [closed, closed']
  exact .outside (by simp)

theorem readLine_slashes (below : List Text) (number : Nat) (body : Text) (alike : reader.Alike other)
    (closed : reader.comment = none) (closed' : other.comment = none) :
    LineAlike (Text.running? below ('/' :: '/' :: body))
      (reader.readLine number ('/' :: '/' :: body))
      (other.readLine number (Text.bareRest below ('/' :: '/' :: body))) := by
  obtain ⟨_, stays, ends⟩ := Text.bareRest_slashes below body
  rw [stays, ends]
  have trimmed := Text.trim_slash '/' body (by decide)
  by_cases doc : ∃ rest, Text.trimEnd body = '/' :: rest
  · obtain ⟨rest, whole⟩ := doc
    have peeled (own : Reader) (none : own.comment = none) :
        own.peel (Text.trim ('/' :: '/' :: body)) =
          ({ own with comment := some ⟨rest, true, true⟩ }, .nothing) := by
      rw [trimmed, whole, peel, none]
      rfl
    rw [readLine_nothing (peeled reader closed), readLine_nothing (peeled other closed')]
    exact ⟨⟨alike.assumeNonnull, alike.doc, alike.availability, alike.region⟩, .refl _,
      .outside (by simp)⟩
  · have idle : isIdle (Text.trim ('/' :: '/' :: body)) = true := by
      have plain : Text.startsWith ['/', '/', '/'] ('/' :: '/' :: Text.trimEnd body) = false := by
        rw [← Bool.not_eq_true, Text.startsWith_iff]
        rintro ⟨rest, whole⟩
        exact doc ⟨rest, by simpa using whole.symm⟩
      rw [trimmed, isIdle, plain]
      rfl
    rw [readLine_idle _ _ _ closed idle, readLine_idle _ _ _ closed' idle]
    exact ⟨alike, .refl _, .closed closed closed'⟩

-- A comment that opens at the front of a line and runs on goes if it ends in front of code.
theorem readLine_opens (below : List Text) (number : Nat) (body : Text) (alike : reader.Alike other)
    (closed : reader.comment = none) (closed' : other.comment = none)
    (runs : Text.cutAt? ['*', '/'] body = none) :
    LineAlike (Text.running? below ('/' :: '*' :: body))
      (reader.readLine number ('/' :: '*' :: body))
      (other.readLine number (Text.bareRest below ('/' :: '*' :: body))) := by
  obtain ⟨_, bared, running⟩ := Text.bareRest_opens below body runs
  have trimmed := Text.trim_slash '*' body (by decide)
  obtain ⟨trail, whole, white⟩ := Text.trimEnd_parts body
  have runs' : Text.cutAt? ['*', '/'] (Text.trimEnd body) = none := by
    rw [Text.cutAt_eq_none_iff] at runs ⊢
    exact fun inner => runs (inner.trans ⟨[], trail, whole.symm⟩)
  have peeled (own : Reader) (none : own.comment = none) :
      own.peel (Text.trim ('/' :: '*' :: body)) =
        ({ own with comment := some ⟨'/' :: '*' :: Text.trimEnd body, false,
            Text.isDoc ('/' :: '*' :: Text.trimEnd body)⟩ }, .nothing) := by
    rw [trimmed, own.peel_of_none _ none, own.uncommented_open _ runs']
  have doc : Text.isDoc ('/' :: '*' :: body) = Text.isDoc ('/' :: '*' :: Text.trimEnd body) := by
    have same := Text.isDoc_append ('/' :: '*' :: Text.trimEnd body) trail white
    rwa [List.cons_append, List.cons_append, ← whole] at same
  rw [readLine_nothing (peeled reader closed), running, bared]
  cases goes : Text.closesOnCode below && !Text.isDoc ('/' :: '*' :: body) with
  | false =>
    rw [if_neg (by simp), readLine_nothing (peeled other closed')]
    exact ⟨⟨alike.assumeNonnull, alike.doc, alike.availability, alike.region⟩, .refl _, .stays rfl⟩
  | true =>
    have blank := Text.blank_whiten ('/' :: '*' :: body)
    have plain : Text.isDoc ('/' :: '*' :: Text.trimEnd body) = false := by
      rw [← doc]
      simpa using (Bool.and_eq_true_iff.mp goes).2
    rw [if_pos rfl, readLine_blank closed' blank]
    refine ⟨⟨alike.assumeNonnull, alike.doc, alike.availability, alike.region⟩, .refl _, ?_⟩
    simp only [closed']
    exact .goes rfl plain

-- The marks of a region are lines of code without comments.
theorem readLine_mark (number : Nat) (raw : Text) (alike : reader.Alike other)
    (closed : reader.comment = none) (closed' : other.comment = none) (mark : raw.trim ∈ nonnullMarks) :
    LineAlike none (reader.readLine number raw) (other.readLine number raw) := by
  obtain ⟨ruled, marked⟩ := uncommented_mark raw.trim mark
  have peeled (own : Reader) (none : own.comment = none) :
      own.peel raw.trim = ({ own with assumeNonnull := ruled }, .nothing) := by
    rw [own.peel_of_none _ none, marked own]
  rw [readLine_nothing (peeled reader closed), readLine_nothing (peeled other closed')]
  exact ⟨⟨rfl, alike.doc, alike.availability, alike.region⟩, .refl _, .closed closed closed'⟩

-- A mark holds no comment.
theorem bare_of_mark {line : Text} (mark : line ∈ nonnullMarks) :
    line.bare = line ∧ line.opened? = none := by
  have apart : ∀ word ∈ nonnullMarks, '/' ∉ word ∧ '"' ∉ word := by decide
  have free : Text.IsFree line := apart line mark
  have bare := Text.bareAs_free true true line [] free
  have ends := Text.opened_free line [] free
  rw [List.append_nil] at bare ends
  rw [Text.bareAs_nil, List.append_nil] at bare
  exact ⟨bare, by rw [ends]; simp [Text.opened?]⟩

/-- A line that begins with code is read alike without the comments behind it. -/
theorem readLine_coded (below : List Text) (number : Nat) (line : Text) (alike : reader.Alike other)
    (closed : reader.comment = none) (closed' : other.comment = none) (feed : '\n' ∉ line)
    (written : line ≠ []) (visible : ∀ c ∈ line.head?, isBlank c = false)
    (slashes : ¬ ['/', '/'] <+: line) (block : ¬ ['/', '*'] <+: line)
    (overlooks : reader.overlooksLine line = true) :
    LineAlike (Text.running? below line) (reader.readLine number line)
      (other.readLine number (Text.bareRest below line)) := by
  have coded := Text.isCoded_of_code written slashes block visible
  have bared := Text.bareRest_coded below line coded
  obtain ⟨front, head⟩ := Text.trim_front line visible
  have written' : line.trim ≠ [] := by
    rintro none
    rw [none] at head
    exact written (List.head?_eq_none_iff.mp head.symm)
  have slashes' : ¬ ['/', '/'] <+: line.trim := fun inner => slashes (inner.trans front)
  have block' : ¬ ['/', '*'] <+: line.trim := fun inner => block (inner.trans front)
  have seen : ∀ c ∈ line.trim.head?, isBlank c = false := head ▸ visible
  have left : line.bare.trim = line.trim.stripped := (Text.stripped_trim line).symm
  have running (ends : line.trim.opened? = none) : Text.running? below line = none := by
    have runs := Text.opened_trim line
    rw [ends, Option.isSome_none, eq_comm, Option.isSome_eq_false_iff,
      Option.isNone_iff_eq_none] at runs
    rw [Text.running?, runs]
    rfl
  by_cases mark : line.trim ∈ nonnullMarks
  · obtain ⟨bare, ends⟩ := bare_of_mark mark
    have kept : line.bare.trim = line.trim := by
      rw [left, Text.stripped, bare, Text.trim_trim]
    rw [bared, running ends, other.readLine_of_trim number line.bare line kept]
    exact readLine_mark number line alike closed closed' mark
  by_cases sharp : line.trim.head? = some '#'
  · have idle : isIdle line.trim = true := by simp [isIdle, sharp]
    obtain ⟨_, first⟩ := Text.bare_stripped written' slashes' block' seen
    have idle' : isIdle line.bare.trim = true := by simp [isIdle, left, first, sharp]
    have peeled : reader.peel line.trim = (reader, .nothing) := by
      rw [reader.peel_of_none _ closed, reader.uncommented_idle _ idle]
    have ends := overlooks_nothing peeled overlooks closed
    rw [bared, running ends, reader.readLine_idle number line closed idle,
      other.readLine_idle number line.bare closed' idle']
    exact ⟨alike, .refl _, .closed closed closed'⟩
  · have code : isCode line.trim = true :=
      (isCode_iff _).mpr ⟨written', sharp, slashes', block', mark⟩
    have peeled : reader.peel line.trim = (reader, .code line.trim) := by
      rw [reader.peel_of_none _ closed, reader.uncommented_code _ code]
    have tests := overlooks_code peeled overlooks
    have twin := twin_stripped line.trim code (Text.trim_trim line)
      (fun member => feed (front.subset member)) tests.ends tests.edges
    have code' := isCode_stripped line.trim code seen tests.marks
    have step := codeLine_alike alike number twin tests.region
    rw [bared, running tests.ends, reader.readLine_code number line closed code,
      other.readLine_code number line.bare closed' (left ▸ code'), left]
    refine ⟨step.reader, step.notes, ?_⟩
    rw [codeLine_comment, codeLine_comment]
    exact .closed closed closed'

theorem closeComment_alike (alike : reader.Alike other) (comment : OpenComment) :
    (reader.closeComment comment).Alike (other.closeComment comment) :=
  ⟨alike.assumeNonnull, by simp [closeComment, alike.doc], alike.availability, alike.region⟩

-- A plain comment leaves nothing behind.
theorem closeComment_plain (alike : reader.Alike other) (comment : OpenComment)
    (plain : comment.isDoc = false) : (reader.closeComment comment).Alike other :=
  ⟨alike.assumeNonnull, by simp [closeComment, plain, alike.doc], alike.availability, alike.region⟩

/-- A line, or the rest of one behind a comment, is read alike without its comments. -/
theorem readLine_alike (below : List Text) (number : Nat) (raw : Text) (alike : reader.Alike other)
    (closed : reader.comment = none) (closed' : other.comment = none) (feed : '\n' ∉ raw)
    (overlooks : reader.overlooksLine raw = true) :
    LineAlike (Text.running? below raw) (reader.readLine number raw)
      (other.readLine number (Text.bareRest below raw)) := by
  induction raw using Text.front_induction generalizing reader other with
  | nil =>
    have ends : Text.running? below [] = none := by simp [Text.running?, Text.opened?]
    have left : Text.bareRest below [] = [] := by simp [Text.bareRest]
    rw [ends, left, readLine_blank closed (by simp), readLine_blank closed' (by simp)]
    exact ⟨alike, .refl _, .closed closed closed'⟩
  | lead lead line blank ih =>
    -- White space in front of the line is looked at no further.
    obtain ⟨_, bared, running⟩ := Text.bareRest_lead below lead line blank
    have trimmed (text : Text) := Text.trim_blank_append lead text blank
    rw [bared, running, other.readLine_of_trim number _ _ (trimmed _),
      reader.readLine_of_trim number _ _ (trimmed _)]
    exact ih alike closed closed' (fun member => feed (List.mem_append_right lead member))
      (reader.overlooksLine_of_trim _ _ (trimmed _) ▸ overlooks)
  | slashes body => exact readLine_slashes below number body alike closed closed'
  | opens body runs => exact readLine_opens below number body alike closed closed' runs
  | block body rest closes ih =>
    -- The comment is closed, and the rest of the line is read like a line of its own.
    generalize shown : '/' :: '*' :: (body ++ ['*', '/']) = comment at *
    have begins : (Stretch.comment comment).Begins rest := shown ▸ .block closes
    obtain ⟨_, bared, running⟩ := Text.bareRest_comment below begins
    have peeled := reader.peel_block closed body rest closes
    rw [shown] at peeled
    have later (own : Reader) (none : own.comment = none)
        (owns : (reader.closeComment ⟨comment, false, Text.isDoc comment⟩).Alike own) :=
      ih owns rfl none (fun member => feed (List.mem_append_right _ member))
        (overlooks_again peeled overlooks)
    rw [bared, running, readLine_again peeled]
    cases goes : Text.isCoded rest && !Text.isDoc comment with
    | true =>
      have white := Text.blank_whiten comment
      have plain : Text.isDoc comment = false := by simpa using (Bool.and_eq_true_iff.mp goes).2
      rw [if_pos rfl, other.readLine_of_trim number _ _ (Text.trim_blank_append _ _ white)]
      exact later other closed' (closeComment_plain alike _ plain)
    | false =>
      have again := Text.cutAt_append _ _ _ _ (Text.bareRest below rest) closes
      have peeled' := other.peel_block closed' body _ again
      rw [shown] at peeled'
      rw [if_neg (by simp), readLine_again peeled']
      exact later _ rfl (closeComment_alike alike _)
  | code line written visible slashes block =>
    exact readLine_coded below number line alike closed closed' feed written visible slashes block
      overlooks

/-- A line outside comments, where a run of `///` lines may go on or end. -/
theorem readLine_outside (below : List Text) (number : Nat) (raw : Text) (alike : reader.Alike other)
    (comments : CommentsAlike none reader.comment other.comment) (feed : '\n' ∉ raw)
    (overlooks : reader.overlooksLine raw = true) :
    LineAlike (Text.running? below raw) (reader.readLine number raw)
      (other.readLine number (Text.bareRest below raw)) := by
  generalize open? : none = kind at comments
  generalize here : reader.comment = comment at comments
  generalize there : other.comment = comment' at comments
  cases comments with
  | stays | goes => cases open?
  | outside runs =>
    cases comment with
    | none => exact readLine_alike below number raw alike here there feed overlooks
    | some comment =>
      have slashes := runs comment rfl
      by_cases doc : ['/', '/', '/'] <+: raw.trim
      · obtain ⟨body, front⟩ := doc
        have peeled (own : Reader) (run : own.comment = some comment) :
            own.peel raw.trim = ({ own with comment := some (comment.addLine body) }, .nothing) := by
          rw [peel, run, ← front]
          simp [slashes]
        obtain ⟨stays, ends⟩ := Text.bareRest_ofSlashes below raw ⟨'/' :: body, front⟩
        rw [stays, ends, readLine_nothing (peeled reader here), readLine_nothing (peeled other there)]
        refine ⟨⟨alike.assumeNonnull, alike.doc, alike.availability, alike.region⟩, .refl _,
          .outside ?_⟩
        rintro _ ⟨⟩
        exact slashes
      · have plain : Text.startsWith ['/', '/', '/'] raw.trim = false := by
          rwa [← Bool.not_eq_true, Text.startsWith_iff]
        have plain' : Text.startsWith ['/', '/', '/'] (Text.bareRest below raw).trim = false := by
          rw [← Bool.not_eq_true, Text.startsWith_iff]
          intro front
          have stays := (Text.bareRest_startsSlashes below raw (.trans ⟨['/'], rfl⟩ front)).2.1
          exact doc (stays ▸ front)
        have closes (own : Reader) (run : own.comment = some comment) :
            own.closeRun = own.closeComment comment := by simp [closeRun, run, slashes]
        have passes : (reader.closeComment comment).overlooksLine raw = true := by
          rw [overlooksLine, reader.peel_closeRun _ plain, closes reader here] at overlooks
          rwa [overlooksLine]
        rw [reader.readLine_closeRun number raw plain, closes reader here,
          other.readLine_closeRun number _ plain', closes other there]
        exact readLine_alike below number raw (closeComment_alike alike comment) rfl rfl feed passes

/-- A line inside a comment that stays or goes. -/
theorem readLine_within (number : Nat) (raw : Text) (goes : Bool) (alike : reader.Alike other)
    (comments : CommentsAlike (some goes) reader.comment other.comment)
    (runs : Text.cutAt? ['*', '/'] raw = none) :
    LineAlike (some goes) (reader.readLine number raw)
      (other.readLine number (if goes then Text.whiten raw else raw)) := by
  generalize open? : some goes = kind at comments
  generalize here : reader.comment = comment at comments
  generalize there : other.comment = comment' at comments
  cases comments with
  | outside => cases open?
  | @stays comment block =>
    cases open?
    rw [readLine_nothing (reader.peel_open comment here block raw runs), if_neg (by simp),
      readLine_nothing (other.peel_open comment there block raw runs)]
    exact ⟨⟨alike.assumeNonnull, alike.doc, alike.availability, alike.region⟩, .refl _, .stays block⟩
  | @goes comment block plain =>
    cases open?
    rw [readLine_nothing (reader.peel_open comment here block raw runs), if_pos rfl,
      readLine_blank there (Text.blank_whiten raw)]
    refine ⟨⟨alike.assumeNonnull, alike.doc, alike.availability, alike.region⟩, .refl _, ?_⟩
    simp only [there]
    exact .goes block plain

/-- A line on which a comment that stays or goes is closed. -/
theorem readLine_closes (below : List Text) (number : Nat) (raw body rest : Text) (goes : Bool)
    (alike : reader.Alike other)
    (comments : CommentsAlike (some goes) reader.comment other.comment) (feed : '\n' ∉ raw)
    (closes : Text.cutAt? ['*', '/'] raw = some (body, rest))
    (overlooks : reader.overlooksLine raw = true) :
    LineAlike (Text.running? below rest) (reader.readLine number raw)
      (other.readLine number ((if goes then Text.whiten (body ++ ['*', '/']) else body ++ ['*', '/']) ++
        Text.bareRest below rest)) := by
  have whole := Text.eq_of_cutAt _ _ _ _ closes
  have inside : '\n' ∉ rest := fun member => feed (whole ▸ List.mem_append_right _ member)
  generalize open? : some goes = kind at comments
  generalize here : reader.comment = comment at comments
  generalize there : other.comment = comment' at comments
  cases comments with
  | outside => cases open?
  | @stays comment block =>
    cases open?
    have peeled := reader.peel_closing comment here block raw body rest closes
    have again := Text.cutAt_append _ _ _ _ (Text.bareRest below rest) closes
    have peeled' := other.peel_closing comment there block _ body _ again
    rw [readLine_again peeled, if_neg (by simp), readLine_again peeled']
    exact readLine_alike below number rest (closeComment_alike alike _) rfl rfl inside
      (overlooks_again peeled overlooks)
  | @goes comment block plain =>
    cases open?
    have peeled := reader.peel_closing comment here block raw body rest closes
    rw [readLine_again peeled, if_pos rfl,
      other.readLine_of_trim number _ _ (Text.trim_blank_append _ _ (Text.blank_whiten _))]
    exact readLine_alike below number rest (closeComment_plain alike _ plain) rfl there inside
      (overlooks_again peeled overlooks)

/-! ## All lines -/

/-- Lines are read alike without their comments. -/
theorem readLines_alike (open? : Option Bool) (number : Nat) (lines : List Text)
    (alike : reader.Alike other) (comments : CommentsAlike open? reader.comment other.comment)
    (feed : ∀ line ∈ lines, '\n' ∉ line) (overlooks : reader.overlooksLines number lines = true) :
    StepAlike (reader.readLines number lines)
      (other.readLines number (Text.bareLines open? lines)) := by
  induction lines generalizing reader other number open? with
  | nil => exact ⟨alike, .refl _⟩
  | cons line below ih =>
    have own := feed line List.mem_cons_self
    obtain ⟨here, below'⟩ := Bool.and_eq_true_iff.mp overlooks
    -- The line is read alike, and what it leaves open is what the lines below it begin with.
    have later {next? : Option Bool} {line' : Text}
        (first : LineAlike next? (reader.readLine number line) (other.readLine number line')) :
        StepAlike (reader.readLines number (line :: below))
          (other.readLines number (line' :: Text.bareLines next? below)) := by
      have rest := ih next? (number + 1) first.reader first.comments
        (fun line member => feed line (List.mem_cons_of_mem _ member)) below'
      exact ⟨rest.reader, first.notes.append rest.notes⟩
    cases open? with
    | none => exact later (readLine_outside below number line alike comments own here)
    | some goes =>
      rw [Text.bareLines]
      cases closes : Text.cutAt? ['*', '/'] line with
      | none => exact later (readLine_within number line goes alike comments closes)
      | some cut =>
        exact later (readLine_closes below number line cut.1 cut.2 goes alike comments own closes
          here)

theorem finish_alike (alike : reader.Alike other) : NotesAlike reader.finish other.finish := by
  have regions := alike.region
  unfold finish
  generalize reader.region = region at regions
  generalize other.region = region' at regions
  cases regions with
  | outside => exact .refl _
  | skipping => exact .refl _
  | @inClass current current' classes =>
    have pending := classes.pending
    -- What is pending is flushed, and the class is declared with a warning at its first line.
    have closing {step step' : OpenClass × List Note} (steps : OpenClass.StepAlike step step') :
        NotesAlike (step.2 ++ [.declared step.1.decl, .unclosed step.1.decl current.line])
          (step'.2 ++ [.declared step'.1.decl, .unclosed step'.1.decl current'.line]) := by
      rw [steps.current.decl, classes.line]
      exact steps.notes.append (.refl _)
    dsimp only
    generalize current.pending = before at pending
    generalize current'.pending = after at pending
    cases pending with
    | nothing => exact closing ⟨classes, .refl _⟩
    | header twin => exact closing ⟨classes, .refl _⟩
    | member twin =>
      simp only [alike.assumeNonnull]
      exact closing (OpenClass.addMember_alike classes _ _ _ twin)

end Reader

/-! ## All headers -/

namespace SourceUnit

/-- A header without the plain comments that share a line with code. -/
def uncommented (unit : SourceUnit) : SourceUnit :=
  { unit with content := unit.content.uncommented }

/-- The comments that share a line with code make no difference to the reader of a header. -/
def CommentsOverlooked (unit : SourceUnit) : Prop :=
  Reader.overlooksLines {} 1 unit.content.pieces = true

instance (unit : SourceUnit) : Decidable unit.CommentsOverlooked :=
  inferInstanceAs (Decidable (_ = true))

theorem notes_uncommented (unit : SourceUnit) (overlooked : unit.CommentsOverlooked) :
    NotesAlike (notesOf unit.content) (notesOf unit.uncommented.content) := by
  have start : Reader.Alike {} {} := ⟨rfl, rfl, rfl, .outside⟩
  have read := Reader.readLines_alike none 1 unit.content.pieces start
    (.closed rfl rfl) (Text.mem_pieces unit.content) overlooked
  rw [notesOf_pieces, notesOf_pieces, uncommented, Text.pieces_uncommented]
  exact read.notes.append (Reader.finish_alike read.reader)

end SourceUnit

/-- Class sets with the same classes and with warnings of the same lines. -/
structure ClassSet.Alike (set other : ClassSet) : Prop where
  classes : other.classes = set.classes
  lines : other.diagnostics.map (·.line) = set.diagnostics.map (·.line)

theorem ClassSet.recordAll_alike {set other : ClassSet} (sets : set.Alike other)
    (unit unit' : SourceUnit) {notes notes' : List Note} (same : NotesAlike notes notes') :
    (set.recordAll (notes.map unit.finding)).Alike
      (other.recordAll (notes'.map unit'.finding)) := by
  obtain ⟨classes, lines⟩ := set.recordAll_notes unit notes
  obtain ⟨classes', lines'⟩ := other.recordAll_notes unit' notes'
  exact ⟨by rw [classes', classes, same.declared, sets.classes],
    by rw [lines', lines, same.warned, sets.lines]⟩

/-- Headers yield the same classes, and warnings of the same lines, without the plain comments that
share a line with code, if none of these makes a difference to the reader. -/
theorem Run.extractUnits_uncommented (set : ClassSet) (units : List SourceUnit)
    (overlooked : ∀ unit ∈ units, unit.CommentsOverlooked) :
    (Run.extractUnits set (units.map SourceUnit.uncommented)).1.classes =
        (Run.extractUnits set units).1.classes ∧
      (Run.extractUnits set (units.map SourceUnit.uncommented)).1.diagnostics.map (·.line) =
        (Run.extractUnits set units).1.diagnostics.map (·.line) := by
  have all (other : ClassSet) (sets : set.Alike other) :
      (Run.extractUnits set units).1.Alike
        (Run.extractUnits other (units.map SourceUnit.uncommented)).1 := by
    induction units generalizing set other with
    | nil => exact sets
    | cons unit units ih =>
      have notes := unit.notes_uncommented (overlooked unit List.mem_cons_self)
      rw [List.map_cons, Run.extractUnits_cons, Run.extractUnits_cons]
      exact ih _ (fun unit member => overlooked unit (List.mem_cons_of_mem _ member)) _
        (ClassSet.recordAll_alike sets unit unit.uncommented notes)
  obtain ⟨classes, lines⟩ := all set ⟨rfl, rfl⟩
  exact ⟨classes, lines⟩

/-- Comments behind a forward declaration and a header, in a wrapped member and behind it, over two
lines in front of a member, and behind the end. -/
def notedPanel : SourceUnit where
  path := "Panel.h".toList
  content :=
    ["@class Box; /* forward */".toList,
     "@interface Panel // shown".toList,
     "- (void)move:(int /* at */)x".toList,
     "    to:(int)y; // down".toList,
     "/* how".toList,
     "far */ - (void)hide;".toList,
     "@end // Panel".toList].flatMap (· ++ ['\n'])

theorem extractUnits_uncommented_panel :
    (∀ unit ∈ [notedPanel], unit.CommentsOverlooked) ∧
      (Run.extractUnits .empty [notedPanel.uncommented]).1.classes =
        (Run.extractUnits .empty [notedPanel]).1.classes ∧
      (Run.extractUnits .empty [notedPanel.uncommented]).1.diagnostics.map (·.line) =
        (Run.extractUnits .empty [notedPanel]).1.diagnostics.map (·.line) := by
  have overlooked : ∀ unit ∈ [notedPanel], unit.CommentsOverlooked := by decide +kernel
  exact ⟨overlooked, Run.extractUnits_uncommented .empty [notedPanel] overlooked⟩

/-- A forward declaration of a protocol with a comment behind its semicolon. -/
def notedForward : SourceUnit where
  path := "Panel.h".toList
  content := "@protocol Shown; // forward\n@interface Panel : NSObject\n- (void)hide;\n@end\n".toList

/-- With the comment, the forward declaration is taken for a protocol's body, and the class behind
it is lost. -/
theorem forward_comment_shows :
    notedForward.uncommented.content =
        "@protocol Shown;           \n@interface Panel : NSObject\n- (void)hide;\n@end\n".toList ∧
      (Run.extractUnits .empty [notedForward]).1.classes = [] ∧
      (Run.extractUnits .empty [notedForward.uncommented]).1.classes.map (·.name) =
        ["Panel".toList] := by
  decide +kernel

end HeaderBindings
