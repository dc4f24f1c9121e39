import HeaderBindings.Text.Basic

/-!
Texts line by line. A text is read off from its front as lines that a line feed ends and what
stands behind the last of them; lines written one below the other are read back, but for a carriage
return at the end of a line and an empty line behind the last line feed.
-/

namespace HeaderBindings

namespace Text

theorem join_cons_cons (separator first second : Text) (parts : List Text) :
    join separator (first :: second :: parts) =
      first ++ separator ++ join separator (second :: parts) := by
  simp [join, List.intercalate_cons_cons]

@[simp] theorem join_nil (separator : Text) : join separator [] = [] := rfl

@[simp] theorem join_single (separator part : Text) : join separator [part] = part := by
  simp [join]

/-- A joined text shows what its parts show, and its separators. -/
theorem mem_join_iff (separator : Text) {c : Char} (between : c ∉ separator) (parts : List Text) :
    c ∈ join separator parts ↔ ∃ part ∈ parts, c ∈ part := by
  induction parts with
  | nil => simp
  | cons first parts ih =>
    cases parts with
    | nil => simp
    | cons second parts =>
      rw [join_cons_cons, List.mem_append, List.mem_append, ih]
      simp [between]

/-- Lines, each with a line feed behind it. -/
def unlines (lines : List Text) : Text := lines.flatMap (· ++ ['\n'])

theorem unlines_cons (line : Text) (lines : List Text) :
    unlines (line :: lines) = line ++ '\n' :: unlines lines := by
  simp [unlines]

-- Lines with a line feed between any two and one at the end.
theorem join_feed (first : Text) (lines : List Text) :
    join ['\n'] (first :: lines) ++ ['\n'] = unlines (first :: lines) := by
  induction lines generalizing first with
  | nil => simp [unlines]
  | cons second lines ih =>
    rw [join_cons_cons, List.append_assoc, ih, unlines_cons first]
    simp

section Cutting

theorem cutWhere_free (isMark : Char → Bool) (text : Text)
    (free : ∀ c ∈ text, isMark c = false) : cutWhere isMark text = (text, []) := by
  induction text with
  | nil => rfl
  | cons c text ih =>
    have here := free c List.mem_cons_self
    have later := ih fun d member => free d (List.mem_cons_of_mem c member)
    simp [cutWhere, here, later]

theorem cutWhere_mark (isMark : Char → Bool) (text rest : Text) (mark : Char)
    (marked : isMark mark = true) : cutWhere isMark (text ++ mark :: rest) =
      ((cutWhere isMark text).1, (cutWhere isMark text).2 ++ piecesWhere isMark rest) := by
  induction text with
  | nil => simp [cutWhere, marked, piecesWhere]
  | cons c text ih =>
    rw [List.cons_append, cutWhere, ih, cutWhere]
    split <;> rfl

theorem piecesWhere_mark (isMark : Char → Bool) (text rest : Text) (mark : Char)
    (marked : isMark mark = true) : piecesWhere isMark (text ++ mark :: rest) =
      piecesWhere isMark text ++ piecesWhere isMark rest := by
  rw [piecesWhere, cutWhere_mark isMark text rest mark marked]
  rfl

theorem cutWhere_append (isMark : Char → Bool) (text rest : Text) (mark : Char)
    (marked : isMark mark = true) (free : ∀ c ∈ text, isMark c = false) :
    cutWhere isMark (text ++ mark :: rest) = (text, piecesWhere isMark rest) := by
  rw [cutWhere_mark isMark text rest mark marked, cutWhere_free isMark text free, List.nil_append]

theorem not_feed (text : Text) (free : '\n' ∉ text) : ∀ c ∈ text, (c == '\n') = false := by
  intro c member
  have other : c ≠ '\n' := fun same => free (same ▸ member)
  simpa using other

theorem pieces_free (text : Text) (free : '\n' ∉ text) : pieces text = [text] := by
  simp [pieces, piecesWhere, cutWhere_free _ text (not_feed text free)]

theorem pieces_feed (line rest : Text) (free : '\n' ∉ line) :
    pieces (line ++ '\n' :: rest) = line :: pieces rest := by
  simp [pieces, piecesWhere, cutWhere_append _ line rest '\n' rfl (not_feed line free)]

theorem pieces_join (parts : List Text) (some : parts ≠ []) (free : ∀ part ∈ parts, '\n' ∉ part) :
    pieces (join ['\n'] parts) = parts := by
  induction parts with
  | nil => exact absurd rfl some
  | cons first parts ih =>
    have own := free first List.mem_cons_self
    cases parts with
    | nil => rw [join_single, pieces_free first own]
    | cons second parts =>
      have later := ih (by simp) fun next member => free next (List.mem_cons_of_mem first member)
      rw [join_cons_cons, List.append_assoc, List.singleton_append, pieces_feed first _ own, later]

end Cutting

section Lines

theorem lines_free (text : Text) (written : text ≠ []) (free : '\n' ∉ text) :
    lines text = [text] := by
  simp [lines, pieces_free text free, linesOf, written]

theorem lines_feed (line rest : Text) (free : '\n' ∉ line) :
    lines (line ++ '\n' :: rest) = dropReturn line :: lines rest := by
  rw [lines, pieces_feed line rest free]
  rfl

/-- A text is empty, a last line, or a line with a line feed and a text behind it. -/
@[elab_as_elim]
theorem line_induction {motive : Text → Prop} (empty : motive [])
    (last : ∀ text, text ≠ [] → '\n' ∉ text → motive text)
    (feed : ∀ line rest, '\n' ∉ line → motive rest → motive (line ++ '\n' :: rest))
    (text : Text) : motive text := by
  induction size : text.length using Nat.strongRecOn generalizing text with
  | ind n ih =>
    by_cases broken : '\n' ∈ text
    · obtain ⟨line, rest, rfl, free⟩ := List.eq_append_cons_of_mem broken
      refine feed line rest free (ih rest.length ?_ rest rfl)
      rw [← size]
      simp
      omega
    · by_cases written : text = []
      · exact written ▸ empty
      · exact last text written broken

theorem mem_pieces (text piece : Text) (member : piece ∈ pieces text) : '\n' ∉ piece := by
  induction text using line_induction with
  | empty =>
    have same : piece = [] := by simpa [pieces, piecesWhere, cutWhere] using member
    simp [same]
  | last text written free =>
    rw [pieces_free text free, List.mem_singleton] at member
    exact member ▸ free
  | feed first rest free ih =>
    rw [pieces_feed first rest free] at member
    rcases List.mem_cons.mp member with rfl | later
    · exact free
    · exact ih later

theorem lines_eq_nil_iff (text : Text) : lines text = [] ↔ text = [] := by
  cases text using line_induction with
  | empty => simp [lines, pieces, piecesWhere, cutWhere, linesOf]
  | last text written free => simp [lines_free text written free, written]
  | feed line rest free => simp [lines_feed line rest free]

end Lines

section Returns

theorem dropReturn_append (line : Text) : dropReturn (line ++ ['\r']) = line := by
  simp [dropReturn]

-- A line has a carriage return at its end or is left as it is.
theorem dropReturn_cases (line : Text) :
    dropReturn line = line ∨ line = dropReturn line ++ ['\r'] := by
  rcases List.eq_nil_or_concat line with rfl | ⟨before, c, rfl⟩
  · exact Or.inl rfl
  · rw [List.concat_eq_append]
    by_cases same : c = '\r'
    · subst same
      exact Or.inr (by rw [dropReturn_append])
    · refine Or.inl ?_
      unfold dropReturn
      split
      · next rest reversed =>
        rw [List.reverse_append, List.reverse_singleton, List.singleton_append,
          List.cons.injEq] at reversed
        exact absurd reversed.1 same
      · rfl

-- A carriage return is dropped behind a line only.
theorem head_of_dropReturn (line : Text) (c : Char) (head : (dropReturn line).head? = some c) :
    line.head? = some c := by
  rcases dropReturn_cases line with same | ended
  · rwa [same] at head
  · rw [ended, List.head?_append, head]
    rfl

theorem dropReturn_of_last (line : Text) (c : Char) (last : line.getLast? = some c)
    (other : c ≠ '\r') : dropReturn line = line := by
  rcases dropReturn_cases line with same | ended
  · exact same
  · rw [ended, List.getLast?_concat] at last
    exact absurd (Option.some.inj last).symm other

theorem dropReturn_subset (line : Text) : dropReturn line ⊆ line := by
  intro c member
  rcases dropReturn_cases line with same | ended
  · rwa [same] at member
  · rw [ended]
    exact List.mem_append_left _ member

/-- No line feed of a text follows a carriage return. -/
def PlainFeeds (text : Text) : Prop := ¬ ['\r', '\n'] <:+: text

theorem plainFeeds_feed (line rest : Text)
    (plain : PlainFeeds (line ++ '\n' :: rest)) : dropReturn line = line ∧ PlainFeeds rest := by
  constructor
  · rcases dropReturn_cases line with same | ended
    · exact same
    · refine absurd ?_ plain
      rw [ended]
      exact ⟨dropReturn line, rest, by simp⟩
  · rintro ⟨before, after, rfl⟩
    exact plain ⟨line ++ '\n' :: before, after, by simp⟩

theorem plainFeeds_append (line rest : Text) (free : '\n' ∉ line)
    (same : dropReturn line = line) (later : PlainFeeds rest) :
    PlainFeeds (line ++ '\n' :: rest) := by
  rintro ⟨before, after, found⟩
  rw [List.append_assoc, List.append_eq_append_iff] at found
  rcases found with ⟨part, rfl, behind⟩ | ⟨part, rfl, behind⟩
  · cases part with
    | nil => cases behind
    | cons c part =>
      cases part with
      | nil =>
        -- The carriage return is the end of the line and would be dropped.
        cases behind
        have shorter := congrArg List.length same
        rw [dropReturn_append, List.length_append] at shorter
        simp at shorter
      | cons d part =>
        cases behind
        simp at free
  · cases part with
    | nil => cases behind
    | cons c part =>
      cases behind
      exact later ⟨part, after, by simp⟩

theorem plainFeeds_of_free (text : Text) (free : '\r' ∉ text) : PlainFeeds text :=
  fun inside => free (inside.subset List.mem_cons_self)

end Returns

section Reading

theorem mem_lines (text line : Text) (member : line ∈ lines text) :
    '\n' ∉ line ∧ line ⊆ text := by
  induction text using line_induction with
  | empty => simp [lines, pieces, piecesWhere, cutWhere, linesOf] at member
  | last text written free =>
    rw [lines_free text written free, List.mem_singleton] at member
    subst member
    exact ⟨free, fun _ here => here⟩
  | feed first rest free ih =>
    rw [lines_feed first rest free] at member
    rcases List.mem_cons.mp member with rfl | later
    · have inside := dropReturn_subset first
      exact ⟨fun feed => free (inside feed), fun c here => List.mem_append_left _ (inside here)⟩
    · obtain ⟨whole, inside⟩ := ih later
      exact ⟨whole, fun c here => by simp [inside here]⟩

theorem linesOf_append (front back : List Text) (ended : back ≠ []) :
    linesOf (front ++ back) = front.map dropReturn ++ linesOf back := by
  induction front with
  | nil => rfl
  | cons piece front ih =>
    obtain ⟨next, later, split⟩ := List.exists_cons_of_ne_nil
      (List.append_ne_nil_of_right_ne_nil front ended)
    rw [List.cons_append, List.map_cons, List.cons_append, ← ih, split, linesOf]
    exact nofun

theorem pieces_unlines (lines : List Text) (free : ∀ line ∈ lines, '\n' ∉ line) :
    pieces (unlines lines) = lines ++ [[]] := by
  induction lines with
  | nil => rfl
  | cons line lines ih =>
    rw [unlines_cons, pieces_feed line _ (free line List.mem_cons_self),
      ih fun next member => free next (List.mem_cons_of_mem line member), List.cons_append]

-- A text that holds line feeds is several lines.
theorem lines_unlines_pieces (texts : List Text) :
    Text.lines (unlines texts) = texts.flatMap fun text => (pieces text).map dropReturn := by
  induction texts with
  | nil => rfl
  | cons text texts ih =>
    have cut : pieces (text ++ '\n' :: unlines texts) = pieces text ++ pieces (unlines texts) :=
      piecesWhere_mark _ text (unlines texts) '\n' rfl
    have later : pieces (unlines texts) ≠ [] := by simp [pieces, piecesWhere]
    rw [unlines_cons, lines, cut, linesOf_append _ _ later, List.flatMap_cons, ← ih]
    rfl

theorem lines_unlines (lines : List Text) (free : ∀ line ∈ lines, '\n' ∉ line) :
    Text.lines (unlines lines) = lines.map dropReturn := by
  induction lines with
  | nil => rfl
  | cons line lines ih =>
    rw [unlines_cons, lines_feed line _ (free line List.mem_cons_self),
      ih fun next member => free next (List.mem_cons_of_mem line member), List.map_cons]

theorem lines_unlines_plain (lines : List Text) (free : ∀ line ∈ lines, '\n' ∉ line)
    (plain : PlainFeeds (unlines lines)) : Text.lines (unlines lines) = lines := by
  rw [lines_unlines lines free]
  induction lines with
  | nil => rfl
  | cons line lines ih =>
    rw [unlines_cons] at plain
    obtain ⟨same, later⟩ := plainFeeds_feed line _ plain
    rw [List.map_cons, same, ih (fun next member => free next (List.mem_cons_of_mem line member)) later]

/-- The line feed that a text ends with, if it ends with one. -/
def ending (text : Text) : Text := if text.getLast? = some '\n' then ['\n'] else []

-- Where no carriage return is dropped, a text is its lines written one below the other.
theorem join_lines (text : Text) (plain : PlainFeeds text) :
    text = join ['\n'] (lines text) ++ ending text := by
  induction text using line_induction with
  | empty => rfl
  | last text written free =>
    have other : text.getLast? ≠ some '\n' := fun here => free (List.mem_of_getLast? here)
    simp [lines_free text written free, ending, other]
  | feed line rest free ih =>
    obtain ⟨same, later⟩ := plainFeeds_feed line rest plain
    rw [lines_feed line rest free, same]
    cases found : lines rest with
    | nil =>
      rw [(lines_eq_nil_iff rest).mp found]
      simp [ending]
    | cons second others =>
      have nonempty : rest ≠ [] := by
        rintro rfl
        cases found
      have kept : ending (line ++ '\n' :: rest) = ending rest := by
        cases rest with
        | nil => exact absurd rfl nonempty
        | cons c rest => simp [ending, List.getLast?_append, List.getLast?_cons]
      rw [join_cons_cons, kept, ← found, List.append_assoc, List.append_assoc, ← ih later]
      rfl

-- The lines of joined lines are those lines, but for an empty one at the very end.
theorem lines_join (parts : List Text) (free : ∀ part ∈ parts, '\n' ∉ part)
    (plain : PlainFeeds (join ['\n'] parts)) :
    lines (join ['\n'] parts) = parts ∨
      ∃ init, parts = init ++ [[]] ∧ lines (join ['\n'] parts) = init := by
  induction parts with
  | nil => exact Or.inl rfl
  | cons first parts ih =>
    have own := free first List.mem_cons_self
    cases parts with
    | nil =>
      by_cases written : first = []
      · exact Or.inr ⟨[], by simp [written], by rw [written]; rfl⟩
      · exact Or.inl (by rw [join_single, lines_free first written own])
    | cons second parts =>
      rw [join_cons_cons, List.append_assoc] at plain ⊢
      obtain ⟨same, later⟩ := plainFeeds_feed first _ plain
      rw [List.singleton_append, lines_feed first _ own, same]
      rcases ih (fun next member => free next (List.mem_cons_of_mem first member)) later with
        whole | ⟨init, split, read⟩
      · exact Or.inl (by rw [whole])
      · exact Or.inr ⟨first :: init, by rw [split]; rfl, by rw [read]⟩

theorem count_join (c : Char) (other : c ≠ '\n') (parts : List Text) :
    (join ['\n'] parts).count c = parts.flatten.count c := by
  induction parts with
  | nil => rfl
  | cons first parts ih =>
    cases parts with
    | nil => simp
    | cons second parts =>
      have none : List.count c ['\n'] = 0 := List.count_eq_zero.mpr (by simpa using other)
      rw [join_cons_cons, List.count_append, ih, List.count_append, none, Nat.add_zero,
        ← List.count_append, ← List.flatten_cons]

theorem count_dropReturn_le (c : Char) (line : Text) : (dropReturn line).count c ≤ line.count c := by
  rcases dropReturn_cases line with same | ended
  · exact Nat.le_of_eq (by rw [same])
  · rw [ended, dropReturn_append, List.count_append]
    omega

theorem count_lines_le (c : Char) (text : Text) : (lines text).flatten.count c ≤ text.count c := by
  induction text using line_induction with
  | empty => exact Nat.zero_le _
  | last text written free => simp [lines_free text written free]
  | feed line rest free ih =>
    have first := count_dropReturn_le c line
    rw [lines_feed line rest free, List.flatten_cons, List.count_append, List.count_append,
      List.count_cons]
    omega

-- A text has no fewer carriage returns than its lines, and more where one is dropped.
theorem plainFeeds_of_count (text : Text)
    (kept : text.count '\r' ≤ (lines text).flatten.count '\r') : PlainFeeds text := by
  induction text using line_induction with
  | empty => exact plainFeeds_of_free [] (by simp)
  | last text written free =>
    exact fun inside => free (inside.subset (by simp))
  | feed line rest free ih =>
    have first := count_dropReturn_le '\r' line
    have others := count_lines_le '\r' rest
    rw [lines_feed line rest free, List.flatten_cons, List.count_append, List.count_append,
      List.count_cons_of_ne (by decide)] at kept
    refine plainFeeds_append line rest free ?_ (ih (by omega))
    rcases dropReturn_cases line with same | ended
    · exact same
    · have more := congrArg (List.count '\r') ended
      rw [List.count_append, List.count_singleton_self] at more
      omega

theorem join_injective (left right : List Text) (leftWritten : left ≠ [])
    (rightWritten : right ≠ []) (leftFree : ∀ part ∈ left, '\n' ∉ part)
    (rightFree : ∀ part ∈ right, '\n' ∉ part) (same : join ['\n'] left = join ['\n'] right) :
    left = right := by
  have read := congrArg (List.splitOn '\n') same
  rwa [join, join, List.splitOn_intercalate '\n' leftFree leftWritten,
    List.splitOn_intercalate '\n' rightFree rightWritten] at read

end Reading

end Text

end HeaderBindings
