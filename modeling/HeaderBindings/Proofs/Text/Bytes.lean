import HeaderBindings.Proofs.Text.Lines
import HeaderBindings.Text.Bytes

/-!
The places at which lines start, against the pieces between line feeds: there are as many places as
pieces, none of them is behind the end of the text, and those of a text below a line are the places of
the text alone, moved behind the line.
-/

namespace HeaderBindings

namespace Text

@[simp] theorem byteCount_append (first later : Text) :
    byteCount (first ++ later) = byteCount first + byteCount later := by
  induction first with
  | nil => simp [byteCount]
  | cons c first ih => simp [byteCount, ih, Nat.add_assoc]

theorem length_le_byteCount (text : Text) : text.length ≤ byteCount text := by
  induction text with
  | nil => exact Nat.le_refl _
  | cons c text ih =>
    have own := c.utf8Size_pos
    simp only [List.length_cons, byteCount]
    omega

section Slices

theorem dropBytes_cons (count : Nat) (c : Char) (text : Text) (more : 0 < count) :
    dropBytes count (c :: text) = dropBytes (count - c.utf8Size) text := by
  cases count with
  | zero => cases more
  | succ count => rfl

theorem takeBytes_cons (count : Nat) (c : Char) (text : Text) (more : 0 < count) :
    takeBytes count (c :: text) = c :: takeBytes (count - c.utf8Size) text := by
  cases count with
  | zero => cases more
  | succ count => rfl

theorem dropBytes_append (first later : Text) (count : Nat) :
    dropBytes (byteCount first + count) (first ++ later) = dropBytes count later := by
  induction first with
  | nil => simp [byteCount]
  | cons c first ih =>
    have own := c.utf8Size_pos
    have left : byteCount (c :: first) + count - c.utf8Size = byteCount first + count := by
      rw [byteCount]
      omega
    rw [List.cons_append, dropBytes_cons _ _ _ (by rw [byteCount]; omega), left, ih]

theorem takeBytes_append (first later : Text) :
    takeBytes (byteCount first) (first ++ later) = first := by
  induction first with
  | nil => cases later <;> rfl
  | cons c first ih =>
    have own := c.utf8Size_pos
    have left : byteCount (c :: first) - c.utf8Size = byteCount first := by
      rw [byteCount]
      omega
    rw [List.cons_append, takeBytes_cons _ _ _ (by rw [byteCount]; omega), left, ih]

theorem slice_front (first later : Text) : slice (first ++ later) 0 (byteCount first) = first := by
  have whole : dropBytes 0 (first ++ later) = first ++ later := by
    cases first ++ later <;> rfl
  rw [slice, whole, Nat.sub_zero, takeBytes_append]

theorem slice_append (first later : Text) (start stop : Nat) :
    slice (first ++ later) (byteCount first + start) (byteCount first + stop) =
      slice later start stop := by
  rw [slice, slice, dropBytes_append, Nat.add_sub_add_left]

end Slices

section Starts

theorem feedEnds_free (place : Nat) (line rest : Text) (free : '\n' ∉ line) :
    feedEnds place (line ++ rest) = feedEnds (place + byteCount line) rest := by
  induction line generalizing place with
  | nil => rfl
  | cons c line ih =>
    rw [List.mem_cons, not_or] at free
    rw [List.cons_append, feedEnds, if_neg (Ne.symm free.1), ih _ free.2, byteCount, Nat.add_assoc]

theorem feedEnds_shift (place : Nat) (text : Text) :
    feedEnds place text = (feedEnds 0 text).map (place + ·) := by
  have later (shift place : Nat) :
      feedEnds (shift + place) text = (feedEnds place text).map (shift + ·) := by
    induction text generalizing place with
    | nil => rfl
    | cons c text ih =>
      have next := ih (place + c.utf8Size)
      rw [← Nat.add_assoc] at next
      simp only [feedEnds]
      split
      · rw [next, List.map_cons, Nat.add_assoc]
      · exact next
  exact later place 0

theorem lineStarts_free (text : Text) (free : '\n' ∉ text) : lineStarts text = [0] := by
  have none := feedEnds_free 0 text [] free
  rw [List.append_nil] at none
  rw [lineStarts, none]
  rfl

theorem lineStarts_feed (line rest : Text) (free : '\n' ∉ line) :
    lineStarts (line ++ '\n' :: rest) =
      0 :: (lineStarts rest).map (byteCount (line ++ ['\n']) + ·) := by
  have here : byteCount (line ++ ['\n']) = byteCount line + Char.utf8Size '\n' := byteCount_append _ _
  rw [lineStarts, feedEnds_free 0 line _ free, feedEnds, if_pos rfl, Nat.zero_add, ← here,
    feedEnds_shift, lineStarts]
  rfl

theorem length_lineStarts (text : Text) : (lineStarts text).length = (pieces text).length := by
  induction text using line_induction with
  | empty => rfl
  | last text written free => rw [lineStarts_free text free, pieces_free text free]; rfl
  | feed line rest free ih =>
    rw [lineStarts_feed line rest free, pieces_feed line rest free]
    simp [ih]

theorem le_of_mem_lineStarts (text : Text) (start : Nat) (member : start ∈ lineStarts text) :
    start ≤ byteCount text := by
  induction text using line_induction generalizing start with
  | empty => simp_all [lineStarts, feedEnds]
  | last text written free =>
    rw [lineStarts_free text free, List.mem_singleton] at member
    omega
  | feed line rest free ih =>
    rw [lineStarts_feed line rest free] at member
    rcases List.mem_cons.mp member with front | later
    · omega
    · obtain ⟨inner, place, rfl⟩ := List.mem_map.mp later
      have bound := ih inner place
      have whole : line ++ '\n' :: rest = (line ++ ['\n']) ++ rest := by simp
      rw [whole, byteCount_append _ rest]
      omega

end Starts

/-- A text has no more lines than characters. -/
theorem length_lines_le (text : Text) : (lines text).length ≤ text.length := by
  induction text using line_induction with
  | empty => exact Nat.le_refl _
  | last text written free =>
    have more := List.length_pos_iff.mpr written
    rw [lines_free text written free, List.length_singleton]
    omega
  | feed line rest free ih =>
    rw [lines_feed line rest free]
    simp only [List.length_cons, List.length_append]
    omega

end Text

end HeaderBindings
