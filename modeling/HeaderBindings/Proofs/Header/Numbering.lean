import HeaderBindings.Header.Note
import HeaderBindings.Proofs.Text.Bytes
import HeaderBindings.Proofs.Text.Trimming

/-!
Looking a line up by its number. What is cut out between the starts of two lines is what stands between
line feeds, so a number has the text of the line that is counted with it.
-/

namespace HeaderBindings

namespace Text

theorem dropTrailing_append (unwanted : Char → Bool) (text trail : Text)
    (gone : ∀ c ∈ trail, unwanted c = true) :
    dropTrailing unwanted (text ++ trail) = dropTrailing unwanted text := by
  have dropped : trail.reverse.dropWhile unwanted = [] := by
    rw [List.dropWhile_eq_nil_iff]
    exact fun c member => gone c (List.mem_reverse.mp member)
  simp [dropTrailing, List.dropWhile_append, dropped]

/-- Where there is no line feed, only carriage returns can be dropped from the end. -/
theorem dropTrailing_feed (line : Text) (free : '\n' ∉ line) :
    dropTrailing (fun c => c == '\r' || c == '\n') line = dropTrailing (· == '\r') line := by
  have same : ∀ c ∈ line.reverse, (c == '\r' || c == '\n') = (c == '\r') := by
    intro c member
    have other := not_feed line free c (List.mem_reverse.mp member)
    rw [other, Bool.or_false]
  have dropped : line.reverse.dropWhile (fun c => c == '\r' || c == '\n') =
      line.reverse.dropWhile (· == '\r') := by
    generalize line.reverse = text at same
    induction text with
    | nil => rfl
    | cons c text ih =>
      have later := ih fun d member => same d (List.mem_cons_of_mem c member)
      simp only [List.dropWhile_cons, same c List.mem_cons_self, later]
  rw [dropTrailing, dropTrailing, dropped]

end Text

namespace SourceUnit

variable (path : Text)

theorem line_first (line rest : Text) (free : '\n' ∉ line) :
    (⟨path, line ++ '\n' :: rest⟩ : SourceUnit).line? 1 =
      some (Text.dropTrailing (· == '\r') line) := by
  have whole : line ++ '\n' :: rest = (line ++ ['\n']) ++ rest := by simp
  -- The second line starts behind the first line feed.
  have next : ((Text.lineStarts rest).map (Text.byteCount (line ++ ['\n']) + ·))[0]? =
      some (Text.byteCount (line ++ ['\n'])) := rfl
  simp only [line?, Text.lineStarts_feed line rest free, List.getElem?_cons_zero,
    List.getElem?_cons_succ, next, Option.map_some, Option.getD_some]
  rw [whole, Text.slice_front, Text.dropTrailing_append _ _ _ (by decide),
    Text.dropTrailing_feed line free]

theorem line_later (line rest : Text) (free : '\n' ∉ line) (index : Nat) :
    (⟨path, line ++ '\n' :: rest⟩ : SourceUnit).line? (index + 2) =
      (⟨path, rest⟩ : SourceUnit).line? (index + 1) := by
  have whole : line ++ '\n' :: rest = (line ++ ['\n']) ++ rest := by simp
  simp only [line?, Text.lineStarts_feed line rest free, List.getElem?_cons_succ, List.getElem?_map,
    Option.map_map]
  refine Option.map_congr fun start _ => ?_
  have stop : (Option.map (Text.byteCount (line ++ ['\n']) + ·) (Text.lineStarts rest)[index + 1]?).getD
        (Text.byteCount (line ++ '\n' :: rest)) =
      Text.byteCount (line ++ ['\n']) +
        ((Text.lineStarts rest)[index + 1]?).getD (Text.byteCount rest) := by
    rw [whole, Text.byteCount_append _ rest]
    cases (Text.lineStarts rest)[index + 1]? <;> rfl
  simp only [Function.comp_apply, stop]
  rw [whole, Text.slice_append]

theorem line_last (text : Text) (free : '\n' ∉ text) :
    (⟨path, text⟩ : SourceUnit).line? 1 = some (Text.dropTrailing (· == '\r') text) := by
  have sliced := Text.slice_front text []
  rw [List.append_nil] at sliced
  simp [line?, Text.lineStarts_free text free, sliced, Text.dropTrailing_feed text free]

/-- A line is what stands between two line feeds, less carriage returns at the end. -/
theorem line_succ (unit : SourceUnit) (index : Nat) :
    unit.line? (index + 1) = unit.content.pieces[index]?.map (Text.dropTrailing (· == '\r')) := by
  obtain ⟨path, content⟩ := unit
  have ended (text : Text) (free : '\n' ∉ text) (index : Nat) :
      (⟨path, text⟩ : SourceUnit).line? (index + 1) =
        text.pieces[index]?.map (Text.dropTrailing (· == '\r')) := by
    rw [Text.pieces_free text free]
    cases index with
    | zero => exact line_last path text free
    | succ index => simp [line?, Text.lineStarts_free text free]
  induction content using Text.line_induction generalizing index with
  | empty => exact ended [] (by simp) index
  | last text written free => exact ended text free index
  | feed line rest free ih =>
    rw [Text.pieces_feed line rest free]
    cases index with
    | zero => exact line_first path line rest free
    | succ index => rw [line_later path line rest free, ih index, List.getElem?_cons_succ]

end SourceUnit

end HeaderBindings
