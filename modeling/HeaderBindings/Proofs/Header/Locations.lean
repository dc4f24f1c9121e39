import HeaderBindings.Proofs.Header.Variation

/-!
Where the warnings about a header point. A line's number has the text of that line, and every warning is
given at a line that the header has, with the header's path and the line quoted, however far from the
beginning of the declaration the fault shows.
-/

namespace HeaderBindings

namespace Text

theorem dropTrailing_dropReturn (line : Text) :
    dropTrailing (· == '\r') line.dropReturn = dropTrailing (· == '\r') line := by
  rcases dropReturn_cases line with same | ended
  · rw [same]
  · have dropped := dropTrailing_append (· == '\r') line.dropReturn ['\r'] (by decide)
    rw [← dropped, ← ended]

/-- A line is one of the pieces between line feeds, less a carriage return. -/
theorem pieces_of_lines (text : Text) (index : Nat) (line : Text)
    (here : (lines text)[index]? = some line) :
    (pieces text)[index]?.map (dropTrailing (· == '\r')) = some (dropTrailing (· == '\r') line) := by
  induction text using line_induction generalizing index with
  | empty => cases here
  | last text written free =>
    rw [lines_free text written free] at here
    rw [pieces_free text free, here]
    rfl
  | feed first rest free ih =>
    rw [lines_feed first rest free] at here
    rw [pieces_feed first rest free]
    cases index with
    | zero =>
      cases here
      exact congrArg some (dropTrailing_dropReturn first).symm
    | succ index => exact ih index here

end Text

namespace SourceUnit

variable (unit : SourceUnit)

/-- A line that is counted is found under its number. -/
theorem line_of_lines (index : Nat) (line : Text) (here : unit.content.lines[index]? = some line) :
    unit.line? (index + 1) = some (line.dropTrailing (· == '\r')) := by
  rw [unit.line_succ, Text.pieces_of_lines _ _ _ here]

/-- No line is found under a number beyond those of the places at which lines start. -/
theorem line_beyond (number : Nat) (beyond : unit.content.lineStarts.length < number) :
    unit.line? number = none := by
  cases number with
  | zero => rfl
  | succ index =>
    rw [Text.length_lineStarts] at beyond
    rw [unit.line_succ, List.getElem?_eq_none (by omega)]
    rfl

/-- Notes that warn do so at lines of the header. -/
theorem warned_lines :
    ∀ warning ∈ warningsBy (notesOf unit.content),
      1 ≤ warning.1 ∧ warning.1 ≤ unit.content.lines.length := by
  let v : Variation :=
    ⟨(· + 0), true, fun number => 1 ≤ number ∧ number ≤ unit.content.lines.length⟩
  -- Reading is compared with itself; what counts is that only lines that are read are spoken of.
  have read := Reader.readLines_varied (v := v) Reader.start_varied rfl 1 0 rfl unit.content.lines
    fun number low high => ⟨low, by omega⟩
  have whole := read.notes.append (Reader.finish_varied read.reader)
  exact whole.known

end SourceUnit

/-- A warning points at a line of a header: it has the header's path, the line's number and the line,
quoted without the white space around it. -/
def Diagnostic.PointsInto (diagnostic : Diagnostic) (unit : SourceUnit) : Prop :=
  ∃ index line, unit.content.lines[index]? = some line ∧ diagnostic.path = some unit.path ∧
    diagnostic.line = some (index + 1) ∧
    diagnostic.help = some ("in `".toList ++ line.trim ++ ['`'])

theorem SourceUnit.diagnostic_of_line (unit : SourceUnit) (index : Nat) (line message : Text)
    (here : unit.content.lines[index]? = some line) :
    unit.diagnostic (index + 1) message =
      { message := message, path := some unit.path, line := some (index + 1),
        help := some ("in `".toList ++ line.trim ++ ['`']) } := by
  have trimmed := Text.trim_dropTrailing (· == '\r') (by
    intro c returned
    rw [beq_iff_eq.mp returned]
    decide) line
  rw [SourceUnit.diagnostic, unit.line_of_lines index line here, Option.map_some, trimmed]
  rfl

theorem SourceUnit.pointsInto_diagnostic (unit : SourceUnit) (number : Nat) (message : Text)
    (positive : 1 ≤ number) (inner : number ≤ unit.content.lines.length) :
    (unit.diagnostic number message).PointsInto unit := by
  obtain ⟨index, rfl⟩ := Nat.exists_eq_add_of_le' positive
  obtain ⟨line, here⟩ : ∃ line, unit.content.lines[index]? = some line :=
    ⟨_, List.getElem?_eq_getElem (by omega)⟩
  rw [unit.diagnostic_of_line index line message here]
  exact ⟨index, line, here, rfl, rfl, rfl⟩

/-- What reading a header adds to the warnings points into the header. -/
theorem SourceUnit.located (unit : SourceUnit) (set : ClassSet) :
    ∃ own, (Run.extractUnits set [unit]).1.diagnostics = set.diagnostics ++ own ∧
      ∀ diagnostic ∈ own, diagnostic.PointsInto unit := by
  rw [Run.extractUnits_single]
  refine ⟨_, ClassSet.recordAll_diagnostics set unit (notesOf unit.content), fun diagnostic member => ?_⟩
  obtain ⟨warning, known, rfl⟩ := List.mem_map.mp member
  obtain ⟨low, high⟩ := unit.warned_lines warning known
  exact unit.pointsInto_diagnostic warning.1 warning.2 low high

/-- Warnings point at lines that are there. In a header of fewer bytes than a word of 32 bits counts, the
numbers of lines and the places at which they start are such words; each line is found under its number,
without carriage returns at the end, nothing is found under zero or beyond the last place, and each
warning that reading the header adds points into it. -/
theorem SourceUnit.numbered (unit : SourceUnit) (small : unit.content.byteCount < UInt32.size) :
    (∀ start ∈ unit.content.lineStarts, start < UInt32.size) ∧ unit.content.lines.length < UInt32.size ∧
      (∀ index line, unit.content.lines[index]? = some line →
        unit.line? (index + 1) = some (line.dropTrailing (· == '\r'))) ∧
      unit.line? 0 = none ∧
      (∀ number, unit.content.lineStarts.length < number → unit.line? number = none) ∧
      ∀ set : ClassSet, ∃ own,
        (Run.extractUnits set [unit]).1.diagnostics = set.diagnostics ++ own ∧
          ∀ diagnostic ∈ own, diagnostic.PointsInto unit := by
  refine ⟨fun start member => ?_, ?_, unit.line_of_lines, rfl, unit.line_beyond, unit.located⟩
  · have inner := Text.le_of_mem_lineStarts unit.content start member
    omega
  · have lines := Text.length_lines_le unit.content
    have bytes := Text.length_le_byteCount unit.content
    omega

/-- A header with carriage returns: a member behind a comment on its line, a member on several lines and
the class, which is not closed, are all reported. -/
def returnedHeader : SourceUnit where
  path := "Panel.h".toList
  content :=
    "@interface Panel : NSObject\r\n/* é */ - first;\r\n\r\n  - (void\r\n  second;\r\n".toList

theorem numbered_returnedHeader :
    returnedHeader.content.byteCount < UInt32.size ∧
      (∀ start ∈ returnedHeader.content.lineStarts, start < UInt32.size) ∧
      returnedHeader.content.lines.length < UInt32.size ∧
      (∀ index line, returnedHeader.content.lines[index]? = some line →
        returnedHeader.line? (index + 1) = some (line.dropTrailing (· == '\r'))) ∧
      returnedHeader.line? 0 = none ∧
      (∀ number, returnedHeader.content.lineStarts.length < number →
        returnedHeader.line? number = none) ∧
      ∀ set : ClassSet, ∃ own,
        (Run.extractUnits set [returnedHeader]).1.diagnostics = set.diagnostics ++ own ∧
          ∀ diagnostic ∈ own, diagnostic.PointsInto returnedHeader := by
  have small : returnedHeader.content.byteCount < UInt32.size := by decide +kernel
  exact ⟨small, returnedHeader.numbered small⟩

-- The warnings are given at the second, the fourth and the first line.
example :
    (Run.extractUnits .empty [returnedHeader]).1.diagnostics.map
        (fun diagnostic => (diagnostic.line, diagnostic.help)) =
      [(some 2, some "in `/* é */ - first;`".toList), (some 4, some "in `- (void`".toList),
       (some 1, some "in `@interface Panel : NSObject`".toList)] := by
  decide +kernel

end HeaderBindings
