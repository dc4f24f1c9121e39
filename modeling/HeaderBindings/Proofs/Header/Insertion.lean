import HeaderBindings.Proofs.Header.Variation

/-!
Lines put into a header. What stands below them is read as before, under higher numbers, if they leave
the reader in a state from which it goes on as before; then all that they change is what they report.
-/

namespace HeaderBindings

namespace Reader

/-- What is reported from some lines on to the end of a header. -/
def following (reader : Reader) (number : Nat) (lines : List Text) : List Note :=
  (reader.readLines number lines).2 ++ (reader.readLines number lines).1.finish

end Reader

/-- A line's number when lines have been put in below the first ones. -/
def pushed (first count number : Nat) : Nat := if number ≤ first then number else number + count

/-- A warning whose line has been moved down by lines put in below the first ones. -/
def Diagnostic.pushed (first count : Nat) (diagnostic : Diagnostic) : Diagnostic :=
  { diagnostic with line := diagnostic.line.map (HeaderBindings.pushed first count) }

/-- The warnings about a header that are among some notes on it. -/
def SourceUnit.reported (unit : SourceUnit) (notes : List Note) : List Diagnostic :=
  (warningsBy notes).map fun warning => unit.diagnostic warning.1 warning.2

theorem SourceUnit.reported_append (unit : SourceUnit) (notes later : List Note) :
    unit.reported (notes ++ later) = unit.reported notes ++ unit.reported later := by
  rw [reported, warningsBy_append, List.map_append]
  rfl

/-- Headers behind declare and report what they do whatever has been reported before. -/
theorem ClassSet.extractUnits_later {set other : ClassSet} (same : other.classes = set.classes)
    (units : List SourceUnit) :
    (Run.extractUnits other units).1.classes = (Run.extractUnits set units).1.classes ∧
      ∃ rest, (Run.extractUnits set units).1.diagnostics = set.diagnostics ++ rest ∧
        (Run.extractUnits other units).1.diagnostics = other.diagnostics ++ rest := by
  induction units generalizing set other with
  | nil => exact ⟨same, [], (List.append_nil _).symm, (List.append_nil _).symm⟩
  | cons unit units ih =>
    have classes : (other.recordAll unit.findings).classes = (set.recordAll unit.findings).classes := by
      rw [SourceUnit.findings, (other.recordAll_notes unit _).1, (set.recordAll_notes unit _).1, same]
    obtain ⟨classes', rest, kept, changed⟩ := ih classes
    rw [Run.extractUnits_cons, Run.extractUnits_cons]
    refine ⟨classes', unit.reported (notesOf unit.content) ++ rest, ?_, ?_⟩
    · rw [← List.append_assoc, SourceUnit.reported, ← ClassSet.recordAll_diagnostics]
      exact kept
    · rw [← List.append_assoc, SourceUnit.reported, ← ClassSet.recordAll_diagnostics]
      exact changed

/-- What is reported below inserted lines on which the reader does not depend. -/
theorem following_varied (before behind : List Text) (count : Nat) :
    let reader := (Reader.readLines {} 1 before).1
    NotesVaried ⟨pushed before.length count, true, (· ≤ before.length + behind.length)⟩
      (reader.following (1 + before.length) behind)
      (reader.following (1 + before.length + count) behind) := by
  intro reader
  let v : Variation := ⟨pushed before.length count, true, (· ≤ before.length + behind.length)⟩
  -- A class that is open below the inserted lines has its line above them.
  have first := Reader.readLines_renumbered (v := v) Reader.start_varied rfl 1 0 before
    (fun number _ high => if_pos (by omega)) fun number _ high => by show number ≤ _; omega
  have second := Reader.readLines_renumbered first.reader rfl (1 + before.length) count behind
    (fun number low _ => if_neg (by omega)) fun number _ high => by show number ≤ _; omega
  exact second.notes.append (Reader.finish_varied second.reader)

section Insertion

variable (path : Text) {before lines behind : List Text}
  (free : ∀ line ∈ before ++ lines ++ behind, '\n' ∉ line)

include free

/-- Lines above inserted ones have their numbers. -/
theorem line_above (number : Nat) (above : number ≤ before.length) :
    (SourceUnit.ofLines path (before ++ lines ++ behind)).line? number =
      (SourceUnit.ofLines path (before ++ behind)).line? number := by
  cases number with
  | zero => rfl
  | succ index =>
    have written : before ≠ [] := List.ne_nil_of_length_pos (by omega)
    have inner : index < before.length := by omega
    rw [SourceUnit.line_ofLines _ _ free (by simp [written]),
      SourceUnit.line_ofLines _ _ (fun line member => free line (by grind)) (by simp [written])]
    simp [List.getElem?_append_left, inner]

/-- Lines below inserted ones have higher numbers. -/
theorem line_below (number : Nat) (below : before.length < number)
    (inner : number ≤ before.length + behind.length) :
    (SourceUnit.ofLines path (before ++ lines ++ behind)).line? (number + lines.length) =
      (SourceUnit.ofLines path (before ++ behind)).line? number := by
  cases number with
  | zero => cases below
  | succ index =>
    have written : behind ≠ [] := List.ne_nil_of_length_pos (by omega)
    have low : before.length ≤ index := by omega
    rw [Nat.add_right_comm, SourceUnit.line_ofLines _ _ free (by simp [written]),
      SourceUnit.line_ofLines _ _ (fun line member => free line (by grind)) (by simp [written]),
      List.getElem?_append_right (by simp only [List.length_append]; omega),
      List.getElem?_append_right low]
    congr 2
    simp only [List.length_append]
    omega

/-- Warnings quote the same lines as before. -/
theorem diagnostic_above (number : Nat) (message : Text) (above : number ≤ before.length) :
    (SourceUnit.ofLines path (before ++ lines ++ behind)).diagnostic number message =
      (SourceUnit.ofLines path (before ++ behind)).diagnostic number message := by
  rw [SourceUnit.diagnostic, line_above path free number above]
  rfl

theorem diagnostic_pushed (number : Nat) (message : Text)
    (inner : number ≤ before.length + behind.length) :
    (SourceUnit.ofLines path (before ++ lines ++ behind)).diagnostic
        (pushed before.length lines.length number) message =
      ((SourceUnit.ofLines path (before ++ behind)).diagnostic number message).pushed before.length
        lines.length := by
  by_cases above : number ≤ before.length
  · have stays : pushed before.length lines.length number = number := if_pos above
    rw [stays, diagnostic_above path free number message above]
    simp [Diagnostic.pushed, SourceUnit.diagnostic, Diagnostic.atLine, stays]
  · have moves : pushed before.length lines.length number = number + lines.length := if_neg above
    rw [moves, SourceUnit.diagnostic, line_below path free number (by omega) inner]
    simp [Diagnostic.pushed, SourceUnit.diagnostic, Diagnostic.atLine, moves, SourceUnit.ofLines]

/-- Lines that declare no class can be put in where the reader goes on below them as it would without
them. What they report comes in between; warnings above them stay as they are, and those below them
are moved down if they speak of lines below. -/
theorem extractUnits_insertion (set : ClassSet) (later : List SourceUnit) {next : Reader}
    {notes : List Note}
    (reads : (Reader.readLines {} 1 before).1.readLines (1 + before.length) lines = (next, notes))
    (undeclared : declaredBy notes = [])
    (resumes : ∀ number, next.following number behind =
      (Reader.readLines {} 1 before).1.following number behind) :
    let kept := Run.extractUnits set (.ofLines path (before ++ behind) :: later)
    let unit := SourceUnit.ofLines path (before ++ lines ++ behind)
    let longer := Run.extractUnits set (unit :: later)
    longer.1.classes = kept.1.classes ∧
      ∃ above below rest, kept.1.diagnostics = above ++ below ++ rest ∧
        longer.1.diagnostics =
          above ++ unit.reported notes ++ below.map (Diagnostic.pushed before.length lines.length)
            ++ rest := by
  intro kept unit longer
  let first := (Reader.readLines {} 1 before).2
  let reader := (Reader.readLines {} 1 before).1
  let unit' := SourceUnit.ofLines path (before ++ behind)
  have read' : notesOf unit'.content = first ++ reader.following (1 + before.length) behind := by
    rw [SourceUnit.notesOf_ofLines path _ fun line member => free line (by grind)]
    simp only [Reader.readLines_append, Reader.following, List.append_assoc, first, reader]
  have read : notesOf unit.content =
      first ++ notes ++ reader.following (1 + before.length + lines.length) behind := by
    rw [SourceUnit.notesOf_ofLines path _ free, ← resumes]
    simp only [Reader.readLines_append, Reader.following, reads, Nat.add_assoc, List.append_assoc, first]
  have front := Reader.readLines_varied (v := ⟨(· + 0), true, (· ≤ before.length)⟩)
    Reader.start_varied rfl 1 0 rfl before fun number _ high => by show number ≤ _; omega
  have back := following_varied before behind lines.length
  have classes : (set.recordAll unit.findings).classes = (set.recordAll unit'.findings).classes := by
    rw [SourceUnit.findings, SourceUnit.findings, (set.recordAll_notes unit _).1,
      (set.recordAll_notes unit' _).1, read, read']
    simp only [declaredBy_append, undeclared, List.append_nil, back.whole rfl, reader]
  have above : unit.reported first = unit'.reported first :=
    List.map_congr_left fun warning member =>
      diagnostic_above path free warning.1 warning.2 (front.notes.known warning member)
  have below : unit.reported (reader.following (1 + before.length + lines.length) behind) =
      (unit'.reported (reader.following (1 + before.length) behind)).map
        (Diagnostic.pushed before.length lines.length) := by
    rw [SourceUnit.reported, back.warnings, SourceUnit.reported, List.map_map, List.map_map]
    exact List.map_congr_left fun warning member =>
      diagnostic_pushed path free warning.1 warning.2 (back.known warning member)
  obtain ⟨same, rest, known, known'⟩ := ClassSet.extractUnits_later classes later
  simp only [kept, longer, Run.extractUnits_cons]
  refine ⟨same, set.diagnostics ++ unit'.reported first,
    unit'.reported (reader.following (1 + before.length) behind), rest, ?_, ?_⟩
  · refine known.trans (congrArg (· ++ rest) ?_)
    rw [SourceUnit.findings, ClassSet.recordAll_diagnostics, ← SourceUnit.reported, read',
      SourceUnit.reported_append, List.append_assoc]
  · refine known'.trans (congrArg (· ++ rest) ?_)
    rw [SourceUnit.findings, ClassSet.recordAll_diagnostics, ← SourceUnit.reported, read,
      SourceUnit.reported_append, SourceUnit.reported_append, above, below]
    simp only [List.append_assoc]

end Insertion

end HeaderBindings
