import HeaderBindings.Proofs.Text.Comments
import HeaderBindings.Proofs.Text.Lines

/-!
How a line begins, and what is left of it without the comments that share it with code. White space
in front of a line and a comment with no code behind it stay; a comment in front of code goes if it is
plain; and what is left of a line that begins with code begins with it.
-/

namespace HeaderBindings

namespace Text

open Stretch

/-- A line of code without its comments, trimmed. -/
def stripped (line : Text) : Text := trim (bare line)

/-- White space around a line makes no difference to what is left of it. -/
theorem stripped_trim (line : Text) : stripped (trim line) = stripped line := by
  obtain ⟨lead, trail, whole, before, behind⟩ := trim_parts line
  obtain ⟨gap, space, split⟩ := bareAs_trail (lead ++ trim line) trail true true behind
  rw [bareAs_free true true lead (trim line) (free_of_blank lead before), ← whole] at split
  rw [stripped, stripped, bare, bare, split, trim_indented _ _ _ before space]

theorem opened_trim (line : Text) : (opened? (trim line)).isSome = (opened? line).isSome := by
  obtain ⟨lead, trail, whole, before, behind⟩ := trim_parts line
  have kept := opened_trail (lead ++ trim line) trail behind
  rw [← whole, opened_free lead (trim line) (free_of_blank lead before)] at kept
  exact kept.symm

/-- A line that does not begin with a comment begins with code. -/
theorem begins_code (line : Text) (written : line ≠ []) (slashes : ¬ ['/', '/'] <+: line)
    (block : ¬ ['/', '*'] <+: line) :
    ∃ text rest, line = text ++ rest ∧ (Stretch.code text).Begins rest := by
  cases line with
  | nil => exact absurd rfl written
  | cons c line =>
    obtain ⟨whole, begins⟩ := Stretch.begins_first c line
    generalize (Stretch.first c line).1 = stretch at whole begins
    generalize (Stretch.first c line).2 = rest at whole begins
    cases stretch with
    | code text => exact ⟨text, rest, whole, begins⟩
    | comment text =>
      rw [whole] at slashes block
      cases begins with
      | line => exact absurd ⟨_, rfl⟩ slashes
      | block closes => exact absurd ⟨_, rfl⟩ block
    | opened text =>
      rw [whole] at block
      cases begins with
      | opened runs => exact absurd ⟨_, rfl⟩ block

/-- A line begins with white space, with a comment up to its end, with one that runs on, with one that
is closed in front of a rest of the line, or with code. -/
theorem front_induction {motive : Text → Prop} (nil : motive [])
    (lead : ∀ lead line, (∀ c ∈ lead, isBlank c = true) → motive line → motive (lead ++ line))
    (slashes : ∀ body, motive ('/' :: '/' :: body))
    (opens : ∀ body, cutAt? ['*', '/'] body = none → motive ('/' :: '*' :: body))
    (block : ∀ body rest, cutAt? ['*', '/'] (body ++ ['*', '/'] ++ rest) = some (body, rest) →
      motive rest → motive ('/' :: '*' :: (body ++ ['*', '/']) ++ rest))
    (code : ∀ line, line ≠ [] → (∀ c ∈ line.head?, isBlank c = false) → ¬ ['/', '/'] <+: line →
      ¬ ['/', '*'] <+: line → motive line) (line : Text) : motive line := by
  induction size : line.length using Nat.strongRecOn generalizing line with
  | ind n ih =>
  have whole : line.takeWhile isBlank ++ trimStart line = line := List.takeWhile_append_dropWhile
  have shorter : (trimStart line).length ≤ n := size ▸ (List.dropWhile_suffix isBlank).length_le
  have visible := head_trimStart line
  rw [← whole]
  refine lead _ _ (fun c member => List.mem_takeWhile_imp member) ?_
  generalize trimStart line = line at shorter visible
  by_cases written : line = []
  · exact written ▸ nil
  by_cases toEnd : ['/', '/'] <+: line
  · obtain ⟨body, rfl⟩ := toEnd
    exact slashes body
  by_cases opened : ['/', '*'] <+: line
  · obtain ⟨tail, rfl⟩ := opened
    rcases Token.cutAt_none_or ['*', '/'] tail with runs | ⟨body, rest, rfl, closes⟩
    · exact opens tail runs
    · refine block body rest closes (ih rest.length ?_ rest rfl)
      simp only [List.length_append, List.length_cons] at shorter
      omega
  · exact code line written visible toEnd opened

section Code

variable {line : Text} (written : line ≠ []) (slashes : ¬ ['/', '/'] <+: line)
  (block : ¬ ['/', '*'] <+: line)

include written slashes block

theorem isCoded_of_code (visible : ∀ c ∈ line.head?, isBlank c = false) : isCoded line = true := by
  obtain ⟨text, rest, rfl, begins⟩ := begins_code line written slashes block
  obtain ⟨c, later, whole, _⟩ := Stretch.first_of_begins begins
  have same : text = c :: later := whole
  subst same
  have coded := isCoded_begins begins
  have seen := visible c rfl
  simp only [Stretch.text] at coded
  rw [coded]
  simp [Stretch.isVisibleCode, seen]

theorem head_bare : (bare line).head? = line.head? := by
  obtain ⟨text, rest, rfl, begins⟩ := begins_code line written slashes block
  obtain ⟨c, later, whole, _⟩ := Stretch.first_of_begins begins
  have same : text = c :: later := whole
  subst same
  have bared := bareAs_begins true true begins
  simp only [Stretch.text, Stretch.bareAs] at bared
  rw [bare, bared]
  rfl

/-- What is left of a line of code without its comments, with the white space behind it. -/
theorem bare_stripped (visible : ∀ c ∈ line.head?, isBlank c = false) :
    bare line = line.stripped ++ ((bare line).reverse.takeWhile isBlank).reverse ∧
      line.stripped.head? = line.head? := by
  have head := head_bare written slashes block
  have start : trimStart (bare line) = bare line := trimStart_of_head _ (head ▸ visible)
  have whole := trimEnd_append (bare line)
  rw [stripped, trim, start]
  refine ⟨whole, ?_⟩
  cases left : trimEnd (bare line) with
  | cons c rest =>
    rw [← head, whole, left]
    rfl
  | nil =>
    -- A line of white space would not begin with code.
    obtain ⟨c, rest, rfl⟩ := List.exists_cons_of_ne_nil written
    rw [left, List.nil_append] at whole
    rw [whole] at head
    have blank := List.mem_takeWhile_imp (List.mem_reverse.mp (List.mem_of_mem_head? head))
    simp [visible c rfl] at blank

end Code

section Rest

variable (below : List Text)

/-- White space in front of a line stays there. -/
theorem bareRest_lead (lead line : Text) (blank : ∀ c ∈ lead, isBlank c = true) :
    isCoded (lead ++ line) = isCoded line ∧
      bareRest below (lead ++ line) = lead ++ bareRest below line ∧
      running? below (lead ++ line) = running? below line := by
  have free := free_of_blank lead blank
  have nothing : lead.any (!isBlank ·) = false := by simpa using blank
  have coded := isCoded_free lead line free
  rw [nothing, Bool.false_or] at coded
  simp only [bareRest, running?, coded, bareAs_free _ _ lead line free,
    opened_free lead line free, and_self]

/-- A comment up to the end of a line stays, if it has no code in front. -/
theorem bareRest_slashes (body : Text) :
    isCoded ('/' :: '/' :: body) = false ∧
      bareRest below ('/' :: '/' :: body) = '/' :: '/' :: body ∧
      running? below ('/' :: '/' :: body) = none := by
  have alone : stretches ('/' :: '/' :: body) = [.comment ('/' :: '/' :: body)] :=
    stretches_alone .line
  have uncoded : isCoded ('/' :: '/' :: body) = false := by
    rw [isCoded, alone]
    rfl
  refine ⟨uncoded, ?_, ?_⟩
  · rw [bareRest, uncoded, bareAs, alone]
    exact List.append_nil _
  · rw [running?, opened?, alone]
    rfl

/-- A comment that runs on from the front of a line goes if it is plain and ends in front of code. -/
theorem bareRest_opens (body : Text) (runs : cutAt? ['*', '/'] body = none) :
    isCoded ('/' :: '*' :: body) = false ∧
      bareRest below ('/' :: '*' :: body) =
        (if closesOnCode below && !isDoc ('/' :: '*' :: body) then whiten ('/' :: '*' :: body)
          else '/' :: '*' :: body) ∧
      running? below ('/' :: '*' :: body) =
        some (closesOnCode below && !isDoc ('/' :: '*' :: body)) := by
  have alone : stretches ('/' :: '*' :: body) = [.opened ('/' :: '*' :: body)] :=
    stretches_alone (.opened runs)
  have uncoded : isCoded ('/' :: '*' :: body) = false := by
    rw [isCoded, alone]
    rfl
  refine ⟨uncoded, ?_, ?_⟩
  · rw [bareRest, uncoded, bareAs, alone, Bool.false_or]
    exact List.append_nil _
  · rw [running?, uncoded, opened?, alone]
    rfl

/-- A comment that is closed at the front of a line goes if it is plain and has code behind it. -/
theorem bareRest_comment {comment rest : Text} (begins : Begins (.comment comment) rest) :
    isCoded (comment ++ rest) = isCoded rest ∧
      bareRest below (comment ++ rest) =
        (if isCoded rest && !isDoc comment then whiten comment else comment) ++ bareRest below rest ∧
      running? below (comment ++ rest) = running? below rest := by
  have coded : isCoded (comment ++ rest) = isCoded rest := isCoded_begins begins
  have ends : opened? (comment ++ rest) = opened? rest := opened_begins begins
  rw [bareRest, running?, coded, ends]
  exact ⟨rfl, bareAs_begins _ _ begins, rfl⟩

-- All comments behind code go.
theorem bareRest_coded (line : Text) (coded : isCoded line = true) :
    bareRest below line = bare line := by
  rw [bareRest, coded]
  rfl

theorem trim_slash (c : Char) (text : Text) (visible : isBlank c = false) :
    trim ('/' :: c :: text) = '/' :: c :: trimEnd text := by
  have last : ∀ d ∈ ['/', c].getLast?, isBlank d = false := by simpa using visible
  exact trim_append_visible ['/', c] text (by simp) last

theorem bareRest_ofSlashes (raw : Text) (slashes : ['/', '/'] <+: trim raw) :
    bareRest below raw = raw ∧ running? below raw = none := by
  obtain ⟨lead, trail, whole, blank, _⟩ := trim_parts raw
  obtain ⟨body, front⟩ := slashes
  have split : raw = lead ++ '/' :: '/' :: (body ++ trail) := by
    rw [whole, ← front]
    simp
  obtain ⟨_, bared, running⟩ := bareRest_lead below lead ('/' :: '/' :: (body ++ trail)) blank
  obtain ⟨_, stays, ends⟩ := bareRest_slashes below (body ++ trail)
  rw [split, bared, running, stays]
  exact ⟨rfl, ends⟩

/-- What is left of a line begins with a comment up to its end only if the line does, and all of it is
left. -/
theorem bareRest_startsSlashes (raw : Text) (slashes : ['/', '/'] <+: trim (bareRest below raw)) :
    isCoded raw = false ∧ bareRest below raw = raw ∧ running? below raw = none := by
  induction raw using front_induction with
  | nil => simp [bareRest, trim, trimStart, trimEnd] at slashes
  | lead lead line blank ih =>
    obtain ⟨coded, bared, running⟩ := bareRest_lead below lead line blank
    rw [bared, trim_blank_append lead _ blank] at slashes
    obtain ⟨uncoded, stays, ends⟩ := ih slashes
    rw [coded, bared, running, stays]
    exact ⟨uncoded, rfl, ends⟩
  | slashes body => exact bareRest_slashes below body
  | opens body runs =>
    rw [(bareRest_opens below body runs).2.1] at slashes
    split at slashes
    · have nothing : trim (whiten ('/' :: '*' :: body)) = [] :=
        trim_append_blank [] (whiten ('/' :: '*' :: body)) (blank_whiten _)
      simp [nothing] at slashes
    · rw [trim_slash '*' body (by decide)] at slashes
      simp at slashes
  | block body rest closes ih =>
    obtain ⟨_, bared, _⟩ := bareRest_comment below (.block closes)
    rw [bared] at slashes
    split at slashes
    · next goes =>
      rw [trim_blank_append _ _ (blank_whiten _)] at slashes
      simp [(ih slashes).1] at goes
    · rw [List.cons_append, List.cons_append, trim_slash '*' _ (by decide)] at slashes
      simp at slashes
  | code line written visible slashes' block =>
    have coded := isCoded_of_code written slashes' block visible
    obtain ⟨whole, _⟩ := bare_stripped written slashes' block visible
    rw [bareRest_coded below line coded] at slashes
    have front : ['/', '/'] <+: bare line := slashes.trans ⟨_, whole.symm⟩
    exact absurd (prefix_of_bareAs true true line _ (by decide) front) slashes'

end Rest

section Lines

theorem feed_whiten (text : Text) : '\n' ∉ whiten text := by
  rw [whiten, List.mem_map]
  rintro ⟨c, _, same⟩
  split at same
  · next feed => exact absurd (feed.symm.trans same) (by decide)
  · exact absurd same (by decide)

theorem feed_bareRest (below : List Text) (line : Text) (free : '\n' ∉ line) :
    '\n' ∉ bareRest below line :=
  fun member => (mem_bareAs _ _ line '\n' member).elim free (by decide)

/-- Lines stay lines without their comments, and as many. -/
theorem bareLines_lines (open? : Option Bool) (lines : List Text) (free : ∀ line ∈ lines, '\n' ∉ line) :
    (bareLines open? lines).length = lines.length ∧
      ∀ line ∈ bareLines open? lines, '\n' ∉ line := by
  induction lines generalizing open? with
  | nil => exact ⟨rfl, fun _ member => nomatch member⟩
  | cons line below ih =>
    have own := free line List.mem_cons_self
    have later {line' : Text} {next? : Option Bool} (inside : '\n' ∉ line') :
        (line' :: bareLines next? below).length = (line :: below).length ∧
          ∀ other ∈ line' :: bareLines next? below, '\n' ∉ other := by
      obtain ⟨count, others⟩ := ih next? fun other member => free other (List.mem_cons_of_mem _ member)
      refine ⟨congrArg (· + 1) count, fun other member => ?_⟩
      rcases List.mem_cons.mp member with rfl | inner
      · exact inside
      · exact others other inner
    cases open? with
    | none => exact later (feed_bareRest below line own)
    | some goes =>
      rw [bareLines]
      cases closes : cutAt? ['*', '/'] line with
      | none =>
        refine later ?_
        split
        · exact feed_whiten line
        · exact own
      | some cut =>
        have whole := eq_of_cutAt _ _ _ _ closes
        refine later fun member => ?_
        rcases List.mem_append.mp member with comment | rest
        · split at comment
          · exact feed_whiten _ comment
          · exact own (whole ▸ List.mem_append_left _ comment)
        · exact feed_bareRest below cut.2
            (fun inner => own (whole ▸ List.mem_append_right _ inner)) rest

/-- The lines of a text without the comments that share a line with code. -/
theorem pieces_uncommented (content : Text) :
    pieces (uncommented content) = bareLines none content.pieces := by
  obtain ⟨count, free⟩ := bareLines_lines none content.pieces (mem_pieces content)
  refine pieces_join _ ?_ free
  rw [← List.length_pos_iff, count]
  exact Nat.succ_pos _

end Lines

end Text

end HeaderBindings
