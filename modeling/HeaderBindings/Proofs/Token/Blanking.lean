import HeaderBindings.Proofs.Text.Comments
import HeaderBindings.Proofs.Token.Joining

/-!
Comments and tokens. A line without its comments has the same tokens; so it has when another line is
joined to it, if its last token has ended there. The white space that a comment leaves at the end of
its line may be trimmed.
-/

namespace HeaderBindings

open Text

namespace Token

section Bare

variable {token? : Option Token} {taken rest : Text}

/-- What a step takes stays when comments go, or is a comment and leaves white space. -/
theorem bare_step (step : Step token? taken rest) (feed : '\n' ∉ taken ++ rest)
    (closed : opened? (taken ++ rest) = none) :
    opened? rest = none ∧
      (bare (taken ++ rest) = taken ++ bare rest ∨
        (token? = none ∧ ∃ gap, (∀ c ∈ gap, isGap c = true) ∧
          bare (taken ++ rest) = gap ++ bare rest)) := by
  have free (inside : IsFree taken) :
      opened? rest = none ∧ bare (taken ++ rest) = taken ++ bare rest :=
    ⟨opened_free taken rest inside ▸ closed, bareAs_free true true taken rest inside⟩
  have begins (stretch : Stretch) (whole : stretch.text = taken) (begins : stretch.Begins rest) :
      stretch.opened? = none ∧ opened? rest = none ∧
        bare (taken ++ rest) = stretch.bareAs true true ++ bare rest := by
    subst whole
    rw [opened_begins begins, Option.or_eq_none_iff] at closed
    exact ⟨closed.1, closed.2, bareAs_begins true true begins⟩
  cases step with
  | @gap c rest blank =>
    have apart : IsFree [c] := by
      constructor <;> rw [List.mem_singleton] <;> rintro rfl <;> cases blank
    exact ⟨(free apart).1, Or.inl (free apart).2⟩
  | token spells ends =>
    rcases spells.plain with ⟨body, rfl, string⟩ | plain
    · obtain ⟨_, shut, whole⟩ := begins (.code ('"' :: body)) rfl (.string string)
      exact ⟨shut, Or.inl whole⟩
    · have apart : IsFree taken :=
        ⟨fun member => (plain _ member).2.1 rfl, fun member => (plain _ member).2.2 rfl⟩
      exact ⟨(free apart).1, Or.inl (free apart).2⟩
  | sign ends =>
    have apart : IsFree ['@'] := by simp [IsFree]
    exact ⟨(free apart).1, Or.inl (free apart).2⟩
  | slash ends =>
    obtain ⟨_, shut, whole⟩ := begins (.code ['/']) rfl (.plain (by decide) fun _ => ends)
    exact ⟨shut, Or.inl whole⟩
  | @block body rest closes =>
    obtain ⟨_, shut, whole⟩ := begins (.comment _) rfl (.block closes)
    refine ⟨shut, ?_⟩
    simp only [Stretch.bareAs, Bool.true_and] at whole
    split at whole
    · exact Or.inr ⟨rfl, _, gap_whiten _, whole⟩
    · exact Or.inl whole
  | @line body rest inside ends =>
    have last : rest = [] := ends.resolve_right fun head =>
      feed (List.mem_append_right _ (List.mem_of_mem_head? head))
    subst last
    obtain ⟨_, shut, whole⟩ := begins (.comment ('/' :: '/' :: body)) rfl .line
    refine ⟨shut, ?_⟩
    simp only [Stretch.bareAs, Bool.true_and] at whole
    split at whole
    · exact Or.inr ⟨rfl, _, gap_whiten _, whole⟩
    · exact Or.inl whole
  | openBlock closes =>
    obtain ⟨runs, _⟩ := begins (.opened _) rfl (.opened closes)
    cases runs
  | @openString body rest closes ends =>
    have last : rest = [] := by
      rcases (afterBrokenString_spec (body ++ rest)).2 with none | head
      · exact ends ▸ none
      · rw [ends] at head
        exact absurd (List.mem_append_right _ (List.mem_of_mem_head? head)) feed
    subst last
    rw [List.append_nil] at closes
    obtain ⟨_, shut, whole⟩ := begins (.code ('"' :: body)) rfl (.broken closes)
    exact ⟨shut, Or.inl whole⟩

-- Up to the first comment that goes, a line stays as it is.
theorem bare_front (line : Text) :
    ∃ front changed tail, line = front ++ changed ∧ bare line = front ++ tail ∧
      (changed = [] → tail = []) ∧ ∀ c ∈ tail.head?, isGap c = true := by
  induction line using stretch_induction with
  | nil => exact ⟨[], [], [], rfl, by simp [bare], fun _ => rfl, by simp⟩
  | stretch stretch rest begins ih =>
    have whole := bareAs_begins true true begins
    rw [← bare, ← bare] at whole
    rcases stretch.bareAs_cases true true with same | same
    · obtain ⟨front, changed, tail, line, bared, last, gap⟩ := ih
      refine ⟨stretch.text ++ front, changed, tail, ?_, ?_, last, gap⟩
      · rw [line, List.append_assoc]
      · rw [whole, same, bared, List.append_assoc]
    · have written := begins.length_pos
      refine ⟨[], stretch.text ++ rest, whiten stretch.text ++ bare rest, rfl, ?_, ?_, ?_⟩
      · rw [whole, same]
        rfl
      · intro none
        rw [List.append_eq_nil_iff] at none
        simp [none.1] at written
      · intro c head
        cases text : stretch.text with
        | nil => simp [text] at written
        | cons d text' =>
          rw [text] at head
          exact gap_whiten (d :: text') c (List.mem_of_mem_head? head)

theorem step_bare {behind : Text} (step : Step token? taken (rest ++ behind))
    (feed : '\n' ∉ rest ++ behind) (gap : ∀ c ∈ behind.head?, isGap c = true) :
    Step token? taken (bare rest ++ behind) := by
  obtain ⟨front, changed, tail, line, bared, last, blank⟩ := bare_front rest
  rw [line, List.append_assoc] at step feed
  rw [bared, List.append_assoc]
  by_cases none : changed = []
  · rw [last none]
    rwa [none] at step
  · refine step.before_gap (by simp [none]) feed ?_
    intro c head
    rw [List.head?_append, Option.mem_def, Option.or_eq_some_iff] at head
    rcases head with here | ⟨_, later⟩
    · exact blank c here
    · exact gap c later

/-- A line has the same tokens without its comments. -/
theorem lex_bare (line : Text) (feed : '\n' ∉ line) (closed : opened? line = none) :
    lex (bare line) = lex line := by
  induction line using step_induction with
  | nil => simp [bare]
  | step token? taken rest step ih =>
    have inside : '\n' ∉ rest := fun member => feed (List.mem_append_right _ member)
    obtain ⟨shut, same⟩ := bare_step step feed closed
    have later := ih inside shut
    rw [lex_step step, ← later]
    rcases same with whole | ⟨rfl, gap, blank, whole⟩
    · have again : Step token? taken (bare rest ++ []) :=
        step_bare (by simpa using step) (by simpa using inside) (by simp)
      rw [List.append_nil] at again
      rw [whole, lex_step again]
    · rw [whole, lex_gap gap _ blank]
      rfl

end Bare

section Settled

/-- The last token of a text has ended where the text ends: a line joined to the text is read apart
from it. -/
def Settles (text : Text) : Prop := [' '] ∈ stops (text ++ [' '])

instance (text : Text) : Decidable (Settles text) := inferInstanceAs (Decidable (_ ∈ _))

theorem settles_iff (text : Text) :
    Settles text ↔ ∃ tokens, Reads tokens (text ++ [' ']) [' '] := mem_stops_iff _ _

theorem Reads.gap {tokens : List Token} {text rest : Text} (gap : Text)
    (blank : ∀ c ∈ gap, isGap c = true) (reads : Reads tokens text rest) :
    Reads tokens (gap ++ text) rest := by
  induction gap with
  | nil => exact reads
  | cons c gap ih =>
    have later := ih fun d member => blank d (List.mem_cons_of_mem c member)
    exact .step (.gap (blank c List.mem_cons_self)) later

-- Behind a stop, the lexer comes to stand where it does when it begins there.
theorem Reads.mem_stops_iff {tokens : List Token} {text rest : Text} (reads : Reads tokens text rest)
    (other : Text) (short : other.length ≤ rest.length) : other ∈ stops text ↔ other ∈ stops rest := by
  induction reads with
  | here text => rfl
  | @step token? tokens taken middle rest step later ih =>
    have longer := step.length_pos
    have inner := later.suffix.length_le
    have apart : other ≠ taken ++ middle := by
      rintro rfl
      rw [List.length_append] at short
      omega
    rw [stops_step step, List.mem_cons, or_iff_right apart, ih short]

variable {text line : Text}

theorem Settles.reads (settles : Settles text) (feed : '\n' ∉ text) :
    ∃ tokens, ∀ tail : Text, (∀ c ∈ tail.head?, isGap c = true) → Reads tokens (text ++ tail) tail := by
  obtain ⟨tokens, reads⟩ := (settles_iff text).mp settles
  exact ⟨tokens, fun tail gap => reads.before_gap (by simp) (by simp [feed]) gap⟩

/-- A line that is joined to a settled text adds its tokens. -/
theorem lex_settled (settles : Settles text) (feed : '\n' ∉ text) :
    lex (text ++ ' ' :: line) = lex text ++ lex line := by
  obtain ⟨tokens, reads⟩ := settles.reads feed
  have alone := lex_of_reads (reads [] (by simp))
  have joined := lex_of_reads (reads (' ' :: line) (by simp [isGap]))
  have gap := lex_gap [' '] line (by simp [isGap])
  rw [List.append_nil] at alone
  rw [joined, alone, ← gap, show lex [] = [] by rw [lex], List.append_nil]
  rfl

theorem settles_joined (settles : Settles text) (feed : '\n' ∉ text) :
    Settles (text ++ ' ' :: line) ↔ Settles line := by
  obtain ⟨tokens, reads⟩ := settles.reads feed
  have stop := reads (' ' :: (line ++ [' '])) (by simp [isGap])
  have gap : Step none [' '] (line ++ [' ']) := .gap (by decide)
  have inner := stops_step gap
  have whole : text ++ ' ' :: line ++ [' '] = text ++ ' ' :: (line ++ [' ']) := by simp
  rw [Settles, Settles, whole, stop.mem_stops_iff [' '] (by simp)]
  rw [List.singleton_append] at inner
  rw [inner, List.mem_cons, or_iff_right_iff_imp]
  intro same
  have sizes := congrArg List.length same
  simp at sizes

/-- A text that ends with white space between tokens, or begins with it, settles without it. -/
theorem Settles.of_append_gap {gap : Text} (settles : Settles (text ++ gap))
    (feed : '\n' ∉ text ++ gap) (blank : ∀ c ∈ gap, isGap c = true) : Settles text := by
  obtain ⟨tokens, reads⟩ := (settles_iff _).mp settles
  have before := reads.before_blanks blank (by simp) (by simpa using feed)
  rw [List.append_assoc] at before
  refine (settles_iff text).mpr ⟨tokens, before.before_gap (by simp) ?_ (by simp [isGap])⟩
  simpa using feed

theorem Settles.bare (settles : Settles line) (feed : '\n' ∉ line) (closed : opened? line = none) :
    Settles (bare line) := by
  obtain ⟨tokens, reads⟩ := (settles_iff line).mp settles
  refine (settles_iff _).mpr ⟨tokens, ?_⟩
  generalize whole : line ++ [' '] = joined at reads
  generalize last : [' '] = rest at reads
  induction reads generalizing line with
  | here joined =>
    subst last
    have none : line = [] := by simpa using whole
    subst none
    simpa [Text.bare] using Reads.here [' ']
  | @step token? tokens taken middle rest step later ih =>
    subst last
    obtain ⟨rest, rfl⟩ := later.suffix
    rw [← List.append_assoc, List.append_cancel_right_eq] at whole
    subst whole
    have inside : '\n' ∉ rest := fun member => feed (List.mem_append_right _ member)
    have alone : Step token? taken (rest ++ []) :=
      step.before_gap (by simp) (by simpa using inside) (by simp)
    rw [List.append_nil] at alone
    obtain ⟨shut, same⟩ := bare_step alone feed closed
    have inner := ih ((settles_iff _).mpr ⟨_, later⟩) inside shut rfl rfl
    rcases same with bared | ⟨rfl, gap, blank, bared⟩
    · rw [bared, List.append_assoc]
      exact .step (step_bare step (by simpa using inside) (by simp [isGap])) inner
    · rw [bared, List.append_assoc]
      exact inner.gap gap blank

/-- White space behind a step stays behind it, or is taken with the rest of the line. -/
theorem Step.append_gap {token? : Option Token} {taken rest gap : Text} (step : Step token? taken rest)
    (feed : '\n' ∉ taken ++ rest ++ gap) (blank : ∀ c ∈ gap, isGap c = true) :
    Step token? taken (rest ++ gap) ∨ (rest = [] ∧ Step token? (taken ++ gap) []) := by
  have head : ∀ c ∈ gap.head?, isGap c = true := fun c member => blank c (List.mem_of_mem_head? member)
  have noFeed : rest.head? ≠ some '\n' := fun head =>
    feed (List.mem_append_left _ (List.mem_append_right _ (List.mem_of_mem_head? head)))
  have apart (c : Char) (other : isGap c = false) : c ∉ gap := fun member => by
    simp [blank c member] at other
  have ends' (p : Char → Prop) (ends : ∀ c ∈ rest.head?, p c) (plain : ∀ c, isGap c = true → p c) :
      ∀ c ∈ (rest ++ gap).head?, p c := by
    rw [← List.append_nil rest] at ends
    exact head_before_gap rest p ends head plain
  cases step with
  | gap space => exact Or.inl (.gap space)
  | token spells ends =>
    rw [← List.append_nil rest] at ends
    exact Or.inl (.token spells (ends_before_gap _ rest ends head))
  | sign ends => exact Or.inl (.sign (ends' _ ends nameStart_of_gap))
  | slash ends => exact Or.inl (.slash (ends' _ ends stroke_of_gap))
  | @block body rest closes =>
    rw [List.append_assoc] at closes
    exact Or.inl (.block (by simpa using Text.cutAt_append _ _ _ _ (rest ++ gap) closes))
  | @line body rest inside ends =>
    have last := ends.resolve_right noFeed
    subst last
    have longer : '\n' ∉ body ++ gap := by
      rw [List.mem_append, not_or]
      exact ⟨inside, fun member => feed (by simp [member])⟩
    exact Or.inr ⟨rfl, .line longer (Or.inl rfl)⟩
  | openBlock closes =>
    exact Or.inr ⟨rfl, .openBlock (cutAt_none_append _ gap ['*'] '/' closes (apart '/' rfl))⟩
  | @openString body rest closes ends =>
    have last : rest = [] := by
      rcases (afterBrokenString_spec (body ++ rest)).2 with none | head
      · exact ends ▸ none
      · exact absurd (ends ▸ head) noFeed
    subst last
    rw [List.append_nil] at closes
    have unclosed := closedString_none_append body gap closes (apart '"' rfl)
    refine Or.inr ⟨rfl, .openString (by simpa using unclosed) ?_⟩
    rw [List.append_nil]
    obtain ⟨⟨before, whole⟩, none | head⟩ := afterBrokenString_spec (body ++ gap)
    · exact none
    · have member : '\n' ∈ body ++ gap :=
        whole ▸ List.mem_append_right before (List.mem_of_mem_head? head)
      rw [List.append_nil] at feed
      exact absurd (List.mem_cons_of_mem _ member) feed

/-- White space behind a text adds no tokens, whatever the text ends with. -/
theorem lex_append_gap (gap : Text) (feed : '\n' ∉ text ++ gap) (blank : ∀ c ∈ gap, isGap c = true) :
    lex (text ++ gap) = lex text := by
  induction text using step_induction with
  | nil =>
    have nothing := lex_gap gap [] blank
    rwa [List.append_nil] at nothing
  | step token? taken rest step ih =>
    have behind : '\n' ∉ rest ++ gap := fun member => feed (by simp_all)
    rw [lex_step step, List.append_assoc]
    rcases step.append_gap feed blank with stays | ⟨rfl, takes⟩
    · rw [lex_step stays, ih behind]
    · have whole := lex_step takes
      rwa [List.append_nil] at whole

end Settled

end Token

end HeaderBindings
