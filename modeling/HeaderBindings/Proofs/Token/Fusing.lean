import HeaderBindings.Proofs.Token.Rendering
import Mathlib.Logic.Relation

/-!
Written tokens read again. Tokens that are written without a blank between them may be read as others: a
number, a point and a number are one number, and points are taken by threes from the front. Such tokens
are written as before, so that a text that was written from tokens does not change when it is read and
written again.
-/

namespace HeaderBindings

open Relation

namespace Token

/-- Tokens that are read otherwise than they are, as no blank stands between them in writing. -/
inductive Fuse : List Token → List Token → Prop where
  | number (whole fraction : Text) (tokens : List Token) :
      Fuse (number whole :: dot :: number fraction :: tokens)
        (number (whole ++ '.' :: fraction) :: tokens)
  | points (tokens : List Token) : Fuse (dot :: dot :: dot :: tokens) (ellipsis :: tokens)
  | turn (tokens : List Token) : Fuse (dot :: ellipsis :: tokens) (ellipsis :: dot :: tokens)
  | behind (token : Token) {tokens fused : List Token} (later : Fuse tokens fused) :
      Fuse (token :: tokens) (token :: fused)

abbrev Fuses : List Token → List Token → Prop := ReflTransGen Fuse

theorem Fuses.behind (token : Token) {tokens fused : List Token} (fuses : Fuses tokens fused) :
    Fuses (token :: tokens) (token :: fused) :=
  ReflTransGen.lift (token :: ·) (fun _ _ step => Fuse.behind token step) _ _ fuses

section Spelling

namespace Lexed

variable {token : Token}

theorem spells (lexed : token.Lexed) : Spells token token.text := by
  rcases lexed with rfl | spells
  · exact .unknown (by decide)
  · exact spells

/-- A point begins points only, and a digit numbers only. -/
theorem start (lexed : token.Lexed) : ∃ c rest, token.text = c :: rest ∧
    (c = '.' → token = dot ∨ token = ellipsis) ∧ (c.isDigit = true → ∃ digits, token = number digits) := by
  have spells := lexed.spells
  generalize own : token.text = text at spells
  cases spells with
  | @mark c token known =>
    obtain ⟨-, point, -, -, -, digit, -⟩ := plain_of_mark c token known
    exact ⟨c, [], rfl, fun same => absurd same point, by simp [digit]⟩
  | dot => exact ⟨'.', [], rfl, fun _ => Or.inl rfl, nofun⟩
  | ellipsis => exact ⟨'.', ['.', '.'], rfl, fun _ => Or.inr rfl, nofun⟩
  | @identifier c name start chars =>
    obtain ⟨-, point, -, -, -, digit⟩ := plain_of_nameStart c start
    exact ⟨c, name, rfl, fun same => absurd same point, by simp [digit]⟩
  | @directive c name start chars => exact ⟨'@', c :: name, rfl, by simp, nofun⟩
  | @number c digits digit run =>
    obtain ⟨-, point, -⟩ := plain_of_digit c digit
    exact ⟨c, digits, rfl, fun same => absurd same point, fun _ => ⟨_, rfl⟩⟩
  | @stringLit body closed => exact ⟨'"', body, rfl, by simp, nofun⟩
  | unknown =>
    cases own
    exact ⟨'?', [], rfl, by simp, nofun⟩

end Lexed

theorem run_of_number {digits : Text} (lexed : (number digits).Lexed) :
    ∃ c rest, digits = c :: rest ∧ c.isDigit = true ∧ numberRun rest = (rest, []) := by
  cases lexed.spells with
  | mark known => cases (mark_facts _ _ known).2.2.1
  | number digit run => exact ⟨_, _, rfl, digit, run⟩

-- The digits behind a point go on with the number before it.
theorem lexed_number {whole fraction : Text} (left : (number whole).Lexed)
    (right : (number fraction).Lexed) : (number (whole ++ '.' :: fraction)).Lexed := by
  obtain ⟨c, front, rfl, digit, front_run⟩ := run_of_number left
  obtain ⟨d, back, rfl, digit', back_run⟩ := run_of_number right
  have name : isNameChar d = true := by simp [isNameChar, Char.isAlphanum, digit']
  have taken : numberRun (d :: back) = (d :: back, []) := by
    cases back with
    | nil => simp [numberRun, name]
    | cons e back => simp [numberRun, name, Cut.cons, back_run]
  have joined : numberRun ('.' :: d :: back) = ('.' :: d :: back, []) := by
    rw [numberRun, if_pos (by simp [digit']), taken]
    rfl
  have run : numberRun (front ++ '.' :: d :: back) = (front ++ '.' :: d :: back, []) := by
    rw [numberRun_goesOn front _ front_run, joined]
  exact Or.inr (.number digit run)

theorem Fuse.lexed {tokens fused : List Token} (step : Fuse tokens fused)
    (lexed : ∀ token ∈ tokens, token.Lexed) : ∀ token ∈ fused, token.Lexed := by
  induction step with
  | number whole fraction tokens =>
    simp only [List.forall_mem_cons] at lexed ⊢
    obtain ⟨left, -, right, later⟩ := lexed
    exact ⟨lexed_number left right, later⟩
  | points tokens =>
    simp only [List.forall_mem_cons] at lexed ⊢
    exact ⟨Or.inr .ellipsis, lexed.2.2.2⟩
  | turn tokens =>
    simp only [List.forall_mem_cons] at lexed ⊢
    exact ⟨lexed.2.1, lexed.1, lexed.2.2⟩
  | behind token later ih =>
    rw [List.forall_mem_cons] at lexed ⊢
    exact ⟨lexed.1, ih lexed.2⟩

theorem Fuses.lexed {tokens fused : List Token} (fuses : Fuses tokens fused)
    (lexed : ∀ token ∈ tokens, token.Lexed) : ∀ token ∈ fused, token.Lexed := by
  induction fuses with
  | refl => exact lexed
  | tail _ step ih => exact step.lexed ih

end Spelling

section Spacing

-- No blank stands before a point, and none behind it.
theorem spaced_point {point : Token} (isPoint : point = dot ∨ point = ellipsis) (token : Token)
    (next? : Option Token) :
    spaced token point next? = false ∧ spaced point token next? = false := by
  rcases isPoint with rfl | rfl <;> exact ⟨rfl, by cases token <;> rfl⟩

theorem renderAfter_behind {point : Token} (isPoint : point = dot ∨ point = ellipsis)
    (tokens : List Token) : renderAfter (some point) tokens = render tokens := by
  cases tokens with
  | nil => rfl
  | cons token tokens => simp [renderAfter_cons, spaced_point isPoint]

theorem renderAfter_point {point : Token} (isPoint : point = dot ∨ point = ellipsis)
    (before? : Option Token) (tokens : List Token) :
    renderAfter before? (point :: tokens) = point.text ++ render tokens := by
  cases before? with
  | none => simp [renderAfter, renderAfter_behind isPoint]
  | some before => simp [renderAfter, renderAfter_behind isPoint, spaced_point isPoint]

theorem renderAfter_number (digits other : Text) (tokens : List Token) :
    renderAfter (some (number digits)) tokens = renderAfter (some (number other)) tokens := by
  cases tokens with
  | nil => rfl
  | cons token tokens =>
    have same : spaced (number digits) token tokens.head? = spaced (number other) token tokens.head? := by
      cases token <;> rfl
    simp [renderAfter_cons, same]

-- What decides about the blank before a group stays at the front.
theorem Fuse.head {tokens fused : List Token} (step : Fuse tokens fused) {mark : Token}
    (isMark : mark = caret ∨ mark = star) : (tokens.head? == some mark) = (fused.head? == some mark) := by
  cases step with
  | number | points | turn => rcases isMark with rfl | rfl <;> rfl
  | behind token later => rfl

theorem Fuse.spaced {tokens fused : List Token} (step : Fuse tokens fused) (before token : Token) :
    Token.spaced before token tokens.head? = Token.spaced before token fused.head? := by
  cases token with
  | leftParen => simp only [Token.spaced, step.head (Or.inl rfl), step.head (Or.inr rfl)]
  | _ => rfl

/-- Fused tokens are written like the tokens that they are fused from. -/
theorem Fuse.renderAfter {tokens fused : List Token} (step : Fuse tokens fused)
    (before? : Option Token) : Token.renderAfter before? tokens = Token.renderAfter before? fused := by
  induction step generalizing before? with
  | number whole fraction tokens =>
    have behind := renderAfter_number fraction (whole ++ '.' :: fraction) tokens
    have gap (before : Token) (next? other? : Option Token) :
        Token.spaced before (Token.number whole) next? =
          Token.spaced before (Token.number (whole ++ '.' :: fraction)) other? := rfl
    have point := spaced_point (Or.inl rfl)
    cases before? with
    | none => simp [Token.renderAfter, point, behind, text]
    | some before =>
      simp [Token.renderAfter, point, behind, text, gap before (some dot) tokens.head?]
  | points tokens =>
    simp [render, renderAfter_point (Or.inl rfl), renderAfter_point (Or.inr rfl), text]
  | turn tokens =>
    simp [render, renderAfter_point (Or.inl rfl), renderAfter_point (Or.inr rfl), text]
  | behind token later ih =>
    cases before? with
    | none => simp only [Token.renderAfter, ih]
    | some before => simp only [Token.renderAfter, ih, later.spaced]

theorem Fuses.renderAfter {tokens fused : List Token} (fuses : Fuses tokens fused)
    (before? : Option Token) : Token.renderAfter before? tokens = Token.renderAfter before? fused := by
  induction fuses with
  | refl => rfl
  | tail _ step ih => rw [ih, step.renderAfter]

end Spacing

section Reading

variable {tokens : List Token}

theorem start_of_render {c : Char} (lexed : ∀ token ∈ tokens, token.Lexed)
    (head : (render tokens).head? = some c) :
    ∃ token rest, tokens = token :: rest ∧ (c = '.' → token = dot ∨ token = ellipsis) ∧
      (c.isDigit = true → ∃ digits, token = number digits) := by
  cases tokens with
  | nil => cases head
  | cons token rest =>
    obtain ⟨d, text, own, point, digit⟩ := (lexed token List.mem_cons_self).start
    rw [render_cons, own] at head
    cases head
    exact ⟨token, rest, rfl, point, digit⟩

-- A point behind a token is written by a point.
theorem point_of_head {before : Token} (lexed : ∀ token ∈ tokens, token.Lexed)
    (head : (renderAfter (some before) tokens).head? = some '.') :
    ∃ point rest, (point = dot ∨ point = ellipsis) ∧ tokens = point :: rest := by
  cases tokens with
  | nil => cases head
  | cons token rest =>
    rw [renderAfter_cons] at head
    split at head
    · cases head
    · obtain ⟨point, rest, whole, isPoint, -⟩ := start_of_render lexed head
      exact ⟨point, rest, isPoint rfl, whole⟩

/-- A number takes all the fractions behind it. -/
theorem fuse_number (digits : Text) (tokens : List Token)
    (lexed : ∀ token ∈ number digits :: tokens, token.Lexed) :
    ∃ whole rest, Fuses (number digits :: tokens) (number whole :: rest) ∧
      Ends (number whole) (renderAfter (some (number whole)) rest) := by
  by_cases goesOn : ∃ fraction rest, tokens = dot :: number fraction :: rest
  · obtain ⟨fraction, rest, rfl⟩ := goesOn
    have step := Fuse.number digits fraction rest
    obtain ⟨whole, rest', fuses, ends⟩ := fuse_number (digits ++ '.' :: fraction) rest (step.lexed lexed)
    exact ⟨whole, rest', .head step fuses, ends⟩
  · refine ⟨digits, tokens, .refl, ?_⟩
    have later := (List.forall_mem_cons.mp lexed).2
    have noName := head_renderAfter (number digits) rfl later
    cases text : renderAfter (some (number digits)) tokens with
    | nil => simp [Ends, numberRun]
    | cons c text' =>
      rw [text] at noName
      refine (numberRun_stops_iff c text').mpr ⟨noName c rfl, fun same d head => ?_⟩
      subst same
      obtain ⟨point, rest, isPoint, rfl⟩ := point_of_head later (congrArg List.head? text)
      rw [renderAfter_point isPoint] at text
      rcases isPoint with rfl | rfl
      · -- A digit behind the point would be one of a fraction.
        cases text
        cases digit : d.isDigit with
        | false => rfl
        | true =>
          obtain ⟨token, rest', rfl, -, isNumber⟩ :=
            start_of_render (List.forall_mem_cons.mp later).2 head
          obtain ⟨fraction, rfl⟩ := isNumber digit
          exact absurd ⟨fraction, rest', rfl⟩ goesOn
      · cases text
        cases head
        rfl
termination_by tokens.length

theorem ends_dot {text : Text} (other : text.head? ≠ some '.') :
    Ends dot text ∧ Ends dot ('.' :: text) := by
  constructor <;> intro two <;> cases text <;> simp_all

/-- A point takes the points behind it, if there are enough of them. -/
theorem fuse_point (tokens : List Token) (lexed : ∀ token ∈ tokens, token.Lexed) :
    ∃ point rest, Fuses (dot :: tokens) (point :: rest) ∧
      Ends point (renderAfter (some point) rest) := by
  have other (tokens : List Token) (lexed : ∀ token ∈ tokens, token.Lexed)
      (none : ¬ ∃ point rest, (point = dot ∨ point = ellipsis) ∧ tokens = point :: rest) :
      (render tokens).head? ≠ some '.' := by
    intro head
    obtain ⟨point, rest, whole, isPoint, -⟩ := start_of_render lexed head
    exact none ⟨point, rest, isPoint rfl, whole⟩
  by_cases second : ∃ point rest, (point = dot ∨ point = ellipsis) ∧ tokens = point :: rest
  · obtain ⟨point, rest, rfl | rfl, rfl⟩ := second
    · by_cases third : ∃ point rest', (point = dot ∨ point = ellipsis) ∧ rest = point :: rest'
      · obtain ⟨point, rest, rfl | rfl, rfl⟩ := third
        · exact ⟨ellipsis, rest, .single (.points rest), trivial⟩
        · exact ⟨ellipsis, dot :: dot :: rest,
            .head (.behind dot (.turn rest)) (.single (.turn (dot :: rest))), trivial⟩
      · refine ⟨dot, dot :: rest, .refl, ?_⟩
        rw [renderAfter_point (Or.inl rfl)]
        exact (ends_dot (other rest (List.forall_mem_cons.mp lexed).2 third)).2
    · exact ⟨ellipsis, dot :: rest, .single (.turn rest), trivial⟩
  · refine ⟨dot, tokens, .refl, ?_⟩
    rw [renderAfter_behind (Or.inl rfl)]
    exact (ends_dot (other tokens lexed second)).1

/-- What is read first of written tokens is their first token, fused with others behind it. -/
theorem exists_front (token : Token) (tokens : List Token)
    (lexed : ∀ other ∈ token :: tokens, other.Lexed) :
    ∃ front rest, Fuses (token :: tokens) (front :: rest) ∧
      Ends front (renderAfter (some front) rest) := by
  have later := (List.forall_mem_cons.mp lexed).2
  cases token with
  | number digits =>
    obtain ⟨whole, rest, fuses, ends⟩ := fuse_number digits tokens lexed
    exact ⟨number whole, rest, fuses, ends⟩
  | dot => exact fuse_point tokens later
  | identifier name => exact ⟨_, tokens, .refl, head_renderAfter (identifier name) rfl later⟩
  | directive name => exact ⟨_, tokens, .refl, head_renderAfter (directive name) rfl later⟩
  | _ => exact ⟨_, tokens, .refl, trivial⟩

theorem lex_renderAfter (before? : Option Token) (tokens : List Token) :
    lex (renderAfter before? tokens) = lex (render tokens) := by
  cases tokens with
  | nil => rfl
  | cons token tokens =>
    cases before? with
    | none => rfl
    | some before =>
      rw [renderAfter_cons]
      exact lex_gap _ _ (by split <;> simp [isGap])

theorem length_render_le (before? : Option Token) (tokens : List Token) :
    (render tokens).length ≤ (renderAfter before? tokens).length := by
  cases tokens with
  | nil => exact Nat.le_refl _
  | cons token tokens =>
    cases before? with
    | none => exact Nat.le_refl _
    | some before => simp [renderAfter_cons]

/-- Written tokens are read as the same tokens, or as tokens that they fuse to. -/
theorem fuses_lex_render (tokens : List Token) (lexed : ∀ token ∈ tokens, token.Lexed) :
    Fuses tokens (lex (render tokens)) := by
  match tokens with
  | [] => simpa [render, renderAfter, lex] using ReflTransGen.refl
  | token :: tokens =>
    obtain ⟨front, rest, fuses, ends⟩ := exists_front token tokens lexed
    have known := fuses.lexed lexed
    have spells := (known front List.mem_cons_self).spells
    have written : render (token :: tokens) = front.text ++ renderAfter (some front) rest :=
      fuses.renderAfter none
    have read : lex (render (token :: tokens)) = front :: lex (render rest) := by
      rw [written, lex_step (.token spells ends), lex_renderAfter]
      rfl
    have shorter : (render rest).length < (render (token :: tokens)).length := by
      have taken := (Step.token spells ends).length_pos
      have left := length_render_le (some front) rest
      rw [written, List.length_append]
      omega
    rw [read]
    exact fuses.trans (Fuses.behind front
      (fuses_lex_render rest fun other member => known other (List.mem_cons_of_mem front member)))
termination_by (render tokens).length

/-- A text that was written from tokens does not change when it is read and written again. -/
theorem render_lex_render (source : Text) : render (lex (render (lex source))) = render (lex source) :=
  ((fuses_lex_render (lex source) (lexed_of_mem source)).renderAfter none).symm

end Reading

end Token

end HeaderBindings
