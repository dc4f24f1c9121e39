import HeaderBindings.Proofs.Token.Feeds
import HeaderBindings.Proofs.Token.Nesting

/-!
Parentheses in written tokens. Writing adds blanks only, so that the parentheses of a text are those of its
tokens and those inside its string literals; a text whose parentheses are balanced by count is one that
normalization keeps.
-/

namespace HeaderBindings

namespace Token

section Counting

/-- The text of a string literal, which may show parentheses of its own. -/
def literal : Token → Text
  | stringLit quoted => quoted
  | _ => []

def literals (tokens : List Token) : Text := tokens.flatMap literal

/-- Names, numbers and directives show no parentheses. -/
theorem Lexed.count_word {token : Token} (lexed : token.Lexed) (isWord : token.isWord = true)
    (noString : token.literal = []) : token.text.count '(' = 0 ∧ token.text.count ')' = 0 := by
  have names : ∀ c ∈ token.text, isNameChar c = true ∨ c = '.' ∨ c = '@' := by
    have spells := lexed.resolve_left fun same => by
      rw [same] at isWord
      cases isWord
    generalize own : token.text = text at spells ⊢
    cases spells with
    | mark known => simp [(mark_facts _ _ known).2.2.1] at isWord
    | dot | ellipsis | unknown => cases isWord
    | stringLit closed => cases noString
    | identifier start chars =>
      exact fun d member => Or.inl (chars_of_name (.identifier start chars) d member)
    | directive start chars =>
      refine List.forall_mem_cons.mpr ⟨by decide, fun d member => ?_⟩
      exact Or.inl (chars_of_name (.identifier start chars) d member)
    | @number c digits digit run =>
      refine List.forall_mem_cons.mpr ⟨?_, fun d member => ?_⟩
      · exact Or.inl (by simp [isNameChar, Char.isAlphanum, digit])
      · have inner := mem_numberRun digits
        rw [run] at inner
        exact (inner d member).imp_right Or.inl
  constructor
  · exact List.count_eq_zero.mpr fun member => absurd (names _ member) (by decide)
  · exact List.count_eq_zero.mpr fun member => absurd (names _ member) (by decide)

/-- A token shows the parenthesis that it is, or those of its literal. -/
theorem Lexed.count_text {token : Token} (lexed : token.Lexed) :
    token.text.count '(' = [token].count leftParen + token.literal.count '(' ∧
      token.text.count ')' = [token].count rightParen + token.literal.count ')' := by
  cases token with
  | identifier name | directive name | number name =>
    obtain ⟨opens, closes⟩ := lexed.count_word rfl rfl
    rw [opens, closes]
    simp [literal]
  | stringLit quoted => simp [text, literal]
  | _ => exact ⟨by decide, by decide⟩

theorem count_renderAfter {c : Char} (visible : c ≠ ' ') (before? : Option Token) (tokens : List Token) :
    (renderAfter before? tokens).count c = (tokens.flatMap text).count c := by
  induction tokens generalizing before? with
  | nil => rfl
  | cons token tokens ih =>
    have gap (wide : Bool) : (if wide then [' '] else []).count c = 0 := by
      cases wide <;> simp [Ne.symm visible]
    cases before? with
    | none => simp [renderAfter, ih]
    | some before => simp [renderAfter, ih, gap]

/-- A written text shows the parentheses of its tokens and of their literals. -/
theorem count_render {tokens : List Token} (lexed : ∀ token ∈ tokens, token.Lexed) :
    (render tokens).count '(' = tokens.count leftParen + (literals tokens).count '(' ∧
      (render tokens).count ')' = tokens.count rightParen + (literals tokens).count ')' := by
  rw [render, count_renderAfter (by decide), count_renderAfter (by decide)]
  induction tokens with
  | nil => exact ⟨rfl, rfl⟩
  | cons token tokens ih =>
    obtain ⟨here, later⟩ := List.forall_mem_cons.mp lexed
    obtain ⟨opens, closes⟩ := here.count_text
    obtain ⟨opensLater, closesLater⟩ := ih later
    rw [← List.singleton_append, List.count_append, List.count_append]
    simp only [literals] at opensLater closesLater
    simp only [literals, List.flatMap_append, List.flatMap_singleton, List.count_append]
    omega

end Counting

section Closing

-- What stands in front of a closing parenthesis does not depend on it.
theorem renderAfter_closed (before? : Option Token) (tokens : List Token) :
    renderAfter before? (tokens ++ [rightParen]) = renderAfter before? tokens ++ [')'] := by
  have unspaced (before token : Token) (tokens : List Token) :
      spaced before token (tokens ++ [rightParen]).head? = spaced before token tokens.head? := by
    cases tokens <;> cases token <;> rfl
  induction tokens generalizing before? with
  | nil => cases before? <;> simp [renderAfter, spaced, isWord, text]
  | cons token tokens ih =>
    cases before? with
    | none => simp [renderAfter, ih]
    | some before => simp only [List.cons_append, renderAfter, ih, unspaced, List.append_assoc]

theorem renderAfter_opened (tokens : List Token) :
    renderAfter (some leftParen) tokens = render tokens := by
  cases tokens with
  | nil => rfl
  | cons token tokens =>
    have close : spaced leftParen token tokens.head? = false := by cases token <;> rfl
    simp [renderAfter_cons, close]

end Closing

end Token

namespace Availability

section Normalizing

theorem count_dropSurplus {c : Char} (other : c ≠ ')') (surplus : Nat) (text : Text) :
    (dropSurplus surplus text).count c = text.count c := by
  fun_induction dropSurplus surplus text with
  | case1 surplus text ih => rw [ih, List.count_cons_of_ne (Ne.symm other)]
  | case2 => rfl

theorem length_dropSurplus (surplus : Nat) (text : Text) :
    (dropSurplus surplus text).length ≤ text.length := by
  fun_induction dropSurplus surplus text with
  | case1 surplus text ih => exact Nat.le_succ_of_le ih
  | case2 => exact Nat.le_refl _

/-- Closing parentheses are all that normalization takes away or adds. -/
theorem count_normalize {c : Char} (other : c ≠ ')') (text : Text) :
    (normalize text).count c = text.trim.count c := by
  simp [normalize, count_dropSurplus other, List.count_replicate, Ne.symm other]

/-- A call is kept as it is if it shows as many opening as closing parentheses, and only then. -/
theorem normalize_eq_iff {text : Text} (trimmed : text.trim = text) (closes : text.getLast? = some ')') :
    normalize text = text ↔ text.count '(' = text.count ')' := by
  rw [normalize, trimmed]
  generalize text.count '(' = opens, text.count ')' = closed
  constructor
  · intro same
    have length := congrArg List.length same
    simp only [List.length_append, List.length_reverse, List.length_replicate] at length
    by_contra apart
    rcases Nat.lt_or_gt_of_ne apart with fewer | more
    · -- The last parenthesis is one of those in excess.
      obtain ⟨front, rfl⟩ := List.getLast?_eq_some_iff.mp closes
      obtain ⟨surplus, excess⟩ := Nat.exists_eq_succ_of_ne_zero (Nat.sub_ne_zero_of_lt fewer)
      have shorter := length_dropSurplus surplus front.reverse
      rw [excess, List.reverse_append, List.reverse_singleton, List.singleton_append,
        dropSurplus] at length
      simp only [List.length_append, List.length_reverse, List.length_singleton] at length shorter
      omega
    · have none : closed - opens = 0 := by omega
      simp only [none, dropSurplus, List.length_reverse] at length
      omega
  · rintro rfl
    simp [dropSurplus]

end Normalizing

end Availability

end HeaderBindings
