import HeaderBindings.NativeType
import Mathlib.Data.List.Chain

/-!
What makes a type nullable. A marker speaks of the type if it stands outside all brackets, and a type
without a caret has no other one; a star outside all parentheses makes a pointer.
-/

namespace HeaderBindings

namespace NativeType

/-- How many more brackets of a kind are opened than closed. -/
def level (opening closing : Token) (tokens : List Token) : Int :=
  tokens.count opening - tokens.count closing

theorem level_cons (opening closing token : Token) (tokens : List Token) :
    level opening closing (token :: tokens) =
      level opening closing [token] + level opening closing tokens := by
  simp only [level, List.count_cons, List.count_nil]
  omega

theorem level_single (token : Token) :
    level .leftParen .rightParen [token] = parens token ∧ level .less .greater [token] = angles token := by
  cases token <;> exact ⟨rfl, rfl⟩

/-- What is placed is a token of the type, with the depths at it. -/
theorem any_place (parenDepth angleDepth : Int) (before? : Option Token) (tokens : List Token)
    (test : Placed → Bool) :
    (place parenDepth angleDepth before? tokens).any test = true ↔
      ∃ front token later, tokens = front ++ token :: later ∧
        let inParens := parenDepth + level .leftParen .rightParen (front ++ [token])
        let inAngles := angleDepth + level .less .greater (front ++ [token])
        test ⟨token, inParens == 0,
          (inParens == 0 && inAngles == 0) || front.getLast?.or before? == some .caret⟩ = true := by
  induction tokens generalizing parenDepth angleDepth before? with
  | nil => simp [place]
  | cons token tokens ih =>
    obtain ⟨parens, angles⟩ := level_single token
    have behind (front : List Token) :
        (token :: front).getLast?.or before? = front.getLast?.or (some token) := by
      cases front <;> simp [List.getLast?_cons]
    simp only [place, List.any_cons, Bool.or_eq_true, ih]
    constructor
    · rintro (here | ⟨front, other, later, rfl, placed⟩)
      · exact ⟨[], token, tokens, rfl, by simpa [parens, angles] using here⟩
      · refine ⟨token :: front, other, later, rfl, ?_⟩
        rw [List.cons_append, level_cons, level_cons .less, parens, angles, behind, ← Int.add_assoc,
          ← Int.add_assoc]
        exact placed
    · rintro ⟨front, other, later, whole, placed⟩
      cases front with
      | nil =>
        cases whole
        left
        simpa [parens, angles] using placed
      | cons first front =>
        cases whole
        right
        refine ⟨front, other, later, rfl, ?_⟩
        rw [List.cons_append, level_cons, level_cons .less, parens, angles, behind, ← Int.add_assoc,
          ← Int.add_assoc] at placed
        exact placed

/-- A word behind these tokens speaks of the whole type: as many brackets are closed as are opened, or a
caret stands right before it. -/
def Speaks (front : List Token) : Prop :=
  front.getLast? = some .caret ∨
    front.count .leftParen = front.count .rightParen ∧ front.count .less = front.count .greater

theorem marked_iff (markers : List Text) (type : List Token) :
    (place 0 0 none type).any (isMarked markers) = true ↔
      ∃ front name later, type = front ++ .identifier name :: later ∧ name ∈ markers ∧ Speaks front := by
  rw [any_place]
  constructor
  · rintro ⟨front, token, later, rfl, marked⟩
    cases token with
    | identifier name =>
      simp only [isMarked, Token.name?, Option.any_some, Option.or_none, Bool.and_eq_true,
        Bool.or_eq_true, beq_iff_eq, List.contains_iff_mem] at marked
      obtain ⟨⟨parens, angles⟩ | caret, known⟩ := marked
      · refine ⟨front, name, later, rfl, known, Or.inr ⟨?_, ?_⟩⟩
        · simp [level] at parens
          omega
        · simp [level] at angles
          omega
      · exact ⟨front, name, later, rfl, known, Or.inl caret⟩
    | _ => simp [isMarked, Token.name?] at marked
  · rintro ⟨front, name, later, rfl, known, caret | ⟨parens, angles⟩⟩
    · exact ⟨front, .identifier name, later, rfl, by simp [isMarked, Token.name?, known, caret]⟩
    · exact ⟨front, .identifier name, later, rfl, by
        simp [isMarked, Token.name?, level, known, parens, angles]⟩

/-- One of some names stands in a type outside all brackets. -/
def HasOuter (names : List Text) (type : List Token) : Prop :=
  ∃ front name later, type = front ++ .identifier name :: later ∧ name ∈ names ∧
    front.count .leftParen = front.count .rightParen ∧ front.count .less = front.count .greater

/-- A star stands in a type outside all parentheses. -/
def HasOuterStar (type : List Token) : Prop :=
  ∃ front later, type = front ++ .star :: later ∧ front.count .leftParen = front.count .rightParen

/-- No identifier stands right behind a caret. -/
def CaretsBare (tokens : List Token) : Prop :=
  tokens.IsChain fun token next => token = .caret → next.name? = none

instance decidableCaretsBare (tokens : List Token) : Decidable (CaretsBare tokens) :=
  inferInstanceAs (Decidable (tokens.IsChain fun token next => token = .caret → next.name? = none))

theorem caretsBare_of_free {tokens : List Token} (free : .caret ∉ tokens) : CaretsBare tokens := by
  induction tokens with
  | nil => exact .nil
  | cons token tokens ih =>
    have later := ih fun inside => free (List.mem_cons_of_mem token inside)
    exact List.isChain_cons.mpr ⟨fun _ _ caret => absurd (caret ▸ List.mem_cons_self) free, later⟩

theorem CaretsBare.not_behind {front later : List Token} {name : Text}
    (bare : CaretsBare (front ++ .identifier name :: later)) : front.getLast? ≠ some .caret := by
  intro last
  have none := (List.isChain_append.mp bare).2.2 .caret last (.identifier name) rfl rfl
  cases none

theorem any_marked_iff (markers : List Text) (type : List Token) (bare : CaretsBare type) :
    (place 0 0 none type).any (isMarked markers) = true ↔ HasOuter markers type := by
  rw [marked_iff]
  constructor
  · rintro ⟨front, name, later, rfl, known, speaks⟩
    exact ⟨front, name, later, rfl, known, speaks.resolve_left bare.not_behind⟩
  · rintro ⟨front, name, later, rfl, known, closed⟩
    exact ⟨front, name, later, rfl, known, Or.inr closed⟩

theorem not_hasOuter {names : List Text} {type : List Token} (bare : CaretsBare type)
    (none : (place 0 0 none type).any (isMarked names) = false) : ¬ HasOuter names type := by
  rw [← any_marked_iff names type bare, none]
  exact Bool.false_ne_true

theorem nullable_iff (type : List Token) (bare : CaretsBare type) :
    (ofTokens type).nullable = true ↔ HasOuter nullableMarkers type :=
  any_marked_iff nullableMarkers type bare

theorem nonnull_iff (type : List Token) (bare : CaretsBare type) :
    (ofTokens type).nonnull = true ↔ HasOuter nonnullMarkers type :=
  any_marked_iff nonnullMarkers type bare

theorem pointer_iff (type : List Token) : (ofTokens type).pointer = true ↔ HasOuterStar type := by
  have placed : (ofTokens type).pointer = (place 0 0 none type).any isPointerStar := rfl
  rw [placed, any_place]
  constructor
  · rintro ⟨front, token, later, rfl, star⟩
    simp only [isPointerStar, Bool.and_eq_true, beq_iff_eq] at star
    obtain ⟨rfl, parens⟩ := star
    refine ⟨front, later, rfl, ?_⟩
    simp [level] at parens
    omega
  · rintro ⟨front, later, rfl, parens⟩
    exact ⟨front, .star, later, rfl, by simp [isPointerStar, level, parens]⟩

section Words

def isDroppedWord (token : Token) : Bool := token.name?.any isDropped

/-- A type without the words about null and the qualifiers. -/
def unqualified (tokens : List Token) : List Token := tokens.filter (!isDroppedWord ·)

-- A dropped word moves no depth, and what stands before a token decides neither whether it stays nor
-- whether it makes a pointer.
theorem place_unqualified (last? : Option Token) (parenDepth angleDepth : Int)
    (before? other? : Option Token) (tokens : List Token) :
    keep last? (place parenDepth angleDepth before? tokens) =
        keep last? (place parenDepth angleDepth other? (unqualified tokens)) ∧
      (place parenDepth angleDepth before? tokens).any isPointerStar =
        (place parenDepth angleDepth other? (unqualified tokens)).any isPointerStar := by
  induction tokens generalizing last? parenDepth angleDepth before? other? with
  | nil => exact ⟨rfl, rfl⟩
  | cons token tokens ih =>
    by_cases dropped : isDroppedWord token = true
    · have gone : unqualified (token :: tokens) = unqualified tokens := by
        simp [unqualified, dropped]
      cases token with
      | identifier name =>
        obtain ⟨kept, stars⟩ := ih last? parenDepth angleDepth (some (.identifier name)) other?
        have word : (Token.identifier name).name?.any isDropped = true := dropped
        rw [gone, ← kept, ← stars]
        simp [place, keep, isPointerStar, parens, angles, word]
      | _ => simp [isDroppedWord, Token.name?] at dropped
    · have stays : unqualified (token :: tokens) = token :: unqualified tokens := by
        simp [unqualified, dropped]
      have later (last? : Option Token) :=
        ih last? (parenDepth + parens token) (angleDepth + angles token) (some token) (some token)
      rw [stays]
      constructor
      · simp only [place, keep, (later _).1]
        rfl
      · simp only [place, List.any_cons, (later none).2]
        rfl

theorem same_of_unqualified {left right : List Token}
    (same : unqualified left = unqualified right) :
    (ofTokens left).name = (ofTokens right).name ∧
      (ofTokens left).pointer = (ofTokens right).pointer := by
  have first := place_unqualified none 0 0 none none left
  have second := place_unqualified none 0 0 none none right
  constructor
  · simp only [ofTokens, first.1, second.1, same]
  · simp only [ofTokens, first.2, second.2, same]

/-- Types that differ in words about null and qualifiers only have one name, and both are objects or
none is. -/
theorem alike_of_unqualified {left right : List Token}
    (same : unqualified left = unqualified right) :
    (ofTokens left).name = (ofTokens right).name ∧
      (ofTokens left).isObject = (ofTokens right).isObject := by
  obtain ⟨name, pointer⟩ := same_of_unqualified same
  exact ⟨name, by simp only [isObject, name, pointer]⟩

end Words

end NativeType

end HeaderBindings
