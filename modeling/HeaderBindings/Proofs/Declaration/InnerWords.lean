import HeaderBindings.Proofs.Declaration.Nullability
import Mathlib.Logic.Relation

/-!
Words about null inside a type. Such words stand among the arguments of a generic type and in the
parameter list of a block, where they speak of an element or of a parameter. They are no part of the
name; but one that stands right behind the caret of an inner block is taken for a word about the whole
type.
-/

namespace HeaderBindings

open Relation

namespace NativeType

/-- What is open at a place in a type: angle brackets, parentheses, and whether the outermost of these
parentheses are those of a block, which a caret begins outside all angle brackets. -/
structure Brackets where
  angles : Nat
  parens : Nat
  block : Bool
  deriving DecidableEq, Repr

namespace Brackets

def closed : Brackets := ⟨0, 0, false⟩

/-- What is open behind a token, given the token after it. -/
def behind (brackets : Brackets) (next? : Option Token) : Token → Brackets
  | .less => { brackets with angles := brackets.angles + 1 }
  | .greater => { brackets with angles := brackets.angles - 1 }
  | .leftParen =>
    { brackets with
      parens := brackets.parens + 1
      block :=
        if brackets.parens = 0 then brackets.angles == 0 && next? == some .caret else brackets.block }
  | .rightParen => { brackets with parens := brackets.parens - 1 }
  | _ => brackets

/-- What is open behind some tokens, given the token after them. -/
def after (brackets : Brackets) (next? : Option Token) : List Token → Brackets
  | [] => brackets
  | token :: tokens => (brackets.behind (tokens.head?.or next?) token).after next? tokens

/-- The place is inside angle brackets, or in parentheses other than the outermost ones of a block. -/
def Inner (brackets : Brackets) : Prop :=
  brackets.angles ≠ 0 ∨ 2 ≤ brackets.parens ∨ brackets.parens = 1 ∧ brackets.block = false

instance decidableInner (brackets : Brackets) : Decidable brackets.Inner :=
  inferInstanceAs (Decidable (_ ∨ _ ∨ _))

theorem after_append (brackets : Brackets) (next? : Option Token) (front later : List Token) :
    brackets.after next? (front ++ later) =
      (brackets.after (later.head?.or next?) front).after next? later := by
  induction front generalizing brackets with
  | nil => rfl
  | cons token front ih =>
    simp only [List.cons_append, after, List.head?_append, Option.or_assoc, ih]

-- Only behind a parenthesis does it matter what comes next, and only to whether it is that of a block.
theorem inner_behind {brackets : Brackets} {next? : Option Token} (token : Token) (name : Text)
    (inner : (brackets.behind next? token).Inner) :
    brackets.behind (some (.identifier name)) token = brackets.behind next? token := by
  cases token with
  | leftParen =>
    by_cases outermost : brackets.parens = 0
    · have noBlock : (brackets.angles == 0 && next? == some .caret) = false := by
        simpa [Inner, behind, outermost, imp_iff_not_or] using inner
      simp [behind, outermost, noBlock]
    · simp [behind, outermost]
  | _ => rfl

theorem inner_after {brackets : Brackets} {next? : Option Token} {front : List Token} (name : Text)
    (inner : (brackets.after next? front).Inner) :
    brackets.after (some (.identifier name)) front = brackets.after next? front := by
  induction front generalizing brackets with
  | nil => rfl
  | cons token front ih =>
    cases front with
    | nil => exact inner_behind token name inner
    | cons other front => exact ih inner

end Brackets

/-- What is open at a place, given the tokens before it and the one after it. -/
abbrev openedAt (front : List Token) (next? : Option Token) : Brackets :=
  Brackets.closed.after next? front

theorem openedAt_append (front : List Token) (token : Token) (later : List Token)
    (next? : Option Token) :
    openedAt (front ++ token :: later) next? =
      (openedAt front (some token)).after next? (token :: later) :=
  Brackets.after_append _ next? front (token :: later)

/-- A word about null or a qualifier is put in at an inner place of a type. -/
inductive Inserts : List Token → List Token → Prop where
  | word (front later : List Token) (name : Text) (dropped : isDropped name = true)
      (inner : (openedAt front later.head?).Inner) :
      Inserts (front ++ later) (front ++ .identifier name :: later)

/-- One of some names stands at a place of a kind, and speaks of the whole type there. -/
def MarkedAt (kind : Brackets → Prop) (names : List Text) (type : List Token) : Prop :=
  ∃ front name later, type = front ++ .identifier name :: later ∧ name ∈ names ∧
    kind (openedAt front (some (.identifier name))) ∧ Speaks front

/-- One of some names speaks of the whole type from inside: right behind the caret of an inner block, or
where as many brackets are closed as are opened, though in another order. -/
abbrev Leaks (names : List Text) (type : List Token) : Prop := MarkedAt Brackets.Inner names type

abbrev MarkedOutside (names : List Text) (type : List Token) : Prop :=
  MarkedAt (fun brackets => ¬ brackets.Inner) names type

theorem marked_iff_places (markers : List Text) (type : List Token) :
    (place 0 0 none type).any (isMarked markers) = true ↔
      MarkedOutside markers type ∨ Leaks markers type := by
  rw [marked_iff]
  constructor
  · rintro ⟨front, name, later, whole, known, speaks⟩
    by_cases inner : (openedAt front (some (.identifier name))).Inner
    · exact Or.inr ⟨front, name, later, whole, known, inner, speaks⟩
    · exact Or.inl ⟨front, name, later, whole, known, inner, speaks⟩
  · rintro (marked | marked)
    all_goals
      obtain ⟨front, name, later, whole, known, -, speaks⟩ := marked
      exact ⟨front, name, later, whole, known, speaks⟩

section Nesting

/-- No bracket of a type is closed before it is opened. -/
def Nested (type : List Token) : Prop :=
  ∀ front, front <+: type →
    front.count .rightParen ≤ front.count .leftParen ∧ front.count .greater ≤ front.count .less

theorem Nested.of_prefix {front type : List Token} (nested : Nested type) (inside : front <+: type) :
    Nested front :=
  fun start before => nested start (before.trans inside)

-- Where nothing is closed too early, what is open is what the counts say.
theorem Nested.count_opened {front : List Token} (nested : Nested front) (next? : Option Token) :
    (openedAt front next?).angles + front.count .greater = front.count .less ∧
      (openedAt front next?).parens + front.count .rightParen = front.count .leftParen := by
  induction front using List.reverseRecOn generalizing next? with
  | nil => exact ⟨rfl, rfl⟩
  | append_singleton front token ih =>
    obtain ⟨angles, parens⟩ := ih (nested.of_prefix (List.prefix_append front [token])) (some token)
    obtain ⟨closed, closed'⟩ := nested _ (List.prefix_refl _)
    have opened : openedAt (front ++ [token]) next? =
        (openedAt front (some token)).behind next? token := openedAt_append front token [] next?
    rw [opened]
    cases token <;> simp [Brackets.behind] at closed closed' ⊢ <;> omega

/-- In a type whose brackets are nested, words speak from inside right behind a caret only. -/
theorem Nested.leaks_iff {type : List Token} (nested : Nested type) (names : List Text) :
    Leaks names type ↔ ∃ front name later, type = front ++ .caret :: .identifier name :: later ∧
      name ∈ names ∧ (openedAt (front ++ [.caret]) (some (.identifier name))).Inner := by
  constructor
  · rintro ⟨front, name, later, rfl, known, inner, caret | ⟨parens, angles⟩⟩
    · obtain ⟨front, rfl⟩ := List.getLast?_eq_some_iff.mp caret
      exact ⟨front, name, later, by simp, known, inner⟩
    · obtain ⟨openAngles, openParens⟩ :=
        (nested.of_prefix (List.prefix_append front _)).count_opened (some (.identifier name))
      rcases inner with open' | open' | ⟨open', -⟩ <;> omega
  · rintro ⟨front, name, later, rfl, known, inner⟩
    exact ⟨front ++ [.caret], name, later, by simp, known, inner, Or.inl (by simp)⟩

end Nesting

section Insertion

variable {kind : Brackets → Prop} {names : List Text}

/-- A place of an appended list is one of its front, or one of its end with the front before it. -/
theorem markedAt_append (front tokens : List Token) :
    MarkedAt kind names (front ++ tokens) ↔
      MarkedAt kind names front ∨
        ∃ middle name later, tokens = middle ++ .identifier name :: later ∧ name ∈ names ∧
          kind (openedAt (front ++ middle) (some (.identifier name))) ∧ Speaks (front ++ middle) := by
  constructor
  · rintro ⟨start, name, later, whole, known, place, speaks⟩
    rcases List.append_eq_append_iff.mp whole with ⟨middle, rfl, rfl⟩ | ⟨middle, rfl, rest⟩
    · exact Or.inr ⟨middle, name, later, rfl, known, place, speaks⟩
    · cases middle with
      | nil =>
        rw [List.append_nil] at *
        exact Or.inr ⟨[], name, later, rest.symm, known, by simpa using place, by simpa using speaks⟩
      | cons token middle =>
        cases rest
        exact Or.inl ⟨start, name, middle, rfl, known, place, speaks⟩
  · rintro (inFront | behind)
    · obtain ⟨start, name, later, rfl, known, place, speaks⟩ := inFront
      exact ⟨start, name, later ++ tokens, by simp, known, place, speaks⟩
    · obtain ⟨middle, name, later, rfl, known, place, speaks⟩ := behind
      exact ⟨front ++ middle, name, later, by simp, known, place, speaks⟩

-- A word moves no bracket, and is not the last token before a place further on.
theorem speaks_word (front : List Token) (word : Text) (token : Token) (middle : List Token) :
    Speaks (front ++ .identifier word :: token :: middle) ↔ Speaks (front ++ token :: middle) := by
  simp [Speaks, List.getLast?_append, List.getLast?_cons]

theorem openedAt_word {front : List Token} {next? : Option Token} (word : Text) (other? : Option Token)
    (inner : (openedAt front next?).Inner) :
    openedAt (front ++ [.identifier word]) other? = openedAt front next? := by
  rw [openedAt_append]
  exact Brackets.inner_after word inner

theorem openedAt_behind_word {front : List Token} {token : Token} (word : Text) (middle : List Token)
    (next? : Option Token) (inner : (openedAt front (some token)).Inner) :
    openedAt (front ++ .identifier word :: token :: middle) next? =
      openedAt (front ++ token :: middle) next? := by
  have same := openedAt_word word (some token) inner
  rw [List.append_cons, openedAt_append _ token, same, ← openedAt_append]

/-- What stands outside is not moved by a word that is put in inside. -/
theorem Inserts.outside {left right : List Token} (step : Inserts left right) (names : List Text) :
    MarkedOutside names left ↔ MarkedOutside names right := by
  obtain ⟨front, later, word, -, inner⟩ := step
  simp only [MarkedOutside, markedAt_append]
  refine or_congr_right ⟨?_, ?_⟩
  · rintro ⟨middle, name, rest, rfl, known, place, speaks⟩
    cases middle with
    | nil => exact absurd (by simpa using inner) place
    | cons token middle =>
      have moved := (speaks_word front word token middle).mpr speaks
      refine ⟨.identifier word :: token :: middle, name, rest, rfl, known, ?_, moved⟩
      rw [openedAt_behind_word word middle _ inner]
      exact place
  · rintro ⟨middle, name, rest, whole, known, place, speaks⟩
    cases middle with
    | nil =>
      cases whole
      rw [List.append_nil, openedAt, Brackets.inner_after word inner] at place
      exact absurd inner place
    | cons first middle =>
      cases whole
      cases middle with
      | nil =>
        rw [openedAt_word word _ inner] at place
        exact absurd inner place
      | cons token middle =>
        rw [openedAt_behind_word word middle _ inner] at place
        exact ⟨token :: middle, name, rest, rfl, known, place, (speaks_word ..).mp speaks⟩

theorem Inserts.unqualified {left right : List Token} (step : Inserts left right) :
    NativeType.unqualified left = NativeType.unqualified right := by
  obtain ⟨front, later, word, dropped, -⟩ := step
  simp [NativeType.unqualified, isDroppedWord, Token.name?, dropped]

end Insertion

section Variation

/-- What no insertion changes is the same in types that differ in insertions. -/
theorem eq_of_inserts {α : Sort*} {left right : List Token} (view : List Token → α)
    (kept : ∀ left right, Inserts left right → view left = view right)
    (varied : EqvGen Inserts left right) : view left = view right := by
  induction varied with
  | rel left right step => exact kept left right step
  | refl type => rfl
  | symm left right _ ih => exact ih.symm
  | trans left middle right _ _ first second => exact first.trans second

variable {left right : List Token}

/-- Words about null and qualifiers that are put in or left out at inner places of a type change nothing
about it, unless they speak of the whole type from there and nothing outside does. -/
theorem ofTokens_inner_iff (varied : EqvGen Inserts left right) :
    ofTokens left = ofTokens right ↔ ∀ markers ∈ [nullableMarkers, nonnullMarkers],
      MarkedOutside markers left ∨ (Leaks markers left ↔ Leaks markers right) := by
  obtain ⟨name, pointer⟩ := same_of_unqualified
    (eq_of_inserts unqualified (fun _ _ step => step.unqualified) varied)
  have outside (markers : List Text) : MarkedOutside markers left = MarkedOutside markers right :=
    eq_of_inserts (MarkedOutside markers) (fun _ _ step => propext (step.outside markers)) varied
  have marked (markers : List Text) : (place 0 0 none left).any (isMarked markers) =
      (place 0 0 none right).any (isMarked markers) ↔
        MarkedOutside markers left ∨ (Leaks markers left ↔ Leaks markers right) := by
    rw [Bool.eq_iff_iff, marked_iff_places, marked_iff_places, outside]
    tauto
  rw [List.forall_mem_cons, List.forall_mem_singleton, ← marked, ← marked]
  constructor
  · intro same
    exact ⟨congrArg NativeType.nullable same, congrArg NativeType.nonnull same⟩
  · rintro ⟨nullable, nonnull⟩
    exact (NativeType.mk.injEq ..).mpr ⟨name, nullable, nonnull, pointer⟩

theorem ofTokens_inner_element :
    let plain := lex "NSArray<NSString *> * _Nullable".toList
    let marked := lex "NSArray<NSString * _Nonnull> * _Nullable".toList
    EqvGen Inserts plain marked ∧ ofTokens plain = ofTokens marked := by
  intro plain marked
  have step : Inserts plain marked := by
    have plain' : plain = lex "NSArray<NSString *".toList ++ lex "> * _Nullable".toList := by
      decide +kernel
    have marked' : marked = lex "NSArray<NSString *".toList ++
        .identifier "_Nonnull".toList :: lex "> * _Nullable".toList := by decide +kernel
    rw [plain', marked']
    exact .word _ _ _ (by decide) (by decide +kernel)
  refine ⟨.rel _ _ step, (ofTokens_inner_iff (.rel _ _ step)).mpr ?_⟩
  rw [List.forall_mem_cons, List.forall_mem_singleton]
  constructor
  · exact Or.inl ⟨lex "NSArray<NSString *> *".toList, "_Nullable".toList, [], by decide +kernel,
      by decide, by decide +kernel, Or.inr (by decide +kernel)⟩
  · have unmarked (type : List Token)
        (none : (place 0 0 none type).any (isMarked nonnullMarkers) = false) :
        ¬ Leaks nonnullMarkers type := fun leaks =>
      Bool.false_ne_true (none.symm.trans ((marked_iff_places _ type).mpr (Or.inr leaks)))
    exact Or.inr (iff_of_false (unmarked _ (by decide +kernel)) (unmarked _ (by decide +kernel)))

/-- A word behind the caret of a block among the arguments of a type makes the whole type nullable. -/
theorem inner_caret_leaks :
    let plain := lex "NSArray<void (^)(void)> *".toList
    let marked := lex "NSArray<void (^ _Nullable)(void)> *".toList
    Inserts plain marked ∧ (ofTokens plain).nullable = false ∧ (ofTokens marked).nullable = true := by
  intro plain marked
  refine ⟨?_, by decide +kernel, by decide +kernel⟩
  have plain' : plain = lex "NSArray<void (^".toList ++ lex ")(void)> *".toList := by decide +kernel
  have marked' : marked = lex "NSArray<void (^".toList ++
      .identifier "_Nullable".toList :: lex ")(void)> *".toList := by decide +kernel
  rw [plain', marked']
  exact .word _ _ _ (by decide) (by decide +kernel)

end Variation

end NativeType

end HeaderBindings
