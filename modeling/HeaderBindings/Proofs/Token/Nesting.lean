import HeaderBindings.Token.Group
import Mathlib.Tactic.MkIffOfInductiveProp

/-!
Nesting of brackets of one kind. Tokens that close all that they open, and nothing else, stand between
brackets as one group, forwards and backwards; a list of such tokens between commas is cut where it was
put together. For parentheses a test decides whether they are balanced.
-/

namespace HeaderBindings

namespace Token

/-- The depth behind tokens that are met at a depth, unless they close more than is open. -/
def depthBehind? (opening closing : Token) : Nat → List Token → Option Nat
  | depth, [] => some depth
  | depth, token :: tokens =>
    if token = opening then depthBehind? opening closing (depth + 1) tokens
    else if token = closing then
      match depth with
      | 0 => none
      | outer + 1 => depthBehind? opening closing outer tokens
    else depthBehind? opening closing depth tokens

/-- Tokens in which the brackets of one kind are balanced. -/
def Nests (opening closing : Token) (tokens : List Token) : Prop :=
  depthBehind? opening closing 0 tokens = some 0

instance (opening closing : Token) (tokens : List Token) : Decidable (Nests opening closing tokens) :=
  inferInstanceAs (Decidable (_ = _))

section Depth

variable {opening closing : Token}

theorem depthBehind_append (depth : Nat) (left right : List Token) :
    depthBehind? opening closing depth (left ++ right) =
      (depthBehind? opening closing depth left).bind (depthBehind? opening closing · right) := by
  fun_induction depthBehind? opening closing depth left with
  | case1 depth => rfl
  | case2 depth tokens ih => simp [depthBehind?, ih]
  | case3 tokens other => simp [depthBehind?, other]
  | case4 tokens outer other ih => simp [depthBehind?, other, ih]
  | case5 depth token tokens other another ih => simp [depthBehind?, other, another, ih]

theorem Nests.append {left right : List Token} (first : Nests opening closing left)
    (second : Nests opening closing right) : Nests opening closing (left ++ right) := by
  rw [Nests, depthBehind_append, first]
  exact second

-- Tokens without brackets of the kind stay at their depth.
theorem depthBehind_free (depth : Nat) (tokens : List Token) (opens : opening ∉ tokens)
    (closes : closing ∉ tokens) : depthBehind? opening closing depth tokens = some depth := by
  induction tokens with
  | nil => rfl
  | cons token tokens ih =>
    simp only [List.mem_cons, not_or] at opens closes
    simp [depthBehind?, Ne.symm opens.1, Ne.symm closes.1, ih opens.2 closes.2]

theorem depthBehind_count (apart : opening ≠ closing) (depth behind : Nat) (tokens : List Token)
    (level : depthBehind? opening closing depth tokens = some behind) :
    behind + tokens.count closing = depth + tokens.count opening := by
  fun_induction depthBehind? opening closing depth tokens with
  | case1 depth =>
    cases level
    rfl
  | case2 depth tokens ih =>
    have inner := ih level
    simp only [List.count_cons_self, List.count_cons_of_ne apart]
    omega
  | case3 tokens other => cases level
  | case4 tokens outer other ih =>
    have inner := ih level
    simp only [List.count_cons_self, List.count_cons_of_ne (Ne.symm apart)]
    omega
  | case5 depth token tokens other another ih =>
    have inner := ih level
    simp only [List.count_cons_of_ne other, List.count_cons_of_ne another]
    omega

-- Backwards, what closes opens and what opens closes.
theorem depthBehind_reverse (apart : opening ≠ closing) (depth behind : Nat) (tokens : List Token)
    (level : depthBehind? opening closing depth tokens = some behind) :
    depthBehind? closing opening behind tokens.reverse = some depth := by
  fun_induction depthBehind? opening closing depth tokens with
  | case1 depth =>
    cases level
    rfl
  | case2 depth tokens ih =>
    rw [List.reverse_cons, depthBehind_append, ih level]
    simp [depthBehind?, apart]
  | case3 tokens other => cases level
  | case4 tokens outer other ih =>
    rw [List.reverse_cons, depthBehind_append, ih level]
    simp [depthBehind?]
  | case5 depth token tokens other another ih =>
    rw [List.reverse_cons, depthBehind_append, ih level]
    simp [depthBehind?, other, another]

theorem Nests.reverse (apart : opening ≠ closing) {tokens : List Token}
    (nests : Nests opening closing tokens) : Nests closing opening tokens.reverse :=
  depthBehind_reverse apart 0 0 tokens nests

/-- Whether tokens close so many open parentheses, and all that they open themselves. -/
def closesAll : Nat → List Token → Bool
  | depth, [] => depth == 0
  | depth, .leftParen :: tokens => closesAll (depth + 1) tokens
  | 0, .rightParen :: _ => false
  | outer + 1, .rightParen :: tokens => closesAll outer tokens
  | depth, _ :: tokens => closesAll depth tokens

def balanced (tokens : List Token) : Bool := closesAll 0 tokens

theorem closesAll_iff (depth : Nat) (tokens : List Token) :
    closesAll depth tokens = true ↔ depthBehind? leftParen rightParen depth tokens = some 0 := by
  fun_induction closesAll depth tokens with
  | case1 depth => simp [depthBehind?]
  | case2 depth tokens ih => simpa [depthBehind?] using ih
  | case3 tokens => simp [depthBehind?]
  | case4 outer tokens ih => simpa [depthBehind?] using ih
  | case5 depth token tokens opens bottom above ih =>
    have closes : token ≠ rightParen := by
      cases depth with
      | zero => exact bottom rfl
      | succ outer => exact above outer rfl
    have opens : token ≠ leftParen := opens
    simpa [depthBehind?, opens, closes] using ih

theorem balanced_iff_nests (tokens : List Token) :
    balanced tokens = true ↔ Nests leftParen rightParen tokens := closesAll_iff 0 tokens

end Depth

section Groups

variable {opening closing : Token}

/-- Tokens read in front of what a group goes on with. -/
def Group.pushAll (tokens : List Token) (group : Group) : Group :=
  { group with inner := tokens ++ group.inner }

theorem Group.read_append (depth behind : Nat) (tokens rest : List Token)
    (level : depthBehind? opening closing depth tokens = some behind) :
    Group.read opening closing depth (tokens ++ rest) =
      (Group.read opening closing behind rest).pushAll tokens := by
  fun_induction depthBehind? opening closing depth tokens with
  | case1 depth =>
    cases level
    simp [Group.pushAll]
  | case2 depth tokens ih => simp [Group.read, ih level, Group.push, Group.pushAll]
  | case3 tokens other => cases level
  | case4 tokens outer other ih => simp [Group.read, other, ih level, Group.push, Group.pushAll]
  | case5 depth token tokens other another ih =>
    simp [Group.read, other, another, ih level, Group.push, Group.pushAll]

/-- Tokens with balanced brackets between brackets are a closed group. -/
theorem group_nests (apart : opening ≠ closing) (tokens rest : List Token)
    (nests : Nests opening closing tokens) :
    group? opening closing (opening :: (tokens ++ closing :: rest)) = some ⟨tokens, true, rest⟩ := by
  rw [group?, if_pos rfl, Group.read_append 0 0 tokens _ nests]
  simp [Group.read, Ne.symm apart, Group.pushAll]

theorem Group.of_push {token : Token} {group : Group} {inner rest : List Token}
    (whole : group.push token = ⟨inner, true, rest⟩) :
    ∃ later, inner = token :: later ∧ group = ⟨later, true, rest⟩ := by
  obtain ⟨later, closed, behind⟩ := group
  cases whole
  exact ⟨later, rfl, rfl⟩

theorem Group.nests_of_read (depth : Nat) (tokens : List Token) {inner rest : List Token}
    (closed : Group.read opening closing depth tokens = ⟨inner, true, rest⟩) :
    tokens = inner ++ closing :: rest ∧ depthBehind? opening closing depth inner = some 0 := by
  fun_induction Group.read opening closing depth tokens generalizing inner with
  | case1 => cases closed
  | case2 depth tokens ih =>
    obtain ⟨later, rfl, here⟩ := Group.of_push closed
    obtain ⟨rfl, level⟩ := ih here
    exact ⟨rfl, by simpa [depthBehind?] using level⟩
  | case3 tokens apart =>
    cases closed
    exact ⟨rfl, rfl⟩
  | case4 tokens outer apart ih =>
    obtain ⟨later, rfl, here⟩ := Group.of_push closed
    obtain ⟨rfl, level⟩ := ih here
    exact ⟨rfl, by simpa [depthBehind?, apart] using level⟩
  | case5 depth token tokens other another ih =>
    obtain ⟨later, rfl, here⟩ := Group.of_push closed
    obtain ⟨rfl, level⟩ := ih here
    exact ⟨rfl, by simpa [depthBehind?, other, another] using level⟩

/-- A closed group is balanced tokens between brackets. -/
theorem nests_of_group {tokens inner rest : List Token}
    (closed : group? opening closing tokens = some ⟨inner, true, rest⟩) :
    tokens = opening :: (inner ++ closing :: rest) ∧ Nests opening closing inner := by
  cases tokens with
  | nil => cases closed
  | cons token tokens =>
    rw [group?] at closed
    split at closed
    · next same =>
      obtain ⟨rfl, nests⟩ := Group.nests_of_read 0 tokens (Option.some.inj closed)
      exact ⟨by rw [same], nests⟩
    · cases closed

end Groups

section Commas

/-- No comma of a list stands outside all of its parentheses and angles. -/
def CommasInside (tokens : List Token) : Prop :=
  ∀ before after, tokens = before ++ comma :: after →
    ¬ (Nests leftParen rightParen before ∧ Nests less greater before)

theorem commasInside_iff (tokens : List Token) :
    CommasInside tokens ↔ ∀ place < tokens.length, tokens[place]? = some comma →
      ¬ (Nests leftParen rightParen (tokens.take place) ∧ Nests less greater (tokens.take place)) := by
  constructor
  · intro inside place bound here
    refine inside (tokens.take place) (tokens.drop (place + 1)) ?_
    obtain ⟨_, same⟩ := List.getElem?_eq_some_iff.mp here
    rw [← same, List.getElem_cons_drop, List.take_append_drop]
  · rintro inside before after rfl
    simpa using inside before.length (by simp) (by simp)

instance (tokens : List Token) : Decidable (CommasInside tokens) :=
  decidable_of_iff _ (commasInside_iff tokens).symm

/-- An entry of a list between commas. -/
@[mk_iff]
structure IsEntry (tokens : List Token) : Prop where
  written : tokens ≠ []
  parens : Nests leftParen rightParen tokens
  angles : Nests less greater tokens
  commas : CommasInside tokens

instance (tokens : List Token) : Decidable (IsEntry tokens) :=
  decidable_of_iff _ (isEntry_iff tokens).symm

/-- Entries with commas between them. -/
def listed (entries : List (List Token)) : List Token := List.intercalate [comma] entries

theorem listed_cons (entry : List Token) (entries : List (List Token)) :
    listed (entry :: entries) =
      entry ++ (entries.flatMap fun other => comma :: other) := by
  induction entries generalizing entry with
  | nil => simp [listed, List.intercalate]
  | cons second entries ih =>
    rw [listed, List.intercalate_cons_cons, ← listed, ih second]
    simp

theorem mem_listed {entries : List (List Token)} {entry : List Token} (member : entry ∈ entries)
    {token : Token} (own : token ∈ entry) : token ∈ listed entries := by
  cases entries with
  | nil => cases member
  | cons first entries =>
    rw [listed_cons, List.mem_append, List.mem_flatMap]
    rcases List.mem_cons.mp member with rfl | later
    · exact Or.inl own
    · exact Or.inr ⟨entry, later, List.mem_cons_of_mem _ own⟩

theorem of_mem_listed {entries : List (List Token)} {token : Token} (member : token ∈ listed entries) :
    token = comma ∨ ∃ entry ∈ entries, token ∈ entry := by
  cases entries with
  | nil => cases member
  | cons first entries =>
    rw [listed_cons, List.mem_append, List.mem_flatMap] at member
    rcases member with own | ⟨entry, later, own⟩
    · exact Or.inr ⟨first, List.mem_cons_self, own⟩
    · rcases List.mem_cons.mp own with comma | own
      · exact Or.inl comma
      · exact Or.inr ⟨entry, List.mem_cons_of_mem first later, own⟩

/-- The depth that a cut at commas counts. -/
def nestingOf : List Token → Int
  | [] => 0
  | token :: tokens => token.nesting + nestingOf tokens

theorem nestingOf_count (tokens : List Token) :
    nestingOf tokens = tokens.count leftParen + tokens.count less
      - tokens.count rightParen - tokens.count greater := by
  induction tokens with
  | nil => rfl
  | cons token tokens ih =>
    rw [nestingOf]
    cases token <;> simp [nesting, ih] <;> omega

-- Inside an entry the one depth of the cut is the sum of both depths, and none of them is negative.
theorem nestingOf_front {entry before after : List Token} (isEntry : IsEntry entry)
    (cut : entry = before ++ after) :
    nestingOf before = 0 ↔ Nests leftParen rightParen before ∧ Nests less greater before := by
  have parens := isEntry.parens
  have angles := isEntry.angles
  rw [cut, Nests, depthBehind_append] at parens angles
  obtain ⟨parenDepth, parens, _⟩ := Option.bind_eq_some_iff.mp parens
  obtain ⟨angleDepth, angles, _⟩ := Option.bind_eq_some_iff.mp angles
  have parenCount := depthBehind_count (by decide) _ _ _ parens
  have angleCount := depthBehind_count (by decide) _ _ _ angles
  rw [Nests, Nests, parens, angles, Option.some.injEq, Option.some.injEq, nestingOf_count]
  omega

theorem cutCommas_append (depth : Int) (front rest : List Token)
    (inside : ∀ before after, front = before ++ comma :: after → depth + nestingOf before ≠ 0) :
    cutCommas depth (front ++ rest) =
      let cut := cutCommas (depth + nestingOf front) rest
      (front ++ cut.1, cut.2) := by
  induction front generalizing depth with
  | nil => simp [nestingOf]
  | cons token front ih =>
    have here : (token = comma && depth == 0) = false := by
      cases same : decide (token = comma) with
      | false => rfl
      | true =>
        have deep := inside [] front (by rw [of_decide_eq_true same]; rfl)
        simpa [nestingOf] using deep
    have later := ih (depth + token.nesting) fun before after cut => by
      have deep := inside (token :: before) after (by rw [cut]; rfl)
      simpa [nestingOf, Int.add_assoc] using deep
    simp only [List.cons_append, cutCommas, later, here]
    simp [nestingOf, Int.add_assoc]

theorem cutCommas_entry (entry rest : List Token) (isEntry : IsEntry entry) :
    cutCommas 0 (entry ++ rest) =
      let cut := cutCommas 0 rest
      (entry ++ cut.1, cut.2) := by
  have level := (nestingOf_front isEntry (List.append_nil entry).symm).mpr
    ⟨isEntry.parens, isEntry.angles⟩
  have cut := cutCommas_append 0 entry rest fun before after whole zero =>
    isEntry.commas before after whole
      ((nestingOf_front isEntry whole).mp (by simpa using zero))
  rwa [level] at cut

/-- A list between commas is cut where it was put together. -/
theorem splitCommas_listed (entries : List (List Token)) (sound : ∀ entry ∈ entries, IsEntry entry) :
    splitCommas (listed entries) = entries := by
  have behind (entries : List (List Token)) (sound : ∀ entry ∈ entries, IsEntry entry) :
      cutCommas 0 (entries.flatMap fun other => comma :: other) = ([], entries) := by
    induction entries with
    | nil => rfl
    | cons entry entries ih =>
      have later := ih fun other member => sound other (List.mem_cons_of_mem entry member)
      have first := cutCommas_entry entry (entries.flatMap fun other => comma :: other)
        (sound entry List.mem_cons_self)
      simp [cutCommas, nesting, first, later]
  have kept : entries.filter (!·.isEmpty) = entries := by
    refine List.filter_eq_self.mpr fun entry member => ?_
    simpa using (sound entry member).written
  cases entries with
  | nil => rfl
  | cons entry entries =>
    have later := behind entries fun other member => sound other (List.mem_cons_of_mem entry member)
    have first := cutCommas_entry entry (entries.flatMap fun other => comma :: other)
      (sound entry List.mem_cons_self)
    rw [splitCommas, listed_cons, first, later]
    simpa using kept

theorem nests_listed {opening closing : Token} (entries : List (List Token))
    (opens : opening ≠ comma) (closes : closing ≠ comma)
    (nests : ∀ entry ∈ entries, Nests opening closing entry) :
    Nests opening closing (listed entries) := by
  have separator : Nests opening closing [comma] :=
    depthBehind_free 0 [comma] (by simpa using opens) (by simpa using closes)
  have behind : ∀ entries : List (List Token), (∀ entry ∈ entries, Nests opening closing entry) →
      Nests opening closing (entries.flatMap fun other => comma :: other) := by
    intro entries nests
    induction entries with
    | nil => rfl
    | cons entry entries ih =>
      have later := ih fun other member => nests other (List.mem_cons_of_mem entry member)
      exact (separator.append (nests entry List.mem_cons_self)).append later
  cases entries with
  | nil => rfl
  | cons entry entries =>
    rw [listed_cons]
    exact (nests entry List.mem_cons_self).append
      (behind entries fun other member => nests other (List.mem_cons_of_mem entry member))

end Commas

end Token

end HeaderBindings
