import HeaderBindings.Proofs.Text.Comments
import HeaderBindings.Token.Render

/-!
The text of tokens that a lexer gives, and tokens that are written with conventional spacing. A name is
the text of one identifier only, and an entry `key=value` begins with the key as an identifier.
-/

namespace HeaderBindings

namespace Token

theorem text_of_spells {token : Token} {text : Text} (spells : Spells token text)
    (known : token ≠ .unknown) : text = token.text := by
  cases spells with
  | mark mark => exact (text_of_mark _ _ mark).symm
  | unknown stray => exact absurd rfl known
  | _ => rfl

theorem name_of_spells {name text : Text} (spells : Spells (.identifier name) text) :
    ∃ c rest, name = c :: rest ∧ isNameStart c = true ∧ ∀ d ∈ rest, isNameChar d = true := by
  cases spells with
  | mark known =>
    have member := List.mem_of_find?_eq_some known
    simp [marks] at member
  | identifier start chars => exact ⟨_, _, rfl, start, chars⟩

theorem name_ne_nil {name : Text} (spelled : Spells (.identifier name) name) : name ≠ [] := by
  obtain ⟨c, rest, rfl, -⟩ := name_of_spells spelled
  exact List.cons_ne_nil c rest

section Characters

theorem visible_of_nameChar (c : Char) (name : isNameChar c = true) : isBlank c = false := by
  rw [isNameChar, Bool.or_eq_true, beq_iff_eq] at name
  rcases name with letter | rfl
  · exact Text.visible_of_alphanum c letter
  · decide

theorem edges_of_visible (text : Text) (visible : ∀ c ∈ text, isBlank c = false) :
    (∀ c ∈ text.head?, isBlank c = false) ∧ ∀ c ∈ text.getLast?, isBlank c = false :=
  ⟨fun c head => visible c (List.mem_of_mem_head? head),
    fun c last => visible c (List.mem_of_getLast? last)⟩

-- A mark stands for itself only, and is neither white space nor part of a name.
theorem mark_facts (c : Char) (token : Token) (known : mark? c = some token) :
    isBlank c = false ∧ isNameChar c = false ∧ token.isWord = false ∧ (c = '=' → token = equals) := by
  have all : ∀ mark ∈ marks, ∀ d, mark.text = [d] → isBlank d = false ∧ isNameChar d = false ∧
      mark.isWord = false ∧ (d = '=' → mark = equals) := by
    intro mark member d spelled
    simp only [marks, List.mem_cons, List.not_mem_nil, or_false] at member
    rcases member with rfl | rfl | rfl | rfl | rfl | rfl | rfl | rfl | rfl | rfl | rfl | rfl | rfl |
      rfl | rfl | rfl | rfl <;> cases spelled <;> decide
  exact all token (List.mem_of_find?_eq_some known) c (text_of_mark c token known)

end Characters

/-- A token that a lexer gives. -/
def Lexed (token : Token) : Prop := token = unknown ∨ Spells token token.text

theorem lexed_of_mem (text : Text) : ∀ token ∈ lex text, Lexed token := by
  induction text using step_induction with
  | nil => simp [lex]
  | step token? taken middle step ih =>
    intro token member
    rw [lex_step step, List.mem_append] at member
    rcases member with here | later
    · cases step with
      | token spells ends =>
        cases List.mem_singleton.mp here
        by_cases known : token = unknown
        · exact Or.inl known
        · exact Or.inr (text_of_spells spells known ▸ spells)
      | sign | slash | openBlock | openString => exact Or.inl (List.mem_singleton.mp here)
      | gap | block | line => cases here
    · exact ih token later

namespace Lexed

variable {token : Token}

theorem spelled {name : Text} (lexed : (identifier name).Lexed) : Spells (identifier name) name :=
  lexed.resolve_left nofun

/-- The text of a token begins and ends with visible characters. -/
theorem edges (lexed : token.Lexed) :
    (∃ c rest, token.text = c :: rest) ∧ (∀ c ∈ token.text.head?, isBlank c = false) ∧
      ∀ c ∈ token.text.getLast?, isBlank c = false := by
  rcases lexed with rfl | spells
  · exact ⟨⟨'?', [], rfl⟩, by decide, by decide⟩
  generalize own : token.text = text at spells
  have named (c : Char) (name : Text) (start : isNameStart c = true)
      (chars : ∀ d ∈ name, isNameChar d = true) : ∀ d ∈ c :: name, isBlank d = false := by
    intro d member
    rcases List.mem_cons.mp member with rfl | later
    · exact visible_of_nameChar d (nameChar_of_nameStart d start)
    · exact visible_of_nameChar d (chars d later)
  cases spells with
  | @mark c token known =>
    have visible := (mark_facts c token known).1
    exact ⟨⟨c, [], rfl⟩, edges_of_visible [c] (by simpa using visible)⟩
  | dot => exact ⟨⟨'.', [], rfl⟩, by decide, by decide⟩
  | ellipsis => exact ⟨⟨'.', ['.', '.'], rfl⟩, by decide, by decide⟩
  | @identifier c name start chars =>
    exact ⟨⟨c, name, rfl⟩, edges_of_visible _ (named c name start chars)⟩
  | @directive c name start chars =>
    refine ⟨⟨'@', c :: name, rfl⟩, edges_of_visible _ fun d member => ?_⟩
    rcases List.mem_cons.mp member with rfl | later
    · decide
    · exact named c name start chars d later
  | @number c digits digit run =>
    refine ⟨⟨c, digits, rfl⟩, edges_of_visible _ fun d member => ?_⟩
    rcases List.mem_cons.mp member with rfl | later
    · exact visible_of_nameChar d (by simp [isNameChar, Char.isAlphanum, digit])
    · have inner := mem_numberRun digits
      rw [run] at inner
      rcases inner d later with name | rfl
      · exact visible_of_nameChar d name
      · decide
  | @stringLit body closed =>
    refine ⟨⟨'"', body, rfl⟩, by simp [isBlank], fun c last => ?_⟩
    have quote := closedString_last body _ closed
    rw [List.getLast?_cons, quote] at last
    cases last
    decide
  | unknown stray =>
    cases own
    exact ⟨⟨'?', [], rfl⟩, by decide, by decide⟩

/-- The first character tells identifiers from other tokens, other words from marks, and the sign of
equality from other marks. -/
theorem front (lexed : token.Lexed) :
    (∃ name, token = identifier name ∧ Spells token name) ∨
      token.name? = none ∧ ∃ c rest, token.text = c :: rest ∧ isNameStart c = false ∧
        (token.isWord = false → isNameChar c = false) ∧ (c = '=' → token = equals) := by
  rcases lexed with rfl | spells
  · exact Or.inr ⟨rfl, '?', [], rfl, by decide⟩
  generalize own : token.text = text at spells
  cases spells with
  | @mark c token known =>
    obtain ⟨-, char, noWord, same⟩ := mark_facts c token known
    have start : isNameStart c = false := by
      cases start : isNameStart c with
      | false => rfl
      | true => simp [nameChar_of_nameStart c start] at char
    have name : token.name? = none := by cases token <;> first | rfl | cases noWord
    exact Or.inr ⟨name, c, [], rfl, start, fun _ => char, same⟩
  | dot => exact Or.inr ⟨rfl, '.', [], rfl, by decide⟩
  | ellipsis => exact Or.inr ⟨rfl, '.', ['.', '.'], rfl, by decide⟩
  | identifier start chars => exact Or.inl ⟨_, rfl, .identifier start chars⟩
  | @directive c name start chars =>
    exact Or.inr ⟨rfl, '@', c :: name, rfl, by decide, by simp [isWord], by simp⟩
  | @number c digits digit run =>
    refine Or.inr ⟨rfl, c, digits, rfl, ?_, by simp [isWord], ?_⟩
    · cases start : isNameStart c with
      | false => rfl
      | true => simp [digit_of_nameStart c start] at digit
    · rintro rfl
      cases digit
  | @stringLit body closed =>
    exact Or.inr ⟨rfl, '"', body, rfl, by decide, by simp [isWord], by simp⟩
  | unknown stray =>
    cases own
    exact Or.inr ⟨rfl, '?', [], rfl, by decide⟩

end Lexed

section Rendering

variable {tokens : List Token}

theorem render_cons (token : Token) (tokens : List Token) :
    render (token :: tokens) = token.text ++ renderAfter (some token) tokens := rfl

-- A token behind another one is separated by a blank at most.
theorem renderAfter_cons (before token : Token) (tokens : List Token) :
    renderAfter (some before) (token :: tokens) =
      (if spaced before token tokens.head? then [' '] else []) ++ render (token :: tokens) := by
  simp [renderAfter, render_cons]

/-- Written tokens begin with a visible character and end with one. -/
theorem edges_render (lexed : ∀ token ∈ tokens, token.Lexed) :
    (∀ c ∈ (render tokens).head?, isBlank c = false) ∧
      ∀ c ∈ (render tokens).getLast?, isBlank c = false := by
  induction tokens with
  | nil => simp [render, renderAfter]
  | cons token tokens ih =>
    obtain ⟨⟨c, text, own⟩, first, last⟩ := (lexed token List.mem_cons_self).edges
    have later := ih fun other member => lexed other (List.mem_cons_of_mem token member)
    constructor
    · rw [render_cons, own]
      simpa [own] using first
    · cases tokens with
      | nil => simpa [render_cons, renderAfter] using last
      | cons second tokens =>
        obtain ⟨⟨d, text', own'⟩, -⟩ := (lexed second (by simp)).edges
        rw [render_cons, renderAfter_cons, List.getLast?_append, List.getLast?_append]
        cases behind : (render (second :: tokens)).getLast? with
        | none =>
          have written := List.getLast?_eq_none_iff.mp behind
          simp [render_cons, own'] at written
        | some e =>
          have seen := later.2 e behind
          simpa using seen

theorem trim_render (lexed : ∀ token ∈ tokens, token.Lexed) : (render tokens).trim = render tokens :=
  Text.trim_of_visible _ (edges_render lexed).1 (edges_render lexed).2

-- What is written behind a word does not go on with it.
theorem head_renderAfter (before : Token) (word : before.isWord = true)
    (lexed : ∀ token ∈ tokens, token.Lexed) :
    ∀ c ∈ (renderAfter (some before) tokens).head?, isNameChar c = false := by
  cases tokens with
  | nil => simp [renderAfter]
  | cons token tokens =>
    intro c head
    rw [renderAfter_cons] at head
    by_cases gap : spaced before token tokens.head? = true
    · rw [if_pos gap] at head
      cases head
      decide
    · rw [if_neg gap, List.nil_append, render_cons] at head
      have noWord : token.isWord = false := by
        cases other : token.isWord with
        | false => rfl
        | true => simp [spaced, other, word] at gap
      rcases (lexed token List.mem_cons_self).front with ⟨name, rfl, -⟩ | ⟨-, d, text, own, -, mark, -⟩
      · cases noWord
      · rw [own] at head
        cases head
        exact mark noWord

theorem chars_of_name {name : Text} (word : Spells (identifier name) name) :
    ∀ c ∈ name, isNameChar c = true := by
  obtain ⟨c, rest, rfl, start, chars⟩ := name_of_spells word
  simpa using ⟨nameChar_of_nameStart c start, chars⟩

-- The sign of equality begins no other token.
theorem Lexed.equals_of_text {token : Token} (lexed : token.Lexed) {text : Text}
    (own : token.text = '=' :: text) : token = equals := by
  rcases lexed.front with ⟨name, rfl, spelled⟩ | ⟨-, c, rest, own', -, -, same⟩
  · have equality := chars_of_name spelled '=' (by rw [Token.text] at own; simp [own])
    cases equality
  · rw [own] at own'
    exact same (List.cons.inj own').1.symm

/-- Tokens that are written as a name and something that cannot go on with it begin with the name. -/
theorem identifier_of_render {name rest : Text} (word : Spells (identifier name) name)
    (stops : ∀ c ∈ rest.head?, isNameChar c = false) (lexed : ∀ token ∈ tokens, token.Lexed)
    (written : render tokens = name ++ rest) :
    ∃ later, tokens = identifier name :: later ∧
      renderAfter (some (identifier name)) later = rest := by
  obtain ⟨c, front, whole, start, -⟩ := name_of_spells word
  cases tokens with
  | nil => simp [render, renderAfter, whole] at written
  | cons token tokens =>
    have later : ∀ other ∈ tokens, other.Lexed := fun other member =>
      lexed other (List.mem_cons_of_mem token member)
    rcases (lexed token List.mem_cons_self).front with
      ⟨own, rfl, spelled⟩ | ⟨-, d, text, own, noStart, -⟩
    · -- Both texts go on with the same run of characters of names.
      have left := nameRun_append own _ (chars_of_name spelled) (head_renderAfter (identifier own) rfl later)
      have right := nameRun_append name rest (chars_of_name word) stops
      rw [← written, render_cons, Token.text, left, Prod.mk.injEq] at right
      obtain ⟨rfl, same⟩ := right
      exact ⟨tokens, rfl, same⟩
    · rw [render_cons, own, whole] at written
      cases (List.cons.inj written).1
      simp [noStart] at start

/-- One identifier only is written as a name. -/
theorem render_eq_name_iff {name : Text} (word : Spells (identifier name) name)
    (lexed : ∀ token ∈ tokens, token.Lexed) : render tokens = name ↔ tokens = [identifier name] := by
  constructor
  · intro written
    obtain ⟨later, rfl, none⟩ := identifier_of_render word (by simp) lexed
      (written.trans (List.append_nil name).symm)
    cases later with
    | nil => rfl
    | cons token later =>
      obtain ⟨⟨c, text, own⟩, -⟩ := (lexed token (by simp)).edges
      simp [renderAfter_cons, render_cons, own] at none
  · rintro rfl
    simp [render_cons, Token.text, renderAfter]

theorem render_assignment (key : Text) (value : List Token) :
    render (identifier key :: equals :: value) = key ++ '=' :: render value := by
  have after : renderAfter (some equals) value = render value := by
    cases value with
    | nil => rfl
    | cons token value =>
      rw [renderAfter_cons]
      have close : spaced equals token value.head? = false := by
        cases token <;> rfl
      simp [close]
  have close : spaced (identifier key) equals value.head? = false := rfl
  rw [render_cons, renderAfter_cons, close, render_cons, after]
  rfl

/-- Tokens that are written as a key, white space and the sign of equality begin with the key and the
sign. -/
theorem assignment_of_render {key trail value : Text} (word : Spells (identifier key) key)
    (blank : ∀ c ∈ trail, isBlank c = true) (lexed : ∀ token ∈ tokens, token.Lexed)
    (written : render tokens = key ++ (trail ++ '=' :: value)) :
    ∃ later, tokens = identifier key :: equals :: later := by
  have stops : ∀ c ∈ (trail ++ '=' :: value).head?, isNameChar c = false := by
    intro c head
    cases trail with
    | nil =>
      cases head
      decide
    | cons d trail =>
      cases head
      have white := blank c List.mem_cons_self
      cases name : isNameChar c with
      | false => rfl
      | true => simp [visible_of_nameChar c name] at white
  obtain ⟨later, rfl, behind⟩ := identifier_of_render word stops lexed written
  cases later with
  | nil => cases trail <;> simp [renderAfter] at behind
  | cons token later =>
    have known : token.Lexed := lexed token (by simp)
    obtain ⟨⟨c, text, own⟩, visible, -⟩ := known.edges
    rw [own] at visible
    have seen := visible c rfl
    rw [renderAfter_cons, render_cons, own] at behind
    by_cases gap : spaced (identifier key) token later.head? = true
    · -- A blank stands before the token, so the token is no sign of equality.
      rw [if_pos gap] at behind
      cases trail with
      | nil => simp at behind
      | cons d trail =>
        have tail := (List.cons.inj behind).2
        cases trail with
        | nil =>
          cases (List.cons.inj tail).1
          cases known.equals_of_text own
          cases gap
        | cons e trail =>
          cases (List.cons.inj tail).1
          simp [blank c (by simp)] at seen
    · rw [if_neg gap] at behind
      cases trail with
      | nil =>
        cases (List.cons.inj behind).1
        exact ⟨later, by rw [known.equals_of_text own]⟩
      | cons d trail =>
        cases (List.cons.inj behind).1
        simp [blank c List.mem_cons_self] at seen

end Rendering

end Token

end HeaderBindings
