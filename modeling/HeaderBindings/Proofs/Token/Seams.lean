import HeaderBindings.Proofs.Token.Printing
import Mathlib.Data.List.TakeWhile

/-!
Where one token ends and the next begins. A step of the lexer takes a stretch of a text and leaves
the rest; a text may be cut wherever the lexer comes to stand, and what stands before the cut is read
the same if a blank follows there.
-/

namespace HeaderBindings

namespace Text

theorem after_eq_none_iff (start text : Text) : after? start text = none ↔ ¬ start <+: text := by
  rw [Option.eq_none_iff_forall_ne_some]
  constructor
  · rintro missing ⟨rest, whole⟩
    exact missing rest ((after_eq_some_iff start text rest).mpr whole.symm)
  · intro missing rest found
    exact missing ⟨rest, ((after_eq_some_iff start text rest).mp found).symm⟩

-- The first occurrence of a pattern does not depend on what follows it.
theorem cutAt_append (pattern text before rest other : Text)
    (found : cutAt? pattern text = some (before, rest)) :
    cutAt? pattern (before ++ pattern ++ other) = some (before, other) := by
  have front (other : Text) : cutAt? pattern (pattern ++ other) = some ([], other) := by
    have start := (after_eq_some_iff pattern _ other).mpr rfl
    cases whole : pattern ++ other with
    | nil => simp [cutAt?, ← whole, start]
    | cons c tail => simp [cutAt?, ← whole, start]
  induction text generalizing before with
  | nil =>
    simp only [cutAt?, Option.map_eq_some_iff, Prod.mk.injEq] at found
    obtain ⟨_, _, rfl, _⟩ := found
    exact front other
  | cons c text ih =>
    simp only [cutAt?] at found
    split at found
    · cases found
      exact front other
    · next missing =>
      simp only [Option.map_eq_some_iff, Prod.mk.injEq] at found
      obtain ⟨cut, later, rfl, rfl⟩ := found
      have whole := eq_of_cutAt pattern text cut.1 cut.2 later
      -- A pattern at the front would have stood at the front of the old text.
      have still : after? pattern (c :: (cut.1 ++ pattern ++ other)) = none := by
        rw [after_eq_none_iff] at missing ⊢
        intro here
        have short : pattern <+: c :: (cut.1 ++ pattern) :=
          List.prefix_of_prefix_length_le here ⟨other, rfl⟩ (by simp; omega)
        exact missing (short.trans ⟨cut.2, by simp [whole]⟩)
      rw [List.cons_append, List.cons_append, cutAt?, still, ih cut.1 later]
      rfl

end Text

namespace Token

/-- One step of the lexer: the token that it gives, the text that it takes and the rest that it
leaves. -/
inductive Step : Option Token → Text → Text → Prop where
  | gap {c : Char} {rest : Text} (blank : isGap c = true) : Step none [c] rest
  | token {token : Token} {text rest : Text} (spells : Spells token text) (ends : Ends token rest) :
      Step (some token) text rest
  | sign {rest : Text} (ends : ∀ c ∈ rest.head?, isNameStart c = false) :
      Step (some unknown) ['@'] rest
  | slash {rest : Text} (ends : ∀ c ∈ rest.head?, c ≠ '/' ∧ c ≠ '*') :
      Step (some unknown) ['/'] rest
  | block {body rest : Text}
      (closes : Text.cutAt? ['*', '/'] (body ++ ['*', '/'] ++ rest) = some (body, rest)) :
      Step none ('/' :: '*' :: (body ++ ['*', '/'])) rest
  | line {body rest : Text} (inside : '\n' ∉ body) (ends : rest = [] ∨ rest.head? = some '\n') :
      Step none ('/' :: '/' :: body) rest
  | openBlock {body : Text} (closes : Text.cutAt? ['*', '/'] body = none) :
      Step (some unknown) ('/' :: '*' :: body) []
  | openString {body rest : Text} (closes : closedString? (body ++ rest) = none)
      (ends : afterBrokenString (body ++ rest) = rest) : Step (some unknown) ('"' :: body) rest

theorem nameRun_spec (text : Text) :
    text = (nameRun text).1 ++ (nameRun text).2 ∧ (∀ c ∈ (nameRun text).1, isNameChar c = true) ∧
      ∀ c ∈ (nameRun text).2.head?, isNameChar c = false := by
  refine ⟨List.takeWhile_append_dropWhile.symm, fun c member => ?_, fun c head => ?_⟩
  · exact List.mem_takeWhile_imp member
  · have stopped := List.head?_dropWhile_not isNameChar text
    rw [show (text.dropWhile isNameChar).head? = some c from head] at stopped
    exact stopped

theorem numberRun_spec (text : Text) :
    text = (numberRun text).1 ++ (numberRun text).2 ∧
      numberRun (numberRun text).1 = ((numberRun text).1, []) ∧
      numberRun (numberRun text).2 = ([], (numberRun text).2) := by
  fun_induction numberRun text with
  | case1 => simp [numberRun]
  | case2 c name => simp [numberRun, name]
  | case3 c other => simp [numberRun, other]
  | case4 c d text continued ih =>
    obtain ⟨whole, run, stop⟩ := ih
    refine ⟨by simpa [Cut.cons] using whole, ?_, stop⟩
    cases taken : (numberRun (d :: text)).1 with
    | nil =>
      -- A run that stops at once does not begin with a digit, so no point is the last of this one.
      have name : isNameChar c = true := by
        cases other : isNameChar c with
        | true => rfl
        | false =>
          have digit : d.isDigit = true := by
            rw [other, Bool.false_or, Bool.and_eq_true] at continued
            exact continued.2
          have longer : isNameChar d = true := by simp [isNameChar, Char.isAlphanum, digit]
          cases text <;> simp [numberRun, longer, Cut.cons] at taken
      simp [Cut.cons, taken, numberRun, name]
    | cons e taken' =>
      rw [taken] at whole run
      obtain ⟨rfl, _⟩ := List.cons.inj whole
      simp [Cut.cons, taken, numberRun, continued, run]
  | case5 c d text other => simp [numberRun, other]

theorem closedString_spec (text : Text) (cut : Cut) (closed : closedString? text = some cut) :
    text = cut.1 ++ cut.2 ∧ closedString? cut.1 = some (cut.1, []) := by
  fun_induction closedString? text generalizing cut with
  | case1 | case3 | case5 => cases closed
  | case2 => cases closed; simp [closedString?]
  | case4 d text => cases closed; simp [closedString?]
  | case6 d text other quote ih =>
    obtain ⟨inner, found, rfl⟩ := Option.map_eq_some_iff.mp closed
    obtain ⟨whole, again⟩ := ih inner found
    refine ⟨by simpa [Cut.cons] using whole, ?_⟩
    simp [Cut.cons, closedString?, other, again]
  | case7 c d text quote backslash ih =>
    obtain ⟨inner, found, rfl⟩ := Option.map_eq_some_iff.mp closed
    obtain ⟨whole, again⟩ := ih inner found
    refine ⟨by simpa [Cut.cons] using whole, ?_⟩
    cases taken : inner.1 with
    | nil => simp [taken, closedString?] at again
    | cons e taken' =>
      rw [taken] at again
      simp [Cut.cons, taken, closedString?, quote, backslash, again]

theorem afterBrokenString_spec (text : Text) :
    (∃ body, text = body ++ afterBrokenString text) ∧
      (afterBrokenString text = [] ∨ (afterBrokenString text).head? = some '\n') := by
  fun_induction afterBrokenString text with
  | case1 => simp
  | case2 c => simp
  | case3 text => exact ⟨⟨['\\'], rfl⟩, Or.inr rfl⟩
  | case4 d text feed ih => 
    obtain ⟨⟨body, whole⟩, ends⟩ := ih
    exact ⟨⟨'\\' :: d :: body, by simpa using whole⟩, ends⟩
  | case5 c d text other ih =>
    obtain ⟨⟨body, whole⟩, ends⟩ := ih
    exact ⟨⟨c :: body, by simpa using whole⟩, ends⟩

theorem cutAt_none_or (pattern text : Text) :
    Text.cutAt? pattern text = none ∨ ∃ body rest, text = body ++ pattern ++ rest ∧
      Text.cutAt? pattern text = some (body, rest) := by
  cases found : Text.cutAt? pattern text with
  | none => exact Or.inl rfl
  | some cut => exact Or.inr ⟨cut.1, cut.2, Text.eq_of_cutAt _ _ _ _ found, rfl⟩

-- A mark ends wherever it stands.
theorem ends_of_mark (c : Char) (token : Token) (known : mark? c = some token) (rest : Text) :
    Ends token rest := by
  have plain : ∀ mark ∈ marks, Ends mark rest := by
    intro mark member
    simp only [marks, List.mem_cons, List.not_mem_nil, or_false] at member
    rcases member with rfl | rfl | rfl | rfl | rfl | rfl | rfl | rfl | rfl | rfl | rfl | rfl | rfl |
      rfl | rfl | rfl | rfl <;> trivial
  exact plain token (List.mem_of_find?_eq_some known)

/-- The lexer takes one step at a time. -/
theorem step_first (c : Char) (text : Text) :
    ∃ taken, c :: text = taken ++ (first c text).2 ∧ Step (first c text).1 taken (first c text).2 := by
  unfold first
  split
  · next blank => exact ⟨[c], rfl, .gap blank⟩
  split
  · next gap point =>
    subst point
    unfold Token.point
    split
    · next rest => exact ⟨['.', '.', '.'], rfl, .token .ellipsis trivial⟩
    · next single =>
      refine ⟨['.'], rfl, .token .dot ?_⟩
      intro two
      rcases text with _ | ⟨d, _ | ⟨e, rest⟩⟩
      · cases two
      · cases two
      · cases two
        exact single rest rfl
  split
  · next gap point sign =>
    subst sign
    unfold atSign
    split
    · next d rest =>
      split
      · next start =>
        obtain ⟨_, chars, ends⟩ := nameRun_spec rest
        have name := nameChar_of_nameStart d start
        refine ⟨'@' :: d :: (nameRun rest).1, ?_, ?_⟩
        · simp [nameRun, name]
        · have run : nameRun (d :: rest) = (d :: (nameRun rest).1, (nameRun rest).2) := by
            simp [nameRun, name]
          rw [run]
          exact .token (.directive start chars) ends
      · next other => exact ⟨['@'], rfl, .sign (by simpa using other)⟩
    · exact ⟨['@'], rfl, .sign (by simp)⟩
  split
  · next gap point sign mark =>
    subst mark
    unfold quote
    split
    · next cut closed =>
      obtain ⟨whole, again⟩ := closedString_spec text cut closed
      exact ⟨'"' :: cut.1, by simp [← whole], .token (.stringLit again) trivial⟩
    · next unclosed =>
      obtain ⟨⟨body, whole⟩, _⟩ := afterBrokenString_spec text
      exact ⟨'"' :: body, by simp [← whole], .openString (whole ▸ unclosed) (by rw [← whole])⟩
  split
  · next gap point sign mark stroke =>
    subst stroke
    unfold slash
    split
    · next tail =>
      unfold afterBlockComment?
      rcases cutAt_none_or ['*', '/'] tail with missing | ⟨body, rest, whole, found⟩
      · rw [missing]
        exact ⟨'/' :: '*' :: tail, by simp, .openBlock missing⟩
      · have closes := whole ▸ found
        rw [found]
        exact ⟨'/' :: '*' :: (body ++ ['*', '/']), by simp [whole], .block closes⟩
    · next tail =>
      refine ⟨'/' :: '/' :: tail.takeWhile (· != '\n'), by simp, .line ?_ ?_⟩
      · intro feed
        simpa using List.mem_takeWhile_imp feed
      · have stopped := List.head?_dropWhile_not (· != '\n') tail
        cases rest : tail.dropWhile (· != '\n') with
        | nil => exact Or.inl rfl
        | cons d rest' =>
          rw [rest] at stopped
          exact Or.inr (by simpa using stopped)
    · next block line =>
      refine ⟨['/'], rfl, .slash ?_⟩
      intro d head
      cases text with
      | nil => cases head
      | cons e rest =>
        cases head
        exact ⟨fun same => line rest (by rw [same]), fun same => block rest (by rw [same])⟩
  split
  · next gap point sign mark stroke digit =>
    obtain ⟨whole, run, ends⟩ := numberRun_spec text
    exact ⟨c :: (numberRun text).1, by simp [← whole], .token (.number digit run) ends⟩
  split
  · next gap point sign mark stroke digit start =>
    obtain ⟨whole, chars, ends⟩ := nameRun_spec text
    exact ⟨c :: (nameRun text).1, by simp [← whole], .token (.identifier start chars) ends⟩
  · next gap point sign mark stroke digit start =>
    refine ⟨[c], rfl, ?_⟩
    cases known : mark? c with
    | some token => exact .token (.mark known) (ends_of_mark c token known text)
    | none =>
      refine .token (.unknown ?_) trivial
      simp [isStray, *]

/-- A step depends on nothing but what it takes and the rest. -/
theorem first_of_step {token? : Option Token} {taken rest : Text} (step : Step token? taken rest) :
    ∃ c later, taken = c :: later ∧ first c (later ++ rest) = (token?, rest) := by
  cases step with
  | @gap c rest blank => exact ⟨c, [], rfl, by simp [first, blank]⟩
  | token spells ends => exact first_of_spells _ _ _ spells ends
  | sign ends =>
    refine ⟨'@', [], rfl, ?_⟩
    cases rest with
    | nil => rfl
    | cons d rest => simp [first, isGap, atSign, ends d rfl]
  | slash ends =>
    refine ⟨'/', [], rfl, ?_⟩
    cases rest with
    | nil => rfl
    | cons d rest =>
      obtain ⟨stroke, star⟩ := ends d rfl
      simp [first, isGap, slash, stroke, star]
  | @block body rest closes =>
    refine ⟨'/', '*' :: (body ++ ['*', '/']), rfl, ?_⟩
    simp only [List.append_assoc, List.cons_append, List.nil_append] at closes
    simp [first, isGap, slash, afterBlockComment?, closes]
  | @line body rest inside ends =>
    refine ⟨'/', '/' :: body, rfl, ?_⟩
    have dropped : (body ++ rest).dropWhile (· != '\n') = rest := by
      have none : ∀ d ∈ body, (d != '\n') = true := by
        intro d member
        simp only [bne_iff_ne, ne_eq]
        rintro rfl
        exact inside member
      rw [List.dropWhile_append_of_pos none]
      rcases ends with rfl | feed
      · rfl
      · obtain ⟨tail, rfl⟩ := List.head?_eq_some_iff.mp feed
        simp
    simp [first, isGap, slash, dropped]
  | @openBlock body closes =>
    refine ⟨'/', '*' :: body, rfl, ?_⟩
    simp [first, isGap, slash, afterBlockComment?, closes]
  | @openString body rest closes ends =>
    refine ⟨'"', body, rfl, ?_⟩
    simp [first, isGap, quote, closes, ends]

section Following

variable {rest tail : Text}

theorem numberRun_stops_iff (c : Char) (text : Text) :
    numberRun (c :: text) = ([], c :: text) ↔
      isNameChar c = false ∧ (c = '.' → ∀ d ∈ text.head?, d.isDigit = false) := by
  cases text with
  | nil => cases name : isNameChar c <;> simp [numberRun, name]
  | cons d text =>
    by_cases point : c = '.'
    · subst point
      have plain : isNameChar '.' = false := by decide
      cases digit : d.isDigit <;> simp [numberRun, Cut.cons, plain, digit]
    · cases name : isNameChar c <;> simp [numberRun, Cut.cons, name, point]

theorem digit_of_gap (c : Char) (gap : isGap c = true) : c.isDigit = false := by
  simp only [isGap, Bool.or_eq_true, beq_iff_eq] at gap
  rcases gap with (((rfl | rfl) | rfl) | rfl) | rfl <;> decide

-- Whether a token ends does not depend on what stands behind a blank.
theorem ends_before_gap (token : Token) (front : Text) (ends : Ends token (front ++ rest))
    (gap : ∀ c ∈ tail.head?, isGap c = true) : Ends token (front ++ tail) := by
  cases front with
  | nil =>
    cases tail with
    | nil => cases token <;> simp [Ends, numberRun]
    | cons c tail => exact ends_of_gap token c (gap c rfl) tail
  | cons c front =>
    cases token with
    | identifier name | directive name => simpa [Ends] using ends
    | number digits =>
      obtain ⟨other, point⟩ := (numberRun_stops_iff c (front ++ rest)).mp ends
      refine (numberRun_stops_iff c (front ++ tail)).mpr ⟨other, fun same d head => ?_⟩
      cases front with
      | nil => exact digit_of_gap d (gap d head)
      | cons e front => exact point same d head
    | dot =>
      intro two
      cases front with
      | nil =>
        cases tail with
        | nil => cases two
        | cons d tail =>
          cases two
          cases gap '.' rfl
      | cons d front => exact ends (by simpa using two)
    | _ => trivial

theorem head_before_gap (front : Text) (p : Char → Prop) (ends : ∀ c ∈ (front ++ rest).head?, p c)
    (gap : ∀ c ∈ tail.head?, isGap c = true) (plain : ∀ c, isGap c = true → p c) :
    ∀ c ∈ (front ++ tail).head?, p c := by
  intro c head
  cases front with
  | nil => exact plain c (gap c head)
  | cons d front => exact ends c head

theorem nameStart_of_gap (c : Char) (gap : isGap c = true) : isNameStart c = false := by
  cases start : isNameStart c with
  | false => rfl
  | true =>
    have name := nameChar_of_nameStart c start
    simp [nameChar_of_gap c gap] at name

theorem stroke_of_gap (c : Char) (gap : isGap c = true) : c ≠ '/' ∧ c ≠ '*' := by
  constructor <;> rintro rfl <;> cases gap

/-- A step that leaves text of its line does not depend on what stands behind a blank there. -/
theorem Step.before_gap {token? : Option Token} {taken front : Text}
    (step : Step token? taken (front ++ rest)) (more : rest ≠ []) (feed : '\n' ∉ front ++ rest)
    (gap : ∀ c ∈ tail.head?, isGap c = true) : Step token? taken (front ++ tail) := by
  have stays : front ++ rest ≠ [] := by simp [more]
  have inLine : (front ++ rest).head? ≠ some '\n' := fun head => feed (List.mem_of_mem_head? head)
  generalize whole : front ++ rest = left at step
  cases step with
  | gap blank => exact .gap blank
  | token spells ends =>
    subst whole
    exact .token spells (ends_before_gap _ front ends gap)
  | sign ends =>
    subst whole
    exact .sign (head_before_gap front _ ends gap nameStart_of_gap)
  | slash ends =>
    subst whole
    exact .slash (head_before_gap front _ ends gap stroke_of_gap)
  | block closes => exact .block (Text.cutAt_append _ _ _ _ _ closes)
  | line inside ends =>
    rcases ends with rfl | head
    · exact absurd whole stays
    · exact absurd (whole ▸ head) inLine
  | openBlock closes => exact absurd whole stays
  | @openString body _ closes ends =>
    rcases (afterBrokenString_spec (body ++ left)).2 with none | head
    · exact absurd (whole.trans (ends.symm.trans none)) stays
    · exact absurd (by rw [whole, ← ends]; exact head) inLine

end Following

section Spelling

-- A character that neither is skipped nor begins a comment or a string.
def IsPlain (c : Char) : Prop := isGap c = false ∧ c ≠ '/' ∧ c ≠ '"'

theorem plain_of_nameChar (c : Char) (name : isNameChar c = true) : IsPlain c := by
  refine ⟨?_, ?_, ?_⟩
  · cases gap : isGap c with
    | false => rfl
    | true => simp [nameChar_of_gap c gap] at name
  · rintro rfl; cases name
  · rintro rfl; cases name

theorem mem_numberRun (text : Text) : ∀ c ∈ (numberRun text).1, isNameChar c = true ∨ c = '.' := by
  fun_induction numberRun text with
  | case1 | case3 | case5 => simp
  | case2 c name => simp [name]
  | case4 c d text continued ih =>
    intro e member
    rcases List.mem_cons.mp member with rfl | later
    · rcases Bool.or_eq_true_iff.mp continued with name | point
      · exact Or.inl name
      · exact Or.inr (beq_iff_eq.mp (Bool.and_eq_true_iff.mp point).1)
    · exact ih e later

theorem plain_of_numberRun (text : Text) : ∀ c ∈ (numberRun text).1, IsPlain c := by
  intro c member
  rcases mem_numberRun text c member with name | rfl
  · exact plain_of_nameChar c name
  · exact ⟨by decide, by decide, by decide⟩

/-- All characters of a token are plain, unless it is a string literal. -/
theorem Spells.plain {token : Token} {text : Text} (spells : Spells token text) :
    (∃ body, text = '"' :: body ∧ closedString? body = some (body, [])) ∨ ∀ c ∈ text, IsPlain c := by
  cases spells with
  | @mark c token known =>
    obtain ⟨gap, _, _, quote, slash, _, _⟩ := plain_of_mark c token known
    exact Or.inr (by simpa using ⟨gap, slash, quote⟩)
  | dot | ellipsis => exact Or.inr (by simp [IsPlain, isGap])
  | @identifier c name start chars =>
    have all : ∀ d ∈ c :: name, isNameChar d = true := by
      simpa using ⟨nameChar_of_nameStart c start, chars⟩
    exact Or.inr fun d member => plain_of_nameChar d (all d member)
  | @directive c name start chars =>
    have all : ∀ d ∈ c :: name, isNameChar d = true := by
      simpa using ⟨nameChar_of_nameStart c start, chars⟩
    right
    intro d member
    rcases List.mem_cons.mp member with rfl | later
    · exact ⟨by decide, by decide, by decide⟩
    · exact plain_of_nameChar d (all d later)
  | @number c digits digit run =>
    right
    intro d member
    rcases List.mem_cons.mp member with rfl | later
    · obtain ⟨gap, _, _, quote, slash⟩ := plain_of_digit d digit
      exact ⟨gap, slash, quote⟩
    · have all := plain_of_numberRun digits
      rw [run] at all
      exact all d later
  | stringLit closed => exact Or.inl ⟨_, rfl, closed⟩
  | @unknown c stray =>
    right
    simp only [isStray, Bool.and_eq_true, Bool.not_eq_true', List.contains_eq_mem,
      decide_eq_false_iff_not, List.mem_cons, List.not_mem_nil, or_false, not_or] at stray
    obtain ⟨⟨⟨⟨gap, _, _, quote, slash⟩, _⟩, _⟩, _⟩ := stray
    simpa using ⟨gap, slash, quote⟩

theorem closedString_last (text : Text) (cut : Cut) (closed : closedString? text = some cut) :
    cut.1.getLast? = some '"' := by
  have longer (c : Char) (inner : Text) (last : inner.getLast? = some '"') :
      (c :: inner).getLast? = some '"' := by
    cases inner with
    | nil => cases last
    | cons d inner => simpa using last
  fun_induction closedString? text generalizing cut with
  | case1 | case3 | case5 => cases closed
  | case2 | case4 => cases closed; rfl
  | case6 d text other quote ih =>
    obtain ⟨inner, found, rfl⟩ := Option.map_eq_some_iff.mp closed
    exact longer _ _ (longer _ _ (ih inner found))
  | case7 c d text quote backslash ih =>
    obtain ⟨inner, found, rfl⟩ := Option.map_eq_some_iff.mp closed
    exact longer _ _ (ih inner found)

-- What a step takes ends with a blank only if it is that blank, unless it takes the whole line.
theorem Step.blank_last {token? : Option Token} {front rest : Text} {c : Char}
    (blank : isGap c = true) (step : Step token? (front ++ [c]) rest) (more : rest ≠ [])
    (feed : rest.head? ≠ some '\n') : token? = none ∧ front = [] := by
  generalize whole : front ++ [c] = taken at step
  have last : taken.getLast? = some c := by simp [← whole]
  have noQuote : c ≠ '"' := by
    rintro rfl
    cases blank
  cases step with
  | gap other =>
    cases front with
    | nil => exact ⟨rfl, rfl⟩
    | cons d front => simp at whole
  | token spells ends =>
    exfalso
    rcases spells.plain with ⟨body, rfl, closed⟩ | plain
    · have quote := closedString_last body _ closed
      cases body with
      | nil => cases quote
      | cons d body => exact noQuote (Option.some.inj (last.symm.trans (by simpa using quote)))
    · have other := (plain c (List.mem_of_getLast? last)).1
      simp [blank] at other
  | sign ends | slash ends =>
    cases last
    cases blank
  | @block body _ closes =>
    have stroke : c = '/' := by simpa [List.getLast?_cons] using last.symm
    subst stroke
    cases blank
  | line inside ends =>
    rcases ends with none | head
    · exact absurd none more
    · exact absurd head feed
  | openBlock closes => exact absurd rfl more
  | @openString body _ closes ends =>
    rcases (afterBrokenString_spec (body ++ rest)).2 with none | head
    · exact absurd (ends ▸ none) more
    · exact absurd (ends ▸ head) feed

end Spelling

/-- The lexer reads tokens from the front of a text and comes to stand before the rest. -/
inductive Reads : List Token → Text → Text → Prop where
  | here (text : Text) : Reads [] text text
  | step {token? : Option Token} {tokens : List Token} {taken middle rest : Text}
      (step : Step token? taken middle) (later : Reads tokens middle rest) :
      Reads (token?.toList ++ tokens) (taken ++ middle) rest

/-- The texts before which the lexer comes to stand, from the whole text to the empty one. -/
def stops : Text → List Text
  | [] => [[]]
  | c :: text => (c :: text) :: stops (first c text).2
termination_by text => text.length
decreasing_by
  have shorter := length_first c text
  simp
  omega

section Reading

theorem stops_step {token? : Option Token} {taken middle : Text} (step : Step token? taken middle) :
    stops (taken ++ middle) = (taken ++ middle) :: stops middle := by
  obtain ⟨c, later, rfl, read⟩ := first_of_step step
  rw [List.cons_append, stops, read]

theorem lex_step {token? : Option Token} {taken middle : Text} (step : Step token? taken middle) :
    lex (taken ++ middle) = token?.toList ++ lex middle := by
  obtain ⟨c, later, rfl, read⟩ := first_of_step step
  rw [List.cons_append, lex, read]

/-- A text is empty, or a step takes a stretch off its front. -/
theorem step_induction {motive : Text → Prop} (nil : motive [])
    (step : ∀ token? taken middle, Step token? taken middle → motive middle →
      motive (taken ++ middle)) (text : Text) : motive text := by
  match text with
  | [] => exact nil
  | c :: text =>
    obtain ⟨taken, whole, taking⟩ := step_first c text
    have shorter := length_first c text
    rw [whole]
    exact step _ _ _ taking (step_induction nil step (first c text).2)
termination_by text.length

theorem mem_stops_self (text : Text) : text ∈ stops text := by
  cases text <;> simp [stops]

theorem Reads.mem_stops {tokens : List Token} {text rest : Text} (reads : Reads tokens text rest) :
    rest ∈ stops text := by
  induction reads with
  | here text => exact mem_stops_self text
  | step step later ih =>
    rw [stops_step step]
    exact List.mem_cons_of_mem _ ih

theorem mem_stops_iff (text rest : Text) :
    rest ∈ stops text ↔ ∃ tokens, Reads tokens text rest := by
  refine ⟨?_, fun ⟨tokens, reads⟩ => reads.mem_stops⟩
  induction text using step_induction with
  | nil =>
    intro member
    have none : rest = [] := by simpa [stops] using member
    exact ⟨[], none ▸ .here []⟩
  | step token? taken middle step ih =>
    intro member
    rw [stops_step step] at member
    rcases List.mem_cons.mp member with rfl | later
    · exact ⟨[], .here _⟩
    · obtain ⟨tokens, reads⟩ := ih later
      exact ⟨_, .step step reads⟩

theorem lex_of_reads {tokens : List Token} {text rest : Text} (reads : Reads tokens text rest) :
    lex text = tokens ++ lex rest := by
  induction reads with
  | here text => rfl
  | step step later ih => rw [lex_step step, ih, List.append_assoc]

theorem Reads.suffix {tokens : List Token} {text rest : Text} (reads : Reads tokens text rest) :
    rest <:+ text := by
  induction reads with
  | here text => exact List.suffix_rfl
  | step step later ih => exact ih.trans (List.suffix_append _ _)

/-- What is read before a place of a line is read the same if a blank stands there, or nothing. -/
theorem Reads.before_gap {tokens : List Token} {front rest tail : Text}
    (reads : Reads tokens (front ++ rest) rest) (more : rest ≠ []) (feed : '\n' ∉ front ++ rest)
    (gap : ∀ c ∈ tail.head?, isGap c = true) : Reads tokens (front ++ tail) tail := by
  generalize whole : front ++ rest = text at reads
  induction reads generalizing front with
  | here text =>
    have none : front = [] := by simpa using whole
    subst none
    exact .here tail
  | @step token? tokens taken middle rest step later ih =>
    obtain ⟨front', rfl⟩ := later.suffix
    rw [← List.append_assoc, List.append_cancel_right_eq] at whole
    subst whole
    have free : '\n' ∉ front' ++ rest := fun member => feed (by simp_all)
    rw [List.append_assoc]
    exact .step (step.before_gap more free gap) (ih more free rfl)

theorem Step.length_pos {token? : Option Token} {taken rest : Text}
    (step : Step token? taken rest) : 0 < taken.length := by
  obtain ⟨c, later, rfl, _⟩ := first_of_step step
  simp

-- Nothing is read between a place and itself.
theorem Reads.tokens_self {tokens : List Token} {text : Text} (reads : Reads tokens text text) :
    tokens = [] := by
  generalize same : text = rest at reads
  cases reads with
  | here => rfl
  | @step token? tokens taken middle _ step later =>
    have longer := step.length_pos
    have shorter := later.suffix.length_le
    rw [List.length_append] at shorter
    omega

-- The lexer stands before a blank, too, that is the last thing it reads.
theorem Reads.before_blank {tokens : List Token} {front rest : Text} {c : Char}
    (blank : isGap c = true) (reads : Reads tokens (front ++ c :: rest) rest) (more : rest ≠ [])
    (feed : '\n' ∉ rest) : Reads tokens (front ++ c :: rest) (c :: rest) := by
  generalize whole : front ++ c :: rest = text at reads
  induction reads generalizing front with
  | here text =>
    have length := congrArg List.length whole
    simp at length
    omega
  | @step token? tokens taken middle rest step later ih =>
    obtain ⟨front', rfl⟩ := later.suffix
    rcases List.eq_nil_or_concat front' with rfl | ⟨front', d, rfl⟩
    · -- The step takes the blank, and nothing else.
      have all : taken = front ++ [c] := by
        have cut : (front ++ [c]) ++ rest = taken ++ rest := by simpa using whole
        exact (List.append_cancel_right cut).symm
      subst all
      obtain ⟨rfl, rfl⟩ := step.blank_last blank more fun head => feed (List.mem_of_mem_head? head)
      have none := later.tokens_self
      subst none
      exact .here _
    · have cut : front ++ [c] = taken ++ front' ++ [d] := by
        have cut : (front ++ [c]) ++ rest = (taken ++ front' ++ [d]) ++ rest := by simpa using whole
        exact List.append_cancel_right cut
      obtain ⟨rfl, last⟩ := List.append_inj' cut rfl
      cases last
      have same : front'.concat c ++ rest = front' ++ c :: rest := by simp
      have inner := ih more feed same.symm
      rw [same] at step inner
      simpa using Reads.step step inner

end Reading

end Token

end HeaderBindings
