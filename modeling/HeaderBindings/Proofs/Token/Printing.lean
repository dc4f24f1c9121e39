import HeaderBindings.Token.Lexer

/-!
Printing tokens and reading them back. A token is spelled by the text that it is read from alone; in
print any blanks stand between tokens, and none have to where the first token ends anyway. Reading a
print gives the tokens that were printed.
-/

namespace HeaderBindings

namespace Token

/-- A character that begins no token and no comment, and is not skipped. -/
def isStray (c : Char) : Bool :=
  !isGap c && !(['.', '@', '"', '/'].contains c) && !c.isDigit && !isNameStart c && (mark? c).isNone

/-- A text that a token is read from, if nothing goes on with it. -/
inductive Spells : Token → Text → Prop where
  | mark {c : Char} {token : Token} (known : mark? c = some token) : Spells token [c]
  | dot : Spells dot ['.']
  | ellipsis : Spells ellipsis ['.', '.', '.']
  | identifier {c : Char} {name : Text} (start : isNameStart c = true)
      (chars : ∀ d ∈ name, isNameChar d = true) : Spells (identifier (c :: name)) (c :: name)
  | directive {c : Char} {name : Text} (start : isNameStart c = true)
      (chars : ∀ d ∈ name, isNameChar d = true) :
      Spells (directive ('@' :: c :: name)) ('@' :: c :: name)
  | number {c : Char} {digits : Text} (digit : c.isDigit = true)
      (run : numberRun digits = (digits, [])) : Spells (number (c :: digits)) (c :: digits)
  | stringLit {body : Text} (closed : closedString? body = some (body, [])) :
      Spells (stringLit ('"' :: body)) ('"' :: body)
  | unknown {c : Char} (stray : isStray c = true) : Spells unknown [c]

/-- A text that does not go on with a token when it follows at once. -/
def Ends : Token → Text → Prop
  | identifier _, text | directive _, text => ∀ c ∈ text.head?, isNameChar c = false
  | number _, text => numberRun text = ([], text)
  | dot, text => text.take 2 ≠ ['.', '.']
  | _, _ => True

/-- A text that tokens are printed to, with any blanks before, between and behind them. -/
inductive Prints : List Token → Text → Prop where
  | done {gap : Text} (blank : ∀ c ∈ gap, isGap c = true) : Prints [] gap
  | next {token : Token} {tokens : List Token} {gap text rest : Text}
      (blank : ∀ c ∈ gap, isGap c = true) (spells : Spells token text) (ends : Ends token rest)
      (later : Prints tokens rest) : Prints (token :: tokens) (gap ++ text ++ rest)

section Gaps

theorem nameChar_of_gap (c : Char) (gap : isGap c = true) : isNameChar c = false := by
  simp only [isGap, Bool.or_eq_true, beq_iff_eq] at gap
  rcases gap with (((rfl | rfl) | rfl) | rfl) | rfl <;> decide

theorem ends_of_gap (token : Token) (c : Char) (gap : isGap c = true) (text : Text) :
    Ends token (c :: text) := by
  have other := nameChar_of_gap c gap
  have noPoint : c ≠ '.' := by
    rintro rfl
    cases gap
  cases token with
  | identifier name | directive name =>
    intro d head
    cases head
    exact other
  | number digits =>
    cases text with
    | nil => simp [Ends, numberRun, other]
    | cons d text => simp [Ends, numberRun, other, noPoint]
  | dot => simp [Ends, noPoint]
  | _ => trivial

theorem lex_gap (gap text : Text) (blank : ∀ c ∈ gap, isGap c = true) :
    lex (gap ++ text) = lex text := by
  induction gap with
  | nil => rfl
  | cons c gap ih =>
    have here := blank c List.mem_cons_self
    rw [List.cons_append, lex, first, if_pos here]
    exact ih fun d member => blank d (List.mem_cons_of_mem c member)

end Gaps

section Runs

theorem nameRun_append (name rest : Text) (chars : ∀ d ∈ name, isNameChar d = true)
    (ends : ∀ c ∈ rest.head?, isNameChar c = false) : nameRun (name ++ rest) = (name, rest) := by
  have stopped : rest.takeWhile isNameChar = [] ∧ rest.dropWhile isNameChar = rest := by
    cases rest with
    | nil => exact ⟨rfl, rfl⟩
    | cons c rest => simp [ends c rfl]
  simp [nameRun, List.takeWhile_append_of_pos chars, List.dropWhile_append_of_pos chars, stopped]

-- A run that takes all of a text goes on with what follows the text.
theorem numberRun_goesOn (digits rest : Text) (run : numberRun digits = (digits, [])) :
    numberRun (digits ++ rest) = (digits ++ (numberRun rest).1, (numberRun rest).2) := by
  induction digits with
  | nil => rfl
  | cons c digits ih =>
    cases digits with
    | nil =>
      have name : isNameChar c = true := by
        cases other : isNameChar c with
        | true => rfl
        | false => simp [numberRun, other] at run
      cases rest <;> simp [numberRun, name, Cut.cons]
    | cons d digits =>
      -- A run that takes all of the digits takes the first of them.
      have continued : (isNameChar c || (c == '.' && d.isDigit)) = true := by
        cases other : (isNameChar c || (c == '.' && d.isDigit)) with
        | true => rfl
        | false => simp [numberRun, other] at run
      simp only [numberRun, continued, if_true, Cut.cons, Prod.mk.injEq, List.cons.injEq,
        true_and] at run
      have tail := ih (Prod.ext run.1 run.2)
      simp only [List.cons_append] at tail ⊢
      simp [numberRun, continued, Cut.cons, tail]

theorem numberRun_append (digits rest : Text) (run : numberRun digits = (digits, []))
    (ends : numberRun rest = ([], rest)) : numberRun (digits ++ rest) = (digits, rest) := by
  rw [numberRun_goesOn digits rest run, ends, List.append_nil]

theorem closedString_append (text rest : Text) (cut : Cut) (closed : closedString? text = some cut) :
    closedString? (text ++ rest) = some (cut.1, cut.2 ++ rest) := by
  fun_induction closedString? text generalizing cut with
  | case1 | case3 | case5 => cases closed
  | case2 =>
    cases closed
    cases rest <;> simp [closedString?]
  | case4 d text =>
    cases closed
    simp [closedString?]
  | case6 d text other quote ih =>
    obtain ⟨inner, found, rfl⟩ := Option.map_eq_some_iff.mp closed
    simp [closedString?, other, ih inner found, Cut.cons]
  | case7 c d text quote backslash ih =>
    obtain ⟨inner, found, rfl⟩ := Option.map_eq_some_iff.mp closed
    have tail := ih inner found
    rw [List.cons_append] at tail
    simp [closedString?, quote, backslash, tail, Cut.cons]

end Runs

section Reading

-- The marks are none of the characters that begin a longer token or are skipped.
theorem plain_of_mark (c : Char) (token : Token) (known : mark? c = some token) :
    isGap c = false ∧ c ≠ '.' ∧ c ≠ '@' ∧ c ≠ '"' ∧ c ≠ '/' ∧ c.isDigit = false ∧
      isNameStart c = false := by
  have all : ∀ mark ∈ marks, ∀ d, mark.text = [d] → isGap d = false ∧ d ≠ '.' ∧ d ≠ '@' ∧ d ≠ '"' ∧
      d ≠ '/' ∧ d.isDigit = false ∧ isNameStart d = false := by
    intro mark member d spelled
    simp only [marks, List.mem_cons, List.not_mem_nil, or_false] at member
    rcases member with rfl | rfl | rfl | rfl | rfl | rfl | rfl | rfl | rfl | rfl | rfl | rfl | rfl |
      rfl | rfl | rfl | rfl <;> cases spelled <;> decide
  exact all token (List.mem_of_find?_eq_some known) c (text_of_mark c token known)

theorem toNat_of_lower (c : Char) (lower : c.isLower = true) : 'a'.toNat ≤ c.toNat := by
  have bounds : (decide (c.val ≥ 'a'.val) && decide (c.val ≤ 'z'.val)) = true := lower
  exact UInt32.le_iff_toNat_le.mp (of_decide_eq_true (Bool.and_eq_true_iff.mp bounds).1)

theorem toNat_of_alpha (c : Char) (letter : c.isAlpha = true) : 'A'.toNat ≤ c.toNat := by
  rcases Bool.or_eq_true_iff.mp (show (c.isUpper || c.isLower) = true from letter) with upper | lower
  · have bounds : decide (c.val ≥ 'A'.val ∧ c.val ≤ 'Z'.val) = true := upper
    exact UInt32.le_iff_toNat_le.mp (of_decide_eq_true bounds).1
  · exact Nat.le_trans (by decide) (toNat_of_lower c lower)

theorem digit_of_nameStart (c : Char) (start : isNameStart c = true) : c.isDigit = false := by
  cases digit : c.isDigit with
  | false => rfl
  | true =>
    simp only [isNameStart, Bool.or_eq_true, beq_iff_eq] at start
    rcases start with letter | rfl
    · have crossed := Nat.le_trans (toNat_of_alpha c letter) (Char.isDigit_iff_toNat.mp digit).2
      exact absurd crossed (by decide)
    · cases digit

theorem plain_of_nameStart (c : Char) (start : isNameStart c = true) :
    isGap c = false ∧ c ≠ '.' ∧ c ≠ '@' ∧ c ≠ '"' ∧ c ≠ '/' ∧ c.isDigit = false := by
  refine ⟨?_, ?_, ?_, ?_, ?_, digit_of_nameStart c start⟩
  · cases gap : isGap c with
    | false => rfl
    | true =>
      simp only [isGap, Bool.or_eq_true, beq_iff_eq] at gap
      rcases gap with (((rfl | rfl) | rfl) | rfl) | rfl <;> cases start
  · rintro rfl; cases start
  · rintro rfl; cases start
  · rintro rfl; cases start
  · rintro rfl; cases start

theorem plain_of_digit (c : Char) (digit : c.isDigit = true) :
    isGap c = false ∧ c ≠ '.' ∧ c ≠ '@' ∧ c ≠ '"' ∧ c ≠ '/' := by
  refine ⟨?_, ?_, ?_, ?_, ?_⟩
  · cases gap : isGap c with
    | false => rfl
    | true =>
      simp only [isGap, Bool.or_eq_true, beq_iff_eq] at gap
      rcases gap with (((rfl | rfl) | rfl) | rfl) | rfl <;> cases digit
  · rintro rfl; cases digit
  · rintro rfl; cases digit
  · rintro rfl; cases digit
  · rintro rfl; cases digit

theorem nameChar_of_nameStart (c : Char) (start : isNameStart c = true) : isNameChar c = true := by
  simp only [isNameStart, isNameChar, Char.isAlphanum, Bool.or_eq_true] at start ⊢
  rcases start with letter | underscore
  · exact Or.inl (Or.inl letter)
  · exact Or.inr underscore

-- The reader of one token stops where the token ends.
theorem first_of_spells (token : Token) (text rest : Text) (spells : Spells token text)
    (ends : Ends token rest) :
    ∃ c later, text = c :: later ∧ first c (later ++ rest) = (some token, rest) := by
  cases spells with
  | @mark c token known =>
    obtain ⟨gap, point, at?, quote, slash, digit, start⟩ := plain_of_mark c token known
    exact ⟨c, [], rfl, by simp [first, gap, point, at?, quote, slash, digit, start, known]⟩
  | dot =>
    -- Two more points would make an ellipsis of it.
    refine ⟨'.', [], rfl, ?_⟩
    have single : point rest = (some dot, rest) := by
      unfold point
      split
      · exact absurd rfl ends
      · rfl
    simp [first, isGap, single]
  | ellipsis => exact ⟨'.', ['.', '.'], rfl, rfl⟩
  | @identifier c name start chars =>
    obtain ⟨gap, point, at?, quote, slash, digit⟩ := plain_of_nameStart c start
    refine ⟨c, name, rfl, ?_⟩
    simp [first, gap, point, at?, quote, slash, digit, start, nameRun_append name rest chars ends]
  | @directive c name start chars =>
    have run := nameRun_append (c :: name) rest
      (by simpa using ⟨nameChar_of_nameStart c start, chars⟩) ends
    refine ⟨'@', c :: name, rfl, ?_⟩
    rw [List.cons_append] at run ⊢
    simp [first, isGap, atSign, start, run]
  | @number c digits digit run =>
    obtain ⟨gap, point, at?, quote, slash⟩ := plain_of_digit c digit
    refine ⟨c, digits, rfl, ?_⟩
    simp [first, gap, point, at?, quote, slash, digit, numberRun_append digits rest run ends]
  | @stringLit body closed =>
    have read := closedString_append body rest _ closed
    refine ⟨'"', body, rfl, ?_⟩
    rw [List.nil_append] at read
    simp [first, isGap, quote, read]
  | @unknown c stray =>
    simp only [isStray, Bool.and_eq_true, Bool.not_eq_true', Option.isNone_iff_eq_none,
      List.contains_eq_mem, decide_eq_false_iff_not, List.mem_cons, List.not_mem_nil, or_false,
      not_or] at stray
    obtain ⟨⟨⟨⟨gap, point, at?, quote, slash⟩, digit⟩, start⟩, none⟩ := stray
    exact ⟨c, [], rfl, by simp [first, gap, point, at?, quote, slash, digit, start, none]⟩

/-- Reading a print gives the tokens that were printed. -/
theorem lex_of_prints (tokens : List Token) (text : Text) (prints : Prints tokens text) :
    lex text = tokens := by
  induction prints with
  | done blank => simpa [lex] using lex_gap _ [] blank
  | @next token tokens gap text rest blank spells ends later ih =>
    obtain ⟨c, inner, rfl, read⟩ := first_of_spells token text rest spells ends
    rw [List.append_assoc, lex_gap gap _ blank, List.cons_append, lex, read, ih]
    rfl

theorem prints_blank (tokens : List Token) (text : Text) (c : Char) (gap : isGap c = true)
    (prints : Prints tokens text) : Prints tokens (c :: text) := by
  cases prints with
  | done blank => exact .done (by simpa using ⟨gap, blank⟩)
  | @next token tokens before text rest blank spells ends later =>
    have longer : ∀ d ∈ c :: before, isGap d = true := by simpa using ⟨gap, blank⟩
    exact .next longer spells ends later

-- One blank behind each token makes a print of them.
theorem prints_spaced (tokens : List Token) (spelled : ∀ token ∈ tokens, Spells token token.text) :
    Prints tokens (tokens.flatMap fun token => token.text ++ [' ']) := by
  induction tokens with
  | nil => exact .done (by simp)
  | cons token tokens ih =>
    have later := ih fun other member => spelled other (List.mem_cons_of_mem token member)
    have rest := prints_blank tokens _ ' ' (by decide) later
    have ends := ends_of_gap token ' ' (by decide)
      (tokens.flatMap fun token => token.text ++ [' '])
    have first := spelled token List.mem_cons_self
    have noGap : ∀ c ∈ ([] : Text), isGap c = true := by simp
    simpa using Prints.next noGap first ends rest

end Reading

end Token

end HeaderBindings
