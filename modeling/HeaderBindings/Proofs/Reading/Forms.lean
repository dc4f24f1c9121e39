import HeaderBindings.Proofs.Reading.Syntax

/-!
The forms that the readers of syntax accept. A form names the lexemes of a piece of code and says
what its reader makes of them, whatever stands behind; forms are put together without looking at a
reader again.
-/

namespace HeaderBindings

namespace Reading

section Expressions

/-- Lexemes that are read as an expression, whose properties and calls may go on behind them. -/
def Expresses (written : List Lexeme) (value : Expression) : Prop :=
  ∀ rest, expression? (written ++ rest) = suffixes? value rest

/-- No expression goes on in these lexemes. -/
def Calm (lexemes : List Lexeme) : Prop :=
  lexemes.head? ≠ some (.mark ['.']) ∧ lexemes.head? ≠ some (.mark ['('])

/-- A word that names something where a value is expected. -/
structure IsName (word : Text) : Prop where
  this : word ≠ "this".toList
  new : word ≠ "new".toList
  numeral : isNumeral word = false

theorem suffixes_calm (value : Expression) (rest : List Lexeme) (calm : Calm rest) :
    suffixes? value rest = some (value, rest) := by
  unfold suffixes?
  split
  · exact absurd rfl calm.1
  · exact absurd rfl calm.2
  · rfl

theorem Expresses.apply {written : List Lexeme} {value : Expression}
    (form : Expresses written value) (rest : List Lexeme) (calm : Calm rest) :
    expression? (written ++ rest) = some (value, rest) :=
  (form rest).trans (suffixes_calm value rest calm)

theorem expresses_of_operand (written : List Lexeme) (value : Expression) (nonempty : written ≠ [])
    (read : ∀ rest, operand? (written ++ rest) = some (value, rest)) : Expresses written value := by
  intro rest
  have shorter : rest.length < (written ++ rest).length := by
    have := List.length_pos_iff.mpr nonempty
    simp only [List.length_append]
    omega
  rw [expression?, read rest]
  exact if_pos shorter

theorem operand_word (word : Text) (this : word ≠ "this".toList) (new : word ≠ "new".toList)
    (rest : List Lexeme) :
    operand? (.word word :: rest) =
      if isNumeral word then some (.number (Nat.ofDigitChars 10 word 0), rest)
      else some (.name word, rest) := by
  rw [operand?.eq_def]
  dsimp only
  rw [if_neg this, if_neg new]

theorem expresses_name (word : Text) (name : IsName word) : Expresses [.word word] (.name word) := by
  refine expresses_of_operand _ _ (by simp) fun rest => ?_
  rw [List.singleton_append, operand_word word name.this name.new, name.numeral]
  rfl

theorem expresses_this : Expresses [.word "this".toList] .this := by
  refine expresses_of_operand _ _ (by simp) fun rest => ?_
  simp [operand?.eq_def]

theorem expresses_quoted (content : Text) : Expresses [.quoted content] (.text content) := by
  refine expresses_of_operand _ _ (by simp) fun rest => ?_
  rw [List.singleton_append, operand?]

theorem expresses_template (content : Text) :
    Expresses [.template content] (.template content) := by
  refine expresses_of_operand _ _ (by simp) fun rest => ?_
  rw [List.singleton_append, operand?]

theorem expresses_numeral (n : Nat) : Expresses [.word (Text.ofNat n)] (.number n) := by
  have digits : isNumeral (Text.ofNat n) = true :=
    List.all_eq_true.mpr fun c member =>
      Nat.isDigit_of_mem_toDigits (by decide) (by decide) member
  have other : ∀ word : Text, isNumeral word = false → Text.ofNat n ≠ word := by
    rintro word letters rfl
    exact absurd (digits.symm.trans letters) (by decide)
  refine expresses_of_operand _ _ (by simp) fun rest => ?_
  have value : Nat.ofDigitChars 10 (Text.ofNat n) 0 = n := Nat.ofDigitChars_ten_toDigits
  rw [List.singleton_append, operand_word _ (other _ (by decide)) (other _ (by decide)),
    if_pos digits, value]

theorem Expresses.property {written : List Lexeme} {object : Expression}
    (form : Expresses written object) (name : Text) :
    Expresses (written ++ [.mark ['.'], .word name]) (.property object name) := by
  intro rest
  rw [List.append_assoc, form, List.cons_append, List.singleton_append, suffixes?]

end Expressions

section Lists

/-- Lexemes that are read as items and the mark that closes them. -/
def Lists (closing : Char) (written : List Lexeme) (items : Items) : Prop :=
  ∀ rest, items? closing (written ++ rest) = some (items, rest)

/-- Lexemes that are read as the items behind a first one and the mark that closes them. -/
def Continues (closing : Char) (written : List Lexeme) (items : Items) : Prop :=
  (∀ rest, later? closing (written ++ rest) = some (items, rest)) ∧
    ∀ rest, Calm (written ++ rest)

/-- Lexemes that start with something else than a mark. -/
def Begins (written : List Lexeme) : Prop :=
  ∃ first later, written = first :: later ∧ ∀ mark, first ≠ .mark mark

theorem begins_word (word : Text) (later : List Lexeme) : Begins (.word word :: later) :=
  ⟨_, later, rfl, by simp⟩

theorem begins_quoted (content : Text) (later : List Lexeme) : Begins (.quoted content :: later) :=
  ⟨_, later, rfl, by simp⟩

theorem begins_template (content : Text) (later : List Lexeme) :
    Begins (.template content :: later) :=
  ⟨_, later, rfl, by simp⟩

variable {closing : Char}

theorem continues_nil (closing : Char) (quiet : closing ≠ '.' ∧ closing ≠ '(') :
    Continues closing [.mark [closing]] .nil := by
  refine ⟨fun rest => ?_, fun rest => ?_⟩
  · rw [List.singleton_append, later?, if_pos rfl]
  · simpa [Calm] using quiet

theorem Lists.continues {written : List Lexeme} {items : Items} (form : Lists closing written items)
    (other : closing ≠ ',') : Continues closing (.mark [','] :: written) items := by
  refine ⟨fun rest => ?_, fun rest => by simp [Calm]⟩
  rw [List.cons_append, later?, if_neg (by simpa using Ne.symm other), if_pos rfl, form]

theorem lists_item {first later : List Lexeme} {value : Expression} {items : Items}
    (begins : Begins first) (form : Expresses first value)
    (behind : Continues closing later items) : Lists closing (first ++ later) (.item value items) := by
  obtain ⟨head, tail, rfl, plain⟩ := begins
  intro rest
  have read := form.apply (later ++ rest) (behind.2 rest)
  have shorter : (later ++ rest).length ≤ (tail ++ (later ++ rest)).length := by simp
  rw [List.append_assoc, List.cons_append, items?, if_neg (plain _), if_neg (plain _),
    ← List.cons_append, read]
  simp only [if_pos shorter, behind.1 rest, Option.map_some]

theorem lists_spread {first later : List Lexeme} {value : Expression} {items : Items}
    (begins : Begins first) (form : Expresses first value)
    (behind : Continues closing later items) :
    Lists closing (.mark ['.', '.', '.'] :: first ++ later) (.spread value items) := by
  obtain ⟨head, tail, rfl, _⟩ := begins
  intro rest
  have read := form.apply (later ++ rest) (behind.2 rest)
  have shorter : (later ++ rest).length < (head :: tail ++ (later ++ rest)).length := by
    simp only [List.length_append, List.length_cons]
    omega
  rw [List.cons_append, List.cons_append, List.append_assoc, items?,
    if_neg (by simp), if_pos rfl, read]
  simp only [if_pos shorter, behind.1 rest, Option.map_some]

theorem Expresses.call {written inner : List Lexeme} {callee : Expression} {items : Items}
    (form : Expresses written callee) (arguments : Lists ')' inner items) :
    Expresses (written ++ .mark ['('] :: inner) (.call callee items) := by
  intro rest
  have shorter : rest.length ≤ (inner ++ rest).length := by simp
  rw [List.append_assoc, form, List.cons_append, suffixes?, arguments rest]
  exact if_pos shorter

theorem expresses_construct (className : Text) {inner : List Lexeme} {items : Items}
    (arguments : Lists ')' inner items) :
    Expresses (.word "new".toList :: .word className :: .mark ['('] :: inner)
      (.construct className items) := by
  refine expresses_of_operand _ _ (by simp) fun rest => ?_
  rw [List.cons_append, List.cons_append, List.cons_append, operand?, if_neg (by decide),
    if_pos rfl, arguments rest, Option.map_some]

theorem expresses_array {inner : List Lexeme} {items : Items} (elements : Lists ']' inner items) :
    Expresses (.mark ['['] :: inner) (.array items) := by
  refine expresses_of_operand _ _ (by simp) fun rest => ?_
  rw [List.cons_append, operand?, elements rest, Option.map_some]

end Lists

section Types

/-- Lexemes that are passed over as a type or a part of one. -/
def IsType (written : List Lexeme) : Prop :=
  ∀ depth rest, skipType depth (written ++ rest) = skipType depth rest

theorem IsType.append {left right : List Lexeme} (before : IsType left) (after : IsType right) :
    IsType (left ++ right) := by
  intro depth rest
  rw [List.append_assoc, before, after]

theorem isType_plain (read : Lexeme) (open? : opens read = false) (close : closes read = false)
    (more : endsType read = false) : IsType [read] := by
  intro depth rest
  simp [skipType, open?, close, more]

theorem isType_word (word : Text) : IsType [.word word] := isType_plain _ rfl rfl rfl

theorem IsType.bracketed {inner : List Lexeme} (form : IsType inner) (first last : Lexeme)
    (opening : opens first = true) (closed : closes last = true) (more : endsType first = false)
    (single : opens last = false) : IsType (first :: inner ++ [last]) := by
  intro depth rest
  have read := form (depth + 1) (last :: rest)
  have step : skipType (depth + 1) (last :: rest) = skipType depth rest := by
    simp [skipType, single, closed]
  rw [List.append_assoc, List.cons_append, skipType]
  simpa [more, opening, step] using read

theorem isType_brackets : IsType [.mark ['['], .mark [']']] := by
  have none : IsType [] := fun _ _ => rfl
  exact none.bracketed _ _ rfl rfl rfl rfl

-- A comma between two types inside brackets ends neither.
theorem skipType_inner_comma (depth : Nat) (rest : List Lexeme) :
    skipType (depth + 1) (.mark [','] :: rest) = skipType (depth + 1) rest := by
  simp [skipType, opens, closes]

theorem skipType_end (last : Lexeme) (ends : endsType last = true) (rest : List Lexeme) :
    skipType 0 (last :: rest) = last :: rest := by
  simp [skipType, ends]

end Types

section Instructions

/-- Lexemes that are read as an instruction; they start with a word. -/
def Instructs (written : List Lexeme) (instruction : Instruction) : Prop :=
  (∃ word later, written = .word word :: later) ∧
    ∀ rest, instruction? (written ++ rest) = some (instruction, rest)

/-- Lexemes that are read as a block once a brace closes them. -/
def Blocks (written : List Lexeme) (body : List Instruction) : Prop :=
  ∀ rest, block? (written ++ .mark ['\x7d'] :: rest) = some (body, rest)

theorem instructs_perform (word : Text) {later : List Lexeme} {value : Expression}
    (form : Expresses (.word word :: later) value)
    (other : word ∉ ["const".toList, "return".toList, "throw".toList, "if".toList]) :
    Instructs (.word word :: later ++ [.mark [';']]) (.perform value) := by
  simp only [List.mem_cons, List.not_mem_nil, or_false, not_or] at other
  obtain ⟨notConst, notReturn, notThrow, notIf⟩ := other
  refine ⟨⟨word, _, rfl⟩, fun rest => ?_⟩
  have read := form.apply (.mark [';'] :: rest) (by simp [Calm])
  rw [List.append_assoc, List.cons_append, instruction?.eq_def]
  dsimp only
  rw [if_neg notConst, if_neg notReturn, if_neg notThrow, if_neg notIf, List.singleton_append,
    ← List.cons_append, read]
  rfl

theorem instructs_declare (name : Text) {later : List Lexeme} {value : Expression}
    (form : Expresses later value) :
    Instructs (.word "const".toList :: .word name :: .mark ['='] :: later ++ [.mark [';']])
      (.declare name value) := by
  refine ⟨⟨_, _, rfl⟩, fun rest => ?_⟩
  have read := form.apply (.mark [';'] :: rest) (by simp [Calm])
  simp only [List.cons_append, List.append_assoc, List.nil_append]
  rw [instruction?, if_pos rfl, read]
  rfl

theorem instructs_throw {later : List Lexeme} {value : Expression} (form : Expresses later value) :
    Instructs (.word "throw".toList :: later ++ [.mark [';']]) (.throw value) := by
  refine ⟨⟨_, _, rfl⟩, fun rest => ?_⟩
  have read := form.apply (.mark [';'] :: rest) (by simp [Calm])
  simp only [List.cons_append, List.append_assoc, List.nil_append]
  rw [instruction?.eq_def]
  dsimp only
  rw [if_neg (by decide), if_neg (by decide), if_pos rfl, read]
  rfl

theorem instructs_leave : Instructs [.word "return".toList, .mark [';']] .leave := by
  refine ⟨⟨_, _, rfl⟩, fun rest => ?_⟩
  simp only [List.cons_append, List.nil_append]
  rw [instruction?, if_neg (by decide), if_pos rfl]

-- A value that is given back as a type or, if the type is missing, as it is.
theorem instructs_giveBack {later cast : List Lexeme} {value : Expression} (begins : Begins later)
    (form : Expresses later value)
    (typed : cast = [] ∨ ∃ type, IsType type ∧ cast = .word "as".toList :: type) :
    Instructs (.word "return".toList :: later ++ cast ++ [.mark [';']]) (.giveBack value) := by
  refine ⟨⟨_, _, rfl⟩, fun rest => ?_⟩
  have calm : Calm (cast ++ .mark [';'] :: rest) := by
    rcases typed with rfl | ⟨type, _, rfl⟩ <;> simp [Calm]
  have left : uncast (cast ++ .mark [';'] :: rest) = .mark [';'] :: rest := by
    rcases typed with rfl | ⟨type, passed, rfl⟩
    · rfl
    · rw [List.cons_append, uncast, if_pos rfl, passed, skipType_end _ rfl]
  have read := form.apply _ calm
  obtain ⟨head, tail, rfl, plain⟩ := begins
  simp only [List.cons_append, List.append_assoc, List.nil_append] at read ⊢
  rw [instruction?.eq_def]
  dsimp only
  rw [if_neg (by decide), if_pos rfl]
  split
  · next same => exact absurd (List.cons.inj same).1 (plain _)
  · rw [read, Option.bind_some, left]
    rfl

theorem blocks_nil : Blocks [] [] := by
  intro rest
  rw [List.nil_append, block?, if_pos rfl]

theorem Instructs.blocks {first later : List Lexeme} {instruction : Instruction}
    {body : List Instruction} (form : Instructs first instruction) (behind : Blocks later body) :
    Blocks (first ++ later) (instruction :: body) := by
  obtain ⟨⟨word, tail, rfl⟩, read⟩ := form
  intro rest
  have here := read (later ++ .mark ['\x7d'] :: rest)
  have shorter : (later ++ .mark ['\x7d'] :: rest).length ≤
      (tail ++ (later ++ .mark ['\x7d'] :: rest)).length := by simp
  rw [List.append_assoc, List.cons_append, block?, if_neg (by simp), ← List.cons_append, here]
  simp only [if_pos shorter, behind rest, Option.map_some]

theorem blocks_all {α : Type} (written : α → List Lexeme) (instruction : α → Instruction)
    (items : List α) (forms : ∀ item ∈ items, Instructs (written item) (instruction item))
    {later : List Lexeme} {body : List Instruction} (behind : Blocks later body) :
    Blocks (items.flatMap written ++ later) (items.map instruction ++ body) := by
  induction items with
  | nil => simpa using behind
  | cons item items ih =>
    have tail := ih fun other member => forms other (List.mem_cons_of_mem item member)
    simpa using (forms item List.mem_cons_self).blocks tail

theorem instructs_branch {left right inner : List Lexeme} {first second : Expression}
    {body : List Instruction} (leftForm : Expresses left first) (rightForm : Expresses right second)
    (block : Blocks inner body) :
    Instructs
      (.word "if".toList :: .mark ['('] :: left ++ .mark ['=', '=', '='] :: right
        ++ [.mark [')'], .mark ['\x7b']] ++ inner ++ [.mark ['\x7d']])
      (.branch (.equal first second) body) := by
  refine ⟨⟨_, _, rfl⟩, fun rest => ?_⟩
  have test := leftForm.apply (.mark ['=', '=', '='] :: right ++ .mark [')'] :: .mark ['\x7b'] ::
    (inner ++ .mark ['\x7d'] :: rest)) (by simp [Calm])
  have other := rightForm.apply (.mark [')'] :: .mark ['\x7b'] ::
    (inner ++ .mark ['\x7d'] :: rest)) (by simp [Calm])
  simp only [List.cons_append, List.append_assoc, List.nil_append] at test other ⊢
  rw [instruction?, if_neg (by decide), if_neg (by decide), if_neg (by decide), if_pos rfl]
  simp only [condition?, test, other, Option.map_some, block rest]
  exact if_pos (by simp; omega)

end Instructions

section Definitions

/-- Lexemes that are read as a parameter, where a comma or a parenthesis follows. -/
def Binds (written : List Lexeme) (formal : Formal) : Prop :=
  (∃ head later, written = head :: later ∧ head ≠ .mark [')']) ∧
    ∀ last rest, endsType last = true → formal? (written ++ last :: rest) = some (formal, last :: rest)

theorem binds_typed (name : Text) {type : List Lexeme} (passed : IsType type) :
    Binds (.word name :: .mark [':'] :: type) ⟨name, false⟩ := by
  refine ⟨⟨_, _, rfl, by simp⟩, fun last rest ends => ?_⟩
  simp only [List.cons_append, formal?, typed?, passed 0, skipType_end last ends]

theorem binds_optional (name : Text) {type : List Lexeme} (passed : IsType type) :
    Binds (.word name :: .mark ['?'] :: .mark [':'] :: type) ⟨name, false⟩ := by
  refine ⟨⟨_, _, rfl, by simp⟩, fun last rest ends => ?_⟩
  simp only [List.cons_append, formal?, typed?, passed 0, skipType_end last ends]

theorem binds_rest (name : Text) {type : List Lexeme} (passed : IsType type) :
    Binds (.mark ['.', '.', '.'] :: .word name :: .mark [':'] :: type) ⟨name, true⟩ := by
  refine ⟨⟨_, _, rfl, by simp⟩, fun last rest ends => ?_⟩
  simp only [List.cons_append, formal?, typed?, passed 0, skipType_end last ends]

/-- Lexemes with a comma between any two of them. -/
def commaed : List (List Lexeme) → List Lexeme := List.intercalate [.mark [',']]

theorem Binds.closed {written : List Lexeme} {formal : Formal} (binds : Binds written formal)
    (rest : List Lexeme) : formals? (written ++ .mark [')'] :: rest) = some ([formal], rest) := by
  obtain ⟨⟨head, later, same, other⟩, read⟩ := binds
  rw [formals?.eq_def]
  split
  · next opened =>
    rw [same, List.cons_append] at opened
    exact absurd (List.cons.inj opened).1 other
  · rw [read (.mark [')']) rest rfl]
    rfl

theorem Binds.followed {written : List Lexeme} {formal : Formal} (binds : Binds written formal)
    {behind rest : List Lexeme} {formals : List Formal}
    (later : formals? behind = some (formals, rest)) :
    formals? (written ++ .mark [','] :: behind) = some (formal :: formals, rest) := by
  obtain ⟨⟨head, tail, same, other⟩, read⟩ := binds
  rw [formals?.eq_def]
  split
  · next opened =>
    rw [same, List.cons_append] at opened
    exact absurd (List.cons.inj opened).1 other
  · rw [read (.mark [',']) behind rfl]
    simp only [later, Option.map_some]
    exact if_pos (by simp; omega)

theorem formals_of_binds {α : Type} (written : α → List Lexeme) (formal : α → Formal)
    (items : List α) (forms : ∀ item ∈ items, Binds (written item) (formal item))
    (rest : List Lexeme) :
    formals? (commaed (items.map written) ++ .mark [')'] :: rest) =
      some (items.map formal, rest) := by
  induction items with
  | nil => simp [commaed, formals?]
  | cons item items ih =>
    have first := forms item List.mem_cons_self
    have tail := ih fun next member => forms next (List.mem_cons_of_mem item member)
    cases items with
    | nil => simpa [commaed] using first.closed rest
    | cons next items =>
      have text : commaed ((item :: next :: items).map written) ++ .mark [')'] :: rest =
          written item ++ .mark [','] ::
            (commaed ((next :: items).map written) ++ .mark [')'] :: rest) := by
        simp [commaed, List.intercalate_cons_cons]
      rw [text]
      exact first.followed tail

/-- Lexemes that are read as a member. -/
def Defines (written : List Lexeme) (definition : Definition) : Prop :=
  written ≠ [] ∧ ∀ rest, definition? (written ++ rest) = some (definition, rest)

/-- The word that makes a member static, if it is. -/
def staticWord (isStatic : Bool) : List Lexeme := if isStatic then [.word "static".toList] else []

theorem definition_of_named (isStatic : Bool) (name : Text) (rest : List Lexeme) :
    definition? (staticWord isStatic ++ .word name :: .mark ['('] :: rest) =
      named? isStatic (.word name :: .mark ['('] :: rest) := by
  cases isStatic
  · simp [staticWord, definition?]
  · simp [staticWord, definition?]

section Members

variable {α : Type} (written : α → List Lexeme) (formal : α → Formal) (items : List α)
  (forms : ∀ item ∈ items, Binds (written item) (formal item))
  {type : List Lexeme} (passed : IsType type)

include forms passed

theorem defines_signature (isStatic : Bool) (name : Text) :
    Defines
      (staticWord isStatic ++ .word name :: .mark ['('] :: commaed (items.map written)
        ++ [.mark [')'], .mark [':']] ++ type ++ [.mark [';']])
      ⟨isStatic, name, items.map formal, none⟩ := by
  refine ⟨by simp, fun rest => ?_⟩
  have params := formals_of_binds written formal items forms
    (.mark [':'] :: (type ++ .mark [';'] :: rest))
  simp only [List.append_assoc, List.cons_append, List.nil_append] at params ⊢
  rw [definition_of_named, named?, params]
  simp only [passed 0, skipType_end _ (show endsType (.mark [';']) = true from rfl)]

theorem defines_member (isStatic : Bool) (name : Text) {inner : List Lexeme}
    {body : List Instruction} (block : Blocks inner body) :
    Defines
      (staticWord isStatic ++ .word name :: .mark ['('] :: commaed (items.map written)
        ++ [.mark [')'], .mark [':']] ++ type ++ [.mark ['\x7b']] ++ inner ++ [.mark ['\x7d']])
      ⟨isStatic, name, items.map formal, some body⟩ := by
  refine ⟨by simp, fun rest => ?_⟩
  have params := formals_of_binds written formal items forms
    (.mark [':'] :: (type ++ .mark ['\x7b'] :: (inner ++ .mark ['\x7d'] :: rest)))
  simp only [List.append_assoc, List.cons_append, List.nil_append] at params ⊢
  rw [definition_of_named, named?, params]
  simp only [passed 0, skipType_end _ (show endsType (.mark ['\x7b']) = true from rfl), block rest,
    Option.map_some]

end Members

theorem Defines.definitions {written : List Lexeme} {definition : Definition}
    (form : Defines written definition) (rest : List Lexeme) :
    definitions? (written ++ rest) = (definitions? rest).map (definition :: ·) := by
  obtain ⟨nonempty, read⟩ := form
  have here := read rest
  cases written with
  | nil => exact absurd rfl nonempty
  | cons head later =>
    rw [List.cons_append, definitions?, ← List.cons_append, here]
    exact if_pos (by simp)

theorem definitions_of_defines {α : Type} (written : α → List Lexeme) (definition : α → Definition)
    (items : List α) (forms : ∀ item ∈ items, Defines (written item) (definition item))
    (rest : List Lexeme) :
    definitions? (items.flatMap written ++ rest) =
      (definitions? rest).map (items.map definition ++ ·) := by
  induction items with
  | nil => simp
  | cons item items ih =>
    have tail := ih fun next member => forms next (List.mem_cons_of_mem item member)
    rw [List.flatMap_cons, List.append_assoc, (forms item List.mem_cons_self).definitions, tail,
      Option.map_map]
    rfl

end Definitions

end Reading

end HeaderBindings
