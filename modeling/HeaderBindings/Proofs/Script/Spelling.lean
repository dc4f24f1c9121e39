import HeaderBindings.Script.Module
import HeaderBindings.Proofs.Reading.Forms
import HeaderBindings.Proofs.Script.Names
import HeaderBindings.Proofs.Text.Adoption
import Mathlib.Tactic.Choose

/-!
What generated code says to a reader: types, calls, statements, parameters and members, each written
as lexemes of the form that its meaning asks for. Documentation is a comment whatever it holds.
-/

namespace HeaderBindings

namespace Reading

/-- A text with lexemes of a form. -/
def Writes (text : Text) (form : List Lexeme → Prop) : Prop :=
  ∃ read, Spelled text read ∧ form read

-- A text between two others of which the first leaves nothing begun.
theorem Spelled.between {before text after : Text} {first read last : List Lexeme}
    (spelled : Spelled text read) (opened : Sealed before first) (closed : Sealed after last)
    (apart : Apart after) (written : after ≠ []) :
    Sealed (before ++ text ++ after) (first ++ read ++ last) :=
  (opened.append_spelled spelled).append_sealed closed apart written

section Joins

variable {α : Type} (separator : Text) (mark : Lexeme) (text : α → Text)
  (written : α → List Lexeme)

theorem spelled_join (divides : Sealed separator [mark]) (apart : Apart separator)
    (nonempty : separator ≠ []) (items : List α)
    (spelled : ∀ item ∈ items, Spelled (text item) (written item)) :
    Spelled (Text.join separator (items.map text)) (List.intercalate [mark] (items.map written)) := by
  induction items with
  | nil => exact spelled_nil
  | cons item items ih =>
    have first := spelled item List.mem_cons_self
    have later := ih fun next member => spelled next (List.mem_cons_of_mem item member)
    cases items with
    | nil => simpa [Text.join] using first
    | cons next items =>
      have front := first.append_sealed divides apart nonempty
      simpa [Text.join, List.intercalate_cons_cons] using front.append_spelled later

end Joins

theorem Writes.listed {type : Text} (writes : Writes type IsType) :
    Writes (type ++ ['[', ']']) IsType := by
  obtain ⟨read, spelled, passed⟩ := writes
  have ended : Sealed ['[', ']'] [.mark ['['], .mark [']']] := rfl
  exact ⟨_, (spelled.append_sealed ended (apart_of_head rfl) (by simp)).spelled,
    passed.append isType_brackets⟩

theorem Writes.grouped {type : Text} (writes : Writes type IsType) :
    Writes (['('] ++ type ++ [')']) IsType := by
  obtain ⟨read, spelled, passed⟩ := writes
  have opened : Sealed ['('] [.mark ['(']] := rfl
  have closed : Sealed [')'] [.mark [')']] := rfl
  exact ⟨_, (spelled.between opened closed (apart_of_head rfl) (by simp)).spelled,
    passed.bracketed (.mark ['(']) (.mark [')']) rfl rfl rfl rfl⟩

theorem comma_divides : Sealed ", ".toList [.mark [',']] := rfl

end Reading

open Reading

section Types

namespace ScriptType

theorem writes_word (word : Text) (letters : IsWord word) : Writes word IsType :=
  ⟨_, spelled_word letters, isType_word word⟩

theorem writes_text (type : ScriptType) : Writes type.text IsType := by
  induction type with
  | void => exact writes_word _ ⟨by decide, List.all_eq_true.mp rfl⟩
  | boolean => exact writes_word _ ⟨by decide, List.all_eq_true.mp rfl⟩
  | number => exact writes_word _ ⟨by decide, List.all_eq_true.mp rfl⟩
  | string => exact writes_word _ ⟨by decide, List.all_eq_true.mp rfl⟩
  | opaqueObject name => exact writes_word "NativeObject".toList ⟨by decide, List.all_eq_true.mp rfl⟩
  | array element ih =>
    unfold text
    -- Elements that may be missing stand in parentheses.
    split
    · simpa using ih.grouped.listed
    · exact ih.listed
  | map key value keyIh valueIh =>
    obtain ⟨keyRead, keySpelled, keyPassed⟩ := keyIh
    obtain ⟨valueRead, valueSpelled, valuePassed⟩ := valueIh
    have opened : Sealed "Map<".toList [.word "Map".toList, .mark ['<']] := rfl
    have closed : Sealed ['>'] [.mark ['>']] := rfl
    have front := keySpelled.between opened comma_divides (apart_of_head rfl) (by simp)
    have whole := valueSpelled.between front closed (apart_of_head rfl) (by simp)
    refine ⟨_, whole.spelled, fun depth rest => ?_⟩
    -- The comma ends a type only where no bracket is open, so the two parts are passed over as one.
    have inner : skipType (depth + 1) (keyRead ++ .mark [','] :: (valueRead ++ .mark ['>'] :: rest)) =
        skipType depth rest := by
      rw [keyPassed, skipType_inner_comma, valuePassed, skipType]
      simp [opens, closes]
    simpa [skipType, opens, closes, endsType] using inner
  | set element ih =>
    obtain ⟨read, spelled, passed⟩ := ih
    have opened : Sealed "Set<".toList [.word "Set".toList, .mark ['<']] := rfl
    have closed : Sealed ['>'] [.mark ['>']] := rfl
    refine ⟨_, (spelled.between opened closed (apart_of_head rfl) (by simp)).spelled, ?_⟩
    exact (isType_word _).append (passed.bracketed (.mark ['<']) (.mark ['>']) rfl rfl rfl rfl)
  | nullable inner ih =>
    obtain ⟨read, spelled, passed⟩ := ih
    have ending : Spelled " | null".toList [.mark ['|'], .word "null".toList] :=
      ⟨.word "null".toList, [.mark ['|']], rfl, rfl, Or.inr ⟨_, rfl⟩⟩
    refine ⟨_, spelled.append ending (apart_of_head rfl), passed.append ?_⟩
    exact (isType_plain (.mark ['|']) rfl rfl rfl).append (isType_word _)

end ScriptType

-- Types with a bar between any two are a type.
theorem writes_union (texts : List Text) (types : ∀ text ∈ texts, Writes text IsType) :
    Writes (Text.join " | ".toList texts) IsType := by
  choose! written spelled passed using types
  have joined := spelled_join " | ".toList (.mark ['|']) id written rfl (apart_of_head rfl) (by simp)
    texts spelled
  rw [List.map_id] at joined
  refine ⟨_, joined, ?_⟩
  clear joined spelled
  induction texts with
  | nil => exact fun _ _ => rfl
  | cons text texts ih =>
    have first := passed text List.mem_cons_self
    have later := ih fun next member => passed next (List.mem_cons_of_mem text member)
    cases texts with
    | nil => simpa using first
    | cons next texts =>
      have bar := isType_plain (.mark ['|']) rfl rfl rfl
      simpa [List.intercalate_cons_cons] using (first.append bar).append later

end Types

section Calls

/-- Text that may stand between double quotes as it is. -/
def Quotable (text : Text) : Prop := ∀ c ∈ text, c ≠ '"' ∧ c ≠ '\\' ∧ c ≠ '\n'

theorem quotable_of_nameChars (text : Text)
    (chars : ∀ c ∈ text, Token.isNameChar c = true ∨ c = ':') : Quotable text := by
  intro c member
  rcases chars c member with name | rfl
  · refine ⟨?_, ?_, ?_⟩ <;> rintro rfl <;> cases name
  · decide

/-- A word that is written for a value. -/
structure IsVariable (word : Text) : Prop where
  letters : IsWord word
  name : IsName word

namespace Receiver

def expression : Receiver → Expression
  | handle => .property .this "handle".toList
  | classNamed name => .text name
  | fresh className => .call (.name "allocate".toList) (.item (.text className) .nil)

/-- The class that a receiver names, if it names one, can be quoted. -/
def Readable : Receiver → Prop
  | handle => True
  | classNamed name | fresh name => Quotable name

theorem writes_text (receiver : Receiver) (readable : receiver.Readable) :
    Writes receiver.text fun read => Begins read ∧ Expresses read receiver.expression := by
  cases receiver with
  | handle =>
    have spelled : Spelled "this.handle".toList
        [.word "this".toList, .mark ['.'], .word "handle".toList] :=
      ⟨.word "handle".toList, [.word "this".toList, .mark ['.']], rfl, rfl, Or.inr ⟨_, rfl⟩⟩
    exact ⟨_, spelled, begins_word _ _, expresses_this.property "handle".toList⟩
  | classNamed name =>
    exact ⟨_, (sealed_quoted readable).spelled, begins_quoted _ _, expresses_quoted name⟩
  | fresh className =>
    have opened : Sealed "allocate(".toList [.word "allocate".toList, .mark ['(']] := rfl
    have closed : Sealed [')'] [.mark [')']] := rfl
    have whole := (opened.append (sealed_quoted readable)).append closed
    have form := (expresses_name "allocate".toList ⟨by decide, by decide, by decide⟩).call
      (lists_item (begins_quoted className []) (expresses_quoted className)
        (continues_nil ')' ⟨by decide, by decide⟩))
    refine ⟨[.word "allocate".toList, .mark ['('], .quoted className, .mark [')']], ?_,
      begins_word _ _, form⟩
    show Spelled ("allocate(\"".toList ++ className ++ "\")".toList) _
    simpa using whole.spelled

end Receiver

namespace CallArguments

def items : CallArguments → Items
  | named names => names.foldr (fun name later => .item (.name name) later) .nil
  | all => .spread (.name "args".toList) .nil

def Readable : CallArguments → Prop
  | named names => ∀ name ∈ names, IsVariable name
  | all => True

theorem apart_text (arguments : CallArguments) : Apart (arguments.text ++ [')']) := by
  cases arguments with
  | all => exact apart_of_head rfl
  | named names =>
    cases names with
    | nil => exact apart_of_head rfl
    | cons name names => exact apart_of_head (c := ',') rfl

-- Arguments and the parenthesis that closes them go on with the items before them.
theorem sealed_text (arguments : CallArguments) (readable : arguments.Readable) :
    ∃ read, Sealed (arguments.text ++ [')']) read ∧ Continues ')' read arguments.items := by
  have closed : Sealed [')'] [.mark [')']] := rfl
  have ended : Continues ')' [.mark [')']] .nil := continues_nil _ ⟨by decide, by decide⟩
  cases arguments with
  | all =>
    have args := expresses_name "args".toList ⟨by decide, by decide, by decide⟩
    exact ⟨[.mark [','], .mark ['.', '.', '.'], .word "args".toList, .mark [')']], rfl,
      (lists_spread (begins_word _ []) args ended).continues (by decide)⟩
  | named names =>
    induction names with
    | nil => exact ⟨_, closed, ended⟩
    | cons name names ih =>
      obtain ⟨read, later, form⟩ :=
        ih fun next member => readable next (List.mem_cons_of_mem name member)
      have first := readable name List.mem_cons_self
      have whole := (spelled_word first.letters).between comma_divides later
        (apart_text (.named names)) (by simp)
      refine ⟨.mark [','] :: .word name :: read, ?_, ?_⟩
      · show Sealed (((name :: names).flatMap fun name => ", ".toList ++ name) ++ [')']) _
        rw [List.flatMap_cons, List.append_assoc]
        exact whole
      · exact (lists_item (begins_word name []) (expresses_name name first.name) form).continues
          (by decide)

end CallArguments

namespace Call

def expression (call : Call) : Expression :=
  .call (.name "invoke".toList)
    (.item call.receiver.expression (.item (.text call.selector) call.arguments.items))

structure Readable (call : Call) : Prop where
  receiver : call.receiver.Readable
  selector : Quotable call.selector
  arguments : call.arguments.Readable

theorem sealed_text (call : Call) (readable : call.Readable) :
    ∃ later, Sealed call.text (.word "invoke".toList :: later) ∧
      Expresses (.word "invoke".toList :: later) call.expression := by
  obtain ⟨target, targetSpelled, begins, targetForm⟩ := call.receiver.writes_text readable.receiver
  obtain ⟨behind, closed, form⟩ := call.arguments.sealed_text readable.arguments
  have opened : Sealed "invoke(".toList [.word "invoke".toList, .mark ['(']] := rfl
  have front := targetSpelled.between opened comma_divides (apart_of_head rfl) (by simp)
  have whole := (front.append (sealed_quoted readable.selector)).append closed
  have inner := (lists_item (begins_quoted call.selector []) (expresses_quoted call.selector)
    form).continues (by decide)
  refine ⟨.mark ['('] :: (target ++ .mark [','] :: .quoted call.selector :: behind), ?_, ?_⟩
  · show Sealed ("invoke(".toList ++ call.receiver.text ++ ", \"".toList ++ call.selector ++ ['"']
      ++ call.arguments.text ++ [')']) _
    simpa using whole
  · exact (expresses_name "invoke".toList ⟨by decide, by decide, by decide⟩).call
      (lists_item begins targetForm inner)

end Call

namespace Statement

def instruction : Statement → Instruction
  | perform call => .perform call.expression
  | giveBack call _ => .giveBack call.expression
  | construct className call => .giveBack (.construct className (.item call.expression .nil))

def Readable : Statement → Prop
  | perform call | giveBack call _ => call.Readable
  | construct className call => IsWord className ∧ call.Readable

theorem sealed_text (statement : Statement) (readable : statement.Readable) :
    ∃ read, Sealed statement.text read ∧ Instructs read statement.instruction := by
  have ended : Sealed [';'] [.mark [';']] := rfl
  cases statement with
  | perform call =>
    obtain ⟨later, closed, form⟩ := call.sealed_text readable
    exact ⟨_, closed.append ended, instructs_perform _ form (by decide)⟩
  | giveBack call type =>
    obtain ⟨later, closed, form⟩ := call.sealed_text readable
    obtain ⟨typeRead, typeSpelled, passed⟩ := type.writes_text
    have opened : Sealed "return ".toList [.word "return".toList] := rfl
    have cast : Sealed " as ".toList [.word "as".toList] := rfl
    have front := (opened.append closed).append cast
    have whole := typeSpelled.between front ended (apart_of_head rfl) (by simp)
    refine ⟨_, whole, ?_⟩
    simpa [instruction] using
      instructs_giveBack (begins_word _ later) form (Or.inr ⟨typeRead, passed, rfl⟩)
  | construct className call =>
    obtain ⟨letters, callReadable⟩ := readable
    obtain ⟨later, closed, form⟩ := call.sealed_text callReadable
    have opened : Sealed "return new ".toList [.word "return".toList, .word "new".toList] := rfl
    have paren : Sealed ['('] [.mark ['(']] := rfl
    have last : Sealed [')', ';'] [.mark [')'], .mark [';']] := rfl
    have front := (spelled_word letters).between opened paren (apart_of_head rfl) (by simp)
    have whole := (front.append closed).append last
    have argument := lists_item (begins_word _ later) form
      (continues_nil ')' ⟨by decide, by decide⟩)
    refine ⟨_, whole, ?_⟩
    simpa [instruction] using instructs_giveBack (begins_word _ _)
      (expresses_construct className argument) (Or.inl rfl)

end Statement

end Calls

section Lines

theorem sealed_spaces (n : Nat) : Sealed (List.replicate n ' ') [] := by
  induction n with
  | zero => rfl
  | succ n ih =>
    have blank : Sealed [' '] [] := rfl
    exact blank.append ih

-- A line is read as its text is.
theorem sealed_written (line : ScriptLine) {read : List Lexeme} (spelled : Spelled line.text read) :
    Sealed line.written read := by
  have space : Sealed ['\n'] [] := rfl
  have indented : Sealed (if line.text.isEmpty then [] else List.replicate (2 * line.depth) ' ')
      [] := by
    split
    · rfl
    · exact sealed_spaces _
  have whole := spelled.between indented space (apart_of_head rfl) (by simp)
  rwa [List.nil_append, List.append_nil] at whole

theorem write_append (left right : List ScriptLine) :
    ScriptModule.write (left ++ right) = ScriptModule.write left ++ ScriptModule.write right :=
  List.flatMap_append

theorem sealed_line (line : ScriptLine) {read : List Lexeme} (spelled : Spelled line.text read) :
    Sealed (ScriptModule.write [line]) read := by
  simpa [ScriptModule.write] using sealed_written line spelled

theorem sealed_flatMap {α : Type} (lines : α → List ScriptLine) (written : α → List Lexeme)
    (items : List α) (closed : ∀ item ∈ items, Sealed (ScriptModule.write (lines item)) (written item)) :
    Sealed (ScriptModule.write (items.flatMap lines)) (items.flatMap written) := by
  induction items with
  | nil => rfl
  | cons item items ih =>
    have later := ih fun next member => closed next (List.mem_cons_of_mem item member)
    rw [List.flatMap_cons, List.flatMap_cons, write_append]
    exact (closed item List.mem_cons_self).append later

namespace DocBlock

-- A comment goes on over an escaped text, unless a star stands before a slash at its start.
theorem scan_escape (star : Bool) (text : Text) (safe : star = true → text.head? ≠ some '/') :
    ∃ later, scan (.blockComment star) (escape text) = (.blockComment later, []) := by
  induction text using escape.induct generalizing star with
  | case1 text ih =>
    obtain ⟨later, scanned⟩ := ih false (by simp)
    exact ⟨later, by simp [escape, scan, step, scanned]⟩
  | case2 c text other ih =>
    have starts : (decide (c = '*')) = true → text.head? ≠ some '/' := by
      intro isStar head
      cases text with
      | nil => cases head
      | cons d text =>
        cases head
        exact other text (by simpa using isStar) rfl
    obtain ⟨later, scanned⟩ := ih _ starts
    have open? : (star && decide (c = '/')) = false := by
      cases star with
      | false => rfl
      | true => simpa using safe rfl
    exact ⟨later, by simp [escape, scan, step, open?, scanned]⟩
  | case3 => exact ⟨star, rfl⟩

theorem scan_spaces (n : Nat) :
    scan (.blockComment false) (List.replicate n ' ') = (.blockComment false, []) := by
  induction n with
  | zero => rfl
  | succ n ih => simp [List.replicate_succ, scan, step, ih]

theorem scan_entry (depth : Nat) (entry : Text) :
    scan (.blockComment false) (ScriptLine.written ⟨depth, " * ".toList ++ escape entry⟩) =
      (.blockComment false, []) := by
  have front : scan (.blockComment false) " * ".toList = (.blockComment false, []) := rfl
  obtain ⟨later, scanned⟩ := scan_escape false entry (by simp)
  have ended : scan (.blockComment later) ['\n'] = (.blockComment false, []) := by
    simp [scan, step]
  have written : ScriptLine.written ⟨depth, " * ".toList ++ escape entry⟩ =
      List.replicate (2 * depth) ' ' ++ (" * ".toList ++ (escape entry ++ ['\n'])) := by
    simp [ScriptLine.written]
  simp only [written, scan_append, scan_spaces, front, scanned, ended, List.append_nil]

theorem scan_entries (depth : Nat) (block : DocBlock) :
    scan (.blockComment false)
        (ScriptModule.write (block.map fun entry => ⟨depth, " * ".toList ++ escape entry⟩)) =
      (.blockComment false, []) := by
  induction block with
  | nil => rfl
  | cons entry block ih =>
    have tail : ScriptModule.write ((entry :: block).map fun entry =>
        ⟨depth, " * ".toList ++ escape entry⟩) =
        ScriptLine.written ⟨depth, " * ".toList ++ escape entry⟩ ++
          ScriptModule.write (block.map fun entry => ⟨depth, " * ".toList ++ escape entry⟩) := by
      simp [ScriptModule.write]
    rw [tail, scan_append, scan_entry, ih]
    rfl

theorem scan_opening (depth : Nat) :
    scan .between (ScriptModule.write [⟨depth, "/**".toList⟩]) = (.blockComment false, []) := by
  have mark : scan .between ("/**".toList ++ ['\n']) = (.blockComment false, []) := rfl
  have indented : scan .between (List.replicate (2 * depth) ' ') = (.between, []) := sealed_spaces _
  have written : ScriptModule.write [⟨depth, "/**".toList⟩] =
      List.replicate (2 * depth) ' ' ++ ("/**".toList ++ ['\n']) := by
    simp [ScriptModule.write, ScriptLine.written]
  rw [written, scan_append, indented, mark]
  rfl

theorem scan_closing (depth : Nat) :
    scan (.blockComment false) (ScriptModule.write [⟨depth, " */".toList⟩]) = (.between, []) := by
  have mark : scan (.blockComment false) (" */".toList ++ ['\n']) = (.between, []) := rfl
  have written : ScriptModule.write [⟨depth, " */".toList⟩] =
      List.replicate (2 * depth) ' ' ++ (" */".toList ++ ['\n']) := by
    simp [ScriptModule.write, ScriptLine.written]
  rw [written, scan_append, scan_spaces, mark]
  rfl

-- Documentation says nothing to a reader: an escaped text cannot close its comment.
theorem sealed_lines (depth : Nat) (block : DocBlock) :
    Sealed (ScriptModule.write (block.lines depth)) [] := by
  unfold lines
  split
  · rfl
  · unfold Sealed
    rw [write_append, write_append, scan_append, scan_append, scan_opening, scan_entries,
      scan_closing]
    rfl

end DocBlock

end Lines

end HeaderBindings
