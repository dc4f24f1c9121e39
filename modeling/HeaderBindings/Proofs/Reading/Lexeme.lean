import HeaderBindings.Token.Lexer

/-!
Reading generated code, first step: lexemes. A machine goes over the characters one by one, so that
a text is read piece by piece: what a piece yields depends on the mode in which the pieces before
it leave the machine, and on nothing else. Comments and white space yield nothing; a character that
has no meaning in generated code breaks the reading.
-/

namespace HeaderBindings

namespace Reading

inductive Lexeme where
  | word (text : Text)
  | quoted (text : Text)
  | template (text : Text)
  | mark (text : Text)
  deriving DecidableEq, Repr

/-- What the machine is in the middle of. A block comment remembers whether it has just read a
star. -/
inductive Mode where
  | between
  | word (read : Text)
  | joined (c : Char) (count : Nat)
  | quoted (read : Text)
  | template (read : Text)
  | slash
  | lineComment
  | blockComment (star : Bool)
  | broken
  deriving DecidableEq, Repr

def isSpace (c : Char) : Bool := c == ' ' || c == '\t' || c == '\r' || c == '\n'

def isWordChar (c : Char) : Bool := Token.isNameChar c || c == '$'

/-- The marks that always stand for themselves. -/
def isSingle (c : Char) : Bool := "()\x7b\x7d[]<>,;:?|!&+-*".toList.contains c

/-- The marks that a run of makes one mark, such as three points or three equality signs. -/
def isJoining (c : Char) : Bool := c == '.' || c == '='

abbrev Advance := Mode × List Lexeme

/-- A character where nothing has begun. -/
def start (c : Char) : Advance :=
  if isSpace c then (.between, [])
  else if isWordChar c then (.word [c], [])
  else if isJoining c then (.joined c 1, [])
  else if c = '"' then (.quoted [], [])
  else if c = '\x60' then (.template [], [])
  else if c = '/' then (.slash, [])
  else if isSingle c then (.between, [.mark [c]])
  else (.broken, [])

/-- The lexeme that a mode ends with, if the next character does not continue it. -/
def pending : Mode → List Lexeme
  | .word read => [.word read]
  | .joined c count => [.mark (List.replicate count c)]
  | _ => []

def step : Mode → Char → Advance
  | .between, c => start c
  | .word read, c =>
    if isWordChar c then (.word (read ++ [c]), [])
    else ((start c).1, pending (.word read) ++ (start c).2)
  | .joined d count, c =>
    if c = d then (.joined d (count + 1), [])
    else ((start c).1, pending (.joined d count) ++ (start c).2)
  | .quoted read, c =>
    if c = '"' then (.between, [.quoted read])
    else if c = '\\' || c = '\n' then (.broken, [])
    else (.quoted (read ++ [c]), [])
  | .template read, c =>
    if c = '\x60' then (.between, [.template read])
    else if c = '\\' then (.broken, [])
    else (.template (read ++ [c]), [])
  | .slash, c =>
    if c = '/' then (.lineComment, [])
    else if c = '*' then (.blockComment false, [])
    else (.broken, [])
  | .lineComment, c => if c = '\n' then (.between, []) else (.lineComment, [])
  | .blockComment star, c =>
    if star && c = '/' then (.between, []) else (.blockComment (c = '*'), [])
  | .broken, _ => (.broken, [])

def scan : Mode → Text → Advance
  | mode, [] => (mode, [])
  | mode, c :: text =>
    let first := step mode c
    let later := scan first.1 text
    (later.1, first.2 ++ later.2)

/-- What is left at the end of a text, if the text may end there. -/
def finish : Mode → Option (List Lexeme)
  | .quoted _ | .template _ | .slash | .blockComment _ | .broken => none
  | mode => some (pending mode)

/-- The lexemes of a text. -/
def lexemes (text : Text) : Option (List Lexeme) :=
  (finish (scan .between text).1).map ((scan .between text).2 ++ ·)

theorem scan_append (mode : Mode) (left right : Text) :
    scan mode (left ++ right) =
      ((scan (scan mode left).1 right).1, (scan mode left).2 ++ (scan (scan mode left).1 right).2) := by
  induction left generalizing mode with
  | nil => simp [scan]
  | cons c left ih => simp [scan, ih]

section Pieces

/-- A piece that is read as lexemes and leaves nothing begun. -/
def Sealed (piece : Text) (read : List Lexeme) : Prop := scan .between piece = (.between, read)

/-- A piece that is read as lexemes, the last of which may still go on. -/
def Spelled (piece : Text) (read : List Lexeme) : Prop :=
  ∃ mode front, scan .between piece = (mode, front) ∧ read = front ++ pending mode ∧
    (mode = .between ∨ ∃ word, mode = .word word)

/-- A text that no word goes on in. -/
def Apart (text : Text) : Prop := ∀ c ∈ text.head?, isWordChar c = false

theorem Sealed.spelled {piece : Text} {read : List Lexeme} (closed : Sealed piece read) :
    Spelled piece read :=
  ⟨.between, read, closed, by simp [pending], Or.inl rfl⟩

theorem spelled_nil : Spelled [] [] := ⟨.between, [], rfl, rfl, Or.inl rfl⟩

theorem Sealed.append {left right : Text} {first second : List Lexeme}
    (before : Sealed left first) (after : Sealed right second) :
    Sealed (left ++ right) (first ++ second) := by
  unfold Sealed at *
  rw [scan_append, before, after]

theorem Sealed.append_spelled {left right : Text} {first second : List Lexeme}
    (before : Sealed left first) (after : Spelled right second) :
    Spelled (left ++ right) (first ++ second) := by
  obtain ⟨mode, front, scanned, rfl, calm⟩ := after
  refine ⟨mode, first ++ front, ?_, by simp, calm⟩
  unfold Sealed at before
  rw [scan_append, before, scanned]

-- After a word the machine goes on as if nothing had begun, but for the word itself.
theorem scan_after_word (word text : Text) (apart : Apart text) :
    (scan (.word word) text).2 ++ pending (scan (.word word) text).1 =
      .word word :: ((scan .between text).2 ++ pending (scan .between text).1) ∧
    (text ≠ [] → scan (.word word) text =
      ((scan .between text).1, .word word :: (scan .between text).2)) := by
  cases text with
  | nil => simp [scan, pending]
  | cons c text =>
    have other : isWordChar c = false := apart c rfl
    simp [scan, step, other, pending]

theorem Spelled.append {left right : Text} {first second : List Lexeme}
    (before : Spelled left first) (after : Spelled right second) (apart : Apart right) :
    Spelled (left ++ right) (first ++ second) := by
  obtain ⟨mode, front, scanned, rfl, calm⟩ := before
  rcases calm with rfl | ⟨word, rfl⟩
  · have closed : Sealed left front := scanned
    simpa [pending] using closed.append_spelled after
  · obtain ⟨later, back, scannedRight, rfl, calmRight⟩ := after
    by_cases empty : right = []
    · subst empty
      obtain ⟨rfl, rfl⟩ : later = .between ∧ back = [] := by
        simpa [scan, eq_comm] using scannedRight
      exact ⟨.word word, front, by simpa using scanned, by simp [pending],
        Or.inr ⟨word, rfl⟩⟩
    · refine ⟨later, front ++ .word word :: back, ?_, by simp [pending], calmRight⟩
      rw [scan_append, scanned, (scan_after_word word right apart).2 empty, scannedRight]

theorem Spelled.append_sealed {left right : Text} {first second : List Lexeme}
    (before : Spelled left first) (after : Sealed right second) (apart : Apart right)
    (written : right ≠ []) : Sealed (left ++ right) (first ++ second) := by
  obtain ⟨mode, front, scanned, rfl, rfl | ⟨word, rfl⟩⟩ := before
  · have closed : Sealed left front := scanned
    simpa [pending] using closed.append after
  · unfold Sealed at *
    rw [scan_append, scanned, (scan_after_word word right apart).2 written, after]
    simp [pending]

theorem lexemes_of_sealed {text : Text} {read : List Lexeme} (closed : Sealed text read) :
    lexemes text = some read := by
  unfold Sealed at closed
  simp [lexemes, closed, finish, pending]

/-- A word: characters that a name may have, at least one. -/
structure IsWord (text : Text) : Prop where
  written : text ≠ []
  chars : ∀ c ∈ text, isWordChar c = true

theorem scan_word_chars (read text : Text) (chars : ∀ c ∈ text, isWordChar c = true) :
    scan (.word read) text = (.word (read ++ text), []) := by
  induction text generalizing read with
  | nil => simp [scan]
  | cons c text ih =>
    have tail := ih (read ++ [c]) (fun d member => chars d (List.mem_cons_of_mem c member))
    simp [scan, step, chars c List.mem_cons_self, tail]

theorem space_of_word (c : Char) (name : isWordChar c = true) : isSpace c = false := by
  cases space : isSpace c with
  | false => rfl
  | true =>
    simp only [isSpace, Bool.or_eq_true, beq_iff_eq] at space
    rcases space with ((rfl | rfl) | rfl) | rfl <;> revert name <;> decide

theorem spelled_word {text : Text} (word : IsWord text) : Spelled text [.word text] := by
  obtain ⟨written, chars⟩ := word
  cases text with
  | nil => exact absurd rfl written
  | cons c text =>
    have first := chars c List.mem_cons_self
    have later := scan_word_chars [c] text (fun d member => chars d (List.mem_cons_of_mem c member))
    refine ⟨.word (c :: text), [], ?_, by simp [pending], Or.inr ⟨_, rfl⟩⟩
    simp [scan, step, start, space_of_word c first, first, later]

theorem apart_of_head {c : Char} {text : Text} (other : isWordChar c = false) :
    Apart (c :: text) := by
  intro d head
  cases head
  exact other

theorem scan_quoted_chars (read text : Text) (chars : ∀ c ∈ text, c ≠ '"' ∧ c ≠ '\\' ∧ c ≠ '\n') :
    scan (.quoted read) text = (.quoted (read ++ text), []) := by
  induction text generalizing read with
  | nil => simp [scan]
  | cons c text ih =>
    have tail := ih (read ++ [c]) (fun d member => chars d (List.mem_cons_of_mem c member))
    have here := chars c List.mem_cons_self
    simp [scan, step, here, tail]

theorem sealed_quoted {text : Text} (chars : ∀ c ∈ text, c ≠ '"' ∧ c ≠ '\\' ∧ c ≠ '\n') :
    Sealed (['"'] ++ text ++ ['"']) [.quoted text] := by
  have opened : scan .between ['"'] = (.quoted [], []) := rfl
  unfold Sealed
  rw [List.append_assoc, scan_append, opened, scan_append, scan_quoted_chars [] text chars]
  rfl

theorem scan_template_chars (read text : Text) (chars : ∀ c ∈ text, c ≠ '\x60' ∧ c ≠ '\\') :
    scan (.template read) text = (.template (read ++ text), []) := by
  induction text generalizing read with
  | nil => simp [scan]
  | cons c text ih =>
    have tail := ih (read ++ [c]) (fun d member => chars d (List.mem_cons_of_mem c member))
    have here := chars c List.mem_cons_self
    simp [scan, step, here, tail]

theorem sealed_template {text : Text} (chars : ∀ c ∈ text, c ≠ '\x60' ∧ c ≠ '\\') :
    Sealed (['\x60'] ++ text ++ ['\x60']) [.template text] := by
  have opened : scan .between ['\x60'] = (.template [], []) := rfl
  unfold Sealed
  rw [List.append_assoc, scan_append, opened, scan_append, scan_template_chars [] text chars]
  rfl

end Pieces

end Reading

end HeaderBindings
