import HeaderBindings.Token.Render

/-!
Reading text as tokens. Blanks and comments are skipped and the longest token wins. Where no
token begins, one unknown token covers the characters that could still have begun one: an
unterminated string up to the end or up to the line feed after a backslash, an unterminated block
comment up to the end, any other character alone.
-/

namespace HeaderBindings

namespace Token

def isNameStart (c : Char) : Bool := c.isAlpha || c == '_'

def isNameChar (c : Char) : Bool := c.isAlphanum || c == '_'

/-- The characters skipped between tokens. -/
def isGap (c : Char) : Bool := c == ' ' || c == '\t' || c == '\r' || c == '\n' || c == '\x0c'

/-- A text in two parts: a run of characters and what follows it. -/
abbrev Cut := Text × Text

def nameRun (text : Text) : Cut := (text.takeWhile isNameChar, text.dropWhile isNameChar)

/-- A cut with one more character in its first part. -/
def Cut.cons (c : Char) (cut : Cut) : Cut := (c :: cut.1, cut.2)

/-- The rest of a number: name characters, and points that a digit follows. -/
def numberRun : Text → Cut
  | [] => ([], [])
  | [c] => if isNameChar c then ([c], []) else ([], [c])
  | c :: d :: text =>
    if isNameChar c || (c == '.' && d.isDigit) then (numberRun (d :: text)).cons c
    else ([], c :: d :: text)

/-- The rest of a string literal up to its closing quote, and what follows it. -/
def closedString? : Text → Option Cut
  | [] => none
  | [c] => if c = '"' then some (['"'], []) else none
  | c :: d :: text =>
    if c = '"' then some (['"'], d :: text)
    else if c = '\\' then
      if d = '\n' then none else (closedString? text).map fun cut => (cut.cons d).cons c
    else (closedString? (d :: text)).map (·.cons c)

/-- What follows an unclosed string: the line feed after a backslash, or the end of the text. -/
def afterBrokenString : Text → Text
  | [] => []
  | [_] => []
  | c :: d :: text =>
    if c = '\\' then if d = '\n' then d :: text else afterBrokenString text
    else afterBrokenString (d :: text)

/-- The text after a block comment's end. -/
def afterBlockComment? (text : Text) : Option Text :=
  (Text.cutAt? ['*', '/'] text).map (·.2)

/-- What starts with a slash. -/
def slash : Text → Option Token × Text
  | '*' :: text => match afterBlockComment? text with
    | some rest => (none, rest)
    | none => (some unknown, [])
  | '/' :: text => (none, text.dropWhile (· != '\n'))
  | text => (some unknown, text)

/-- What starts with a point. -/
def point : Text → Option Token × Text
  | '.' :: '.' :: text => (some ellipsis, text)
  | text => (some dot, text)

/-- What starts with an at sign. -/
def atSign : Text → Option Token × Text
  | c :: text =>
    if isNameStart c then
      let run := nameRun (c :: text)
      (some (directive ('@' :: run.1)), run.2)
    else (some unknown, c :: text)
  | [] => (some unknown, [])

/-- What starts with a quote. -/
def quote (text : Text) : Option Token × Text :=
  match closedString? text with
  | some cut => (some (stringLit ('"' :: cut.1)), cut.2)
  | none => (some unknown, afterBrokenString text)

/-- The token that a text starts with, or nothing for a blank or a comment, and the rest. -/
def first (c : Char) (text : Text) : Option Token × Text :=
  if isGap c then (none, text)
  else if c = '.' then point text
  else if c = '@' then atSign text
  else if c = '"' then quote text
  else if c = '/' then slash text
  else if c.isDigit then
    let run := numberRun text
    (some (number (c :: run.1)), run.2)
  else if isNameStart c then
    let run := nameRun text
    (some (identifier (c :: run.1)), run.2)
  else (some ((mark? c).getD unknown), text)

theorem length_dropWhile (p : Char → Bool) (text : Text) :
    (text.dropWhile p).length ≤ text.length := (List.dropWhile_suffix p).length_le

theorem length_numberRun (text : Text) : (numberRun text).2.length ≤ text.length := by
  fun_induction numberRun text <;> grind [Cut.cons]

theorem length_closedString (text : Text) (cut : Cut) (closed : closedString? text = some cut) :
    cut.2.length ≤ text.length := by
  fun_induction closedString? text generalizing cut <;> grind [Cut.cons, Option.map_eq_some_iff]

theorem length_afterBrokenString (text : Text) : (afterBrokenString text).length ≤ text.length := by
  fun_induction afterBrokenString text <;> grind

theorem length_quote (text : Text) : (quote text).2.length ≤ text.length := by
  unfold quote
  split
  · next cut closed => exact length_closedString text cut closed
  · exact length_afterBrokenString text

theorem length_slash (text : Text) : (slash text).2.length ≤ text.length := by
  unfold slash
  split
  · next text =>
    split
    · next rest found =>
      simp only [afterBlockComment?, Option.map_eq_some_iff] at found
      obtain ⟨⟨before, rest'⟩, found, rfl⟩ := found
      have := Text.length_cutAt _ _ _ _ found
      simp; omega
    · simp
  · next text =>
    have := length_dropWhile (· != '\n') text
    simp; omega
  · simp

theorem length_first (c : Char) (text : Text) : (first c text).2.length ≤ text.length := by
  unfold first
  repeat' split
  · simp
  · unfold point; split <;> simp; omega
  · unfold atSign
    split
    · split
      · exact length_dropWhile isNameChar _
      · simp
    · simp
  · exact length_quote text
  · exact length_slash text
  · exact length_numberRun text
  · exact length_dropWhile isNameChar text
  · simp

end Token

/-- The tokens of a text. -/
def lex : Text → List Token
  | [] => []
  | c :: text => (Token.first c text).1.toList ++ lex (Token.first c text).2
termination_by text => text.length
decreasing_by
  have shorter := Token.length_first c text
  simp
  omega

end HeaderBindings
