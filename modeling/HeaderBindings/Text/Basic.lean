/-!
Text as a list of characters. Main operations: trimming white space, which is the twenty-five
characters with the Unicode property `White_Space`; the pieces between line feeds and the lines of a
text; cutting a text at a character or at the first occurrence of a pattern; and adopting texts into
a list in which none is repeated.
-/

namespace HeaderBindings

abbrev Text := List Char

def isBlank (c : Char) : Bool :=
  let n := c.toNat
  (0x9 ≤ n && n ≤ 0xD) || n == 0x20 || n == 0x85 || n == 0xA0 || n == 0x1680
    || (0x2000 ≤ n && n ≤ 0x200A) || n == 0x2028 || n == 0x2029 || n == 0x202F
    || n == 0x205F || n == 0x3000

namespace Text

def trimStart (text : Text) : Text := text.dropWhile isBlank

def trimEnd (text : Text) : Text := (text.reverse.dropWhile isBlank).reverse

def trim (text : Text) : Text := trimEnd (trimStart text)

def dropTrailing (unwanted : Char → Bool) (text : Text) : Text :=
  (text.reverse.dropWhile unwanted).reverse

/-- The rest of a text after a given start. -/
def after? : (start : Text) → (text : Text) → Option Text
  | [], text => some text
  | _ :: _, [] => none
  | c :: start, d :: text => if c = d then after? start text else none

theorem after_eq_some_iff (start text rest : Text) :
    after? start text = some rest ↔ text = start ++ rest := by
  induction start generalizing text with
  | nil => simp [after?, eq_comm]
  | cons c start ih =>
    cases text with
    | nil => simp [after?]
    | cons d text => by_cases same : c = d <;> simp [after?, same, ih, eq_comm]

theorem after_of_head (c : Char) (start text : Text) (other : text.head? ≠ some c) :
    after? (c :: start) text = none := by
  cases text with
  | nil => rfl
  | cons d text =>
    have apart : c ≠ d := fun same => other (by rw [same]; rfl)
    simp [after?, apart]

def startsWith (start text : Text) : Bool := (after? start text).isSome

theorem startsWith_iff (start text : Text) : startsWith start text = true ↔ start <+: text := by
  rw [startsWith, Option.isSome_iff_exists]
  constructor
  · rintro ⟨rest, found⟩
    exact ⟨rest, ((after_eq_some_iff start text rest).mp found).symm⟩
  · rintro ⟨rest, whole⟩
    exact ⟨rest, (after_eq_some_iff start text rest).mpr whole.symm⟩

/-- The text before the first occurrence of a pattern and the text after it. -/
def cutAt? (pattern : Text) : Text → Option (Text × Text)
  | [] => (after? pattern []).map fun rest => ([], rest)
  | c :: text => match after? pattern (c :: text) with
    | some rest => some ([], rest)
    | none => (cutAt? pattern text).map fun cut => (c :: cut.1, cut.2)

theorem eq_of_cutAt (pattern text before rest : Text)
    (found : cutAt? pattern text = some (before, rest)) : text = before ++ pattern ++ rest := by
  induction text generalizing before with
  | nil =>
    simp only [cutAt?, Option.map_eq_some_iff, Prod.mk.injEq] at found
    obtain ⟨_, here, rfl, rfl⟩ := found
    simpa using (after_eq_some_iff pattern [] _).mp here
  | cons c text ih =>
    simp only [cutAt?] at found
    split at found
    · next here =>
      simp only [Option.some.injEq, Prod.mk.injEq] at found
      obtain ⟨rfl, rfl⟩ := found
      simpa using (after_eq_some_iff pattern _ _).mp here
    · simp only [Option.map_eq_some_iff, Prod.mk.injEq] at found
      obtain ⟨cut, later, rfl, rfl⟩ := found
      simp [ih cut.1 later]

theorem length_trimEnd (text : Text) : (trimEnd text).length ≤ text.length := by
  simpa [trimEnd] using (List.dropWhile_suffix isBlank (l := text.reverse)).length_le

theorem length_trim (text : Text) : (trim text).length ≤ text.length :=
  Nat.le_trans (length_trimEnd _) (List.dropWhile_suffix isBlank).length_le

theorem length_cutAt (pattern text before rest : Text)
    (found : cutAt? pattern text = some (before, rest)) : rest.length ≤ text.length := by
  have whole := eq_of_cutAt pattern text before rest found
  subst whole
  simp only [List.length_append]
  omega

/-- The first piece and the later pieces of a text cut at every character of a kind. -/
def cutWhere (isMark : Char → Bool) : Text → Text × List Text
  | [] => ([], [])
  | c :: text =>
    let tail := cutWhere isMark text
    if isMark c then ([], tail.1 :: tail.2) else (c :: tail.1, tail.2)

/-- The pieces between the characters of a kind; one more than there are such characters. -/
def piecesWhere (isMark : Char → Bool) (text : Text) : List Text :=
  let cut := cutWhere isMark text
  cut.1 :: cut.2

/-- The pieces of a text between line feeds. -/
def pieces (text : Text) : List Text := piecesWhere (· == '\n') text

def dropReturn (line : Text) : Text :=
  match line.reverse with
  | '\r' :: rest => rest.reverse
  | _ => line

/-- Each piece that a line feed ends is a line, less one carriage return; what follows the last
line feed is a line if it is not empty. -/
def linesOf : List Text → List Text
  | [] => []
  | [last] => if last.isEmpty then [] else [last]
  | piece :: rest => dropReturn piece :: linesOf rest

def lines (text : Text) : List Text := linesOf (pieces text)

/-- Words are the runs of characters that are not blank. -/
def words (text : Text) : List Text := (piecesWhere isBlank text).filter (!·.isEmpty)

/-- The text before the first blank and the text from it on, after leading blanks. -/
def splitWord (text : Text) : Text × Text :=
  let start := trimStart text
  (start.takeWhile (!isBlank ·), trimStart (start.dropWhile (!isBlank ·)))

def join (separator : Text) (parts : List Text) : Text := List.intercalate separator parts

/-- The decimal digits of a number. -/
def ofNat (n : Nat) : Text := Nat.toDigits 10 n

end Text

/-- The texts already known and then the new ones, each once. -/
def adopt (known : List Text) : List Text → List Text
  | [] => known
  | text :: texts => adopt (if known.contains text then known else known ++ [text]) texts

end HeaderBindings
