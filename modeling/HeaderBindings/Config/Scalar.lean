import HeaderBindings.Config.Table

/-!
Reading the scalars of a TOML document. Each reader takes the longest start of a text that it
knows and gives what follows it. Strings are read to their text; of numbers, dates and times only
their form and range are checked.
-/

namespace HeaderBindings

namespace Config

/-- A reader gives what it has read and the rest of the text. -/
abbrev Reads (α : Type) := Text → Option (α × Text)

def isSpace (c : Char) : Bool := c == ' ' || c == '\t'

def skipSpace (text : Text) : Text := text.dropWhile isSpace

def newline? : Text → Option Text
  | '\n' :: text => some text
  | '\r' :: '\n' :: text => some text
  | _ => none

def isBeyondAscii (c : Char) : Bool := 0x80 ≤ c.toNat

/-- The characters of a comment. -/
def isCommentChar (c : Char) : Bool :=
  c == '\t' || (0x20 ≤ c.toNat && c.toNat ≤ 0x7E) || isBeyondAscii c

def isHexDigit (c : Char) : Bool :=
  c.isDigit || ('a' ≤ c && c ≤ 'f') || ('A' ≤ c && c ≤ 'F')

def digitValue (c : Char) : Nat :=
  if c.isDigit then c.toNat - '0'.toNat
  else if 'a' ≤ c && c ≤ 'f' then c.toNat - 'a'.toNat + 10
  else c.toNat - 'A'.toNat + 10

def numberIn (base : Nat) (digits : Text) : Nat :=
  digits.foldl (fun value c => base * value + digitValue c) 0

/-! Strings. -/

/-- A character by the hexadecimal digits of its code. -/
def coded? (count : Nat) (text : Text) : Option (Char × Text) :=
  let digits := text.take count
  let code := numberIn 16 digits
  if digits.length = count && digits.all isHexDigit && (code < 0xD800 || 0xDFFF < code)
      && code < 0x110000 then some (Char.ofNat code, text.drop count)
  else none

/-- The character that an escape stands for, after its backslash. -/
def escape? : Text → Option (Char × Text)
  | 'b' :: text => some ('\x08', text)
  | 'f' :: text => some ('\x0c', text)
  | 'n' :: text => some ('\n', text)
  | 'r' :: text => some ('\r', text)
  | 't' :: text => some ('\t', text)
  | '\\' :: text => some ('\\', text)
  | '"' :: text => some ('"', text)
  | 'u' :: text => coded? 4 text
  | 'U' :: text => coded? 8 text
  | _ => none

def isBasicChar (c : Char) : Bool :=
  c == '\t' || c == ' ' || c == '!' || (0x23 ≤ c.toNat && c.toNat ≤ 0x5B)
    || (0x5D ≤ c.toNat && c.toNat ≤ 0x7E) || isBeyondAscii c

def isLiteralChar (c : Char) : Bool :=
  c == '\t' || (0x20 ≤ c.toNat && c.toNat ≤ 0x26) || (0x28 ≤ c.toNat && c.toNat ≤ 0x7E)
    || isBeyondAscii c

def consRead (c : Char) (read : Text × Text) : Text × Text := (c :: read.1, read.2)

theorem length_coded (count : Nat) (text : Text) (read : Char × Text)
    (known : coded? count text = some read) : read.2.length ≤ text.length := by
  unfold coded? at known
  simp only at known
  split at known
  · cases known; simp
  · cases known

theorem length_escape (text : Text) (read : Char × Text) (known : escape? text = some read) :
    read.2.length < text.length := by
  unfold escape? at known
  split at known
  all_goals first
    | (have shorter := length_coded _ _ _ known; simp; omega)
    | (cases known; simp)
    | cases known

/-- A string in double quotes, after the opening one. -/
def basicRest (text : Text) : Option (Text × Text) :=
  match text with
  | [] => none
  | '"' :: text => some ([], text)
  | '\\' :: text => match _escaped : escape? text with
    | some (c, rest) => (basicRest rest).map (consRead c)
    | none => none
  | c :: text => if isBasicChar c then (basicRest text).map (consRead c) else none
termination_by text.length
decreasing_by
  · have := length_escape _ _ _escaped
    simp at this ⊢
    omega
  · simp

/-- A string in single quotes, after the opening one. -/
def literalRest : Text → Option (Text × Text)
  | [] => none
  | c :: text =>
    if c = '\'' then some ([], text)
    else if isLiteralChar c then (literalRest text).map (consRead c)
    else none

/-- The text after blanks and line ends. -/
def skipBlankLines : Text → Text
  | '\r' :: '\n' :: text => skipBlankLines text
  | c :: text => if isSpace c || c == '\n' then skipBlankLines text else c :: text
  | [] => []

theorem length_skipBlankLines (text : Text) : (skipBlankLines text).length ≤ text.length := by
  fun_induction skipBlankLines text <;> simp_all <;> omega

theorem length_skipSpace (text : Text) : (skipSpace text).length ≤ text.length :=
  (List.dropWhile_suffix isSpace).length_le

theorem length_newline (text rest : Text) (here : newline? text = some rest) :
    rest.length < text.length := by
  unfold newline? at here
  split at here <;> grind

/-- A string between triple double quotes, after the opening ones. Up to two quotes may stand right
before the closing ones; a backslash at the end of a line joins it to the next text. -/
def multiBasicRest (text : Text) : Option (Text × Text) :=
  match text with
  | [] => none
  | '"' :: '"' :: '"' :: '"' :: '"' :: text => some (['"', '"'], text)
  | '"' :: '"' :: '"' :: '"' :: text => some (['"'], text)
  | '"' :: '"' :: '"' :: text => some ([], text)
  | '"' :: text => (multiBasicRest text).map (consRead '"')
  | '\r' :: '\n' :: text => (multiBasicRest text).map (consRead '\n')
  | '\\' :: text => match _joined : newline? (skipSpace text) with
    | some rest => multiBasicRest (skipBlankLines rest)
    | none => match _escaped : escape? text with
      | some (c, rest) => (multiBasicRest rest).map (consRead c)
      | none => none
  | c :: text =>
    if isBasicChar c || c == '\n' then (multiBasicRest text).map (consRead c) else none
termination_by text.length
decreasing_by
  · simp
  · simp only [List.length_cons]
    omega
  · have := length_newline _ _ _joined
    have := length_skipSpace text
    have := length_skipBlankLines rest
    simp only [List.length_cons]
    omega
  · have := length_escape _ _ _escaped
    simp at this ⊢
    omega
  · simp

/-- A string between triple single quotes, after the opening ones. -/
def multiLiteralRest : Text → Option (Text × Text)
  | [] => none
  | '\'' :: '\'' :: '\'' :: '\'' :: '\'' :: text => some (['\'', '\''], text)
  | '\'' :: '\'' :: '\'' :: '\'' :: text => some (['\''], text)
  | '\'' :: '\'' :: '\'' :: text => some ([], text)
  | '\'' :: text => (multiLiteralRest text).map (consRead '\'')
  | '\r' :: '\n' :: text => (multiLiteralRest text).map (consRead '\n')
  | c :: text =>
    if isLiteralChar c || c == '\n' then (multiLiteralRest text).map (consRead c) else none

def afterNewline (text : Text) : Text := (newline? text).getD text

def string? : Reads Text
  | '"' :: '"' :: '"' :: text => multiBasicRest (afterNewline text)
  | '"' :: text => basicRest text
  | '\'' :: '\'' :: '\'' :: text => multiLiteralRest (afterNewline text)
  | '\'' :: text => literalRest text
  | _ => none

/-! Numbers. -/

/-- Digits of a kind with single underscores between them. -/
def digitGroups (isDigit : Char → Bool) : Text → Option (Text × Text)
  | [] => none
  | [c] => if isDigit c then some ([c], []) else none
  | c :: d :: text =>
    if !isDigit c then none
    else if d = '_' then match text with
      | [] => none
      | e :: text => (digitGroups isDigit (e :: text)).map (consRead c)
    else if isDigit d then (digitGroups isDigit (d :: text)).map (consRead c)
    else some ([c], d :: text)

def sign? : Text → Bool × Text
  | '-' :: text => (true, text)
  | '+' :: text => (false, text)
  | text => (false, text)

/-- The digits of a decimal integer without its sign: a zero stands alone. -/
def decimalDigits : Reads Text
  | '0' :: text => some (['0'], text)
  | text => digitGroups Char.isDigit text

def largest : Nat := Nat.pow 2 63 - 1

def decimal? : Reads Scalar := fun text =>
  let (negative, text) := sign? text
  (decimalDigits text).bind fun (digits, rest) =>
    if numberIn 10 digits ≤ (if negative then largest + 1 else largest) then
      some (.integer, rest)
    else none

def inBase (base : Nat) (isDigit : Char → Bool) : Reads Scalar := fun text =>
  (digitGroups isDigit text).bind fun (digits, rest) =>
    if numberIn base digits ≤ largest then some (.integer, rest) else none

def integer? : Reads Scalar
  | '0' :: 'x' :: text => inBase 16 isHexDigit text
  | '0' :: 'o' :: text => inBase 8 (fun c => '0' ≤ c && c ≤ '7') text
  | '0' :: 'b' :: text => inBase 2 (fun c => c == '0' || c == '1') text
  | text => decimal? text

def fraction? : Reads Text
  | '.' :: text => digitGroups Char.isDigit text
  | _ => none

/-- The sign and the digits of an exponent. -/
def exponent? : Reads (Bool × Text) := fun text => match text with
  | c :: text =>
    if c = 'e' || c = 'E' then
      let (negative, text) := sign? text
      (digitGroups Char.isDigit text).map fun (digits, rest) => ((negative, digits), rest)
    else none
  | [] => none

/-- Whether a positive decimal rounds to infinity: it lies at least half a unit above the largest
float of 64 bits. More than a thousand digits before the point decide without computing it. -/
def overflows (whole fraction : Text) (negativeExponent : Bool) (exponent : Text) : Bool :=
  let digits := (whole ++ fraction).dropWhile (· == '0')
  let power : Int := (if negativeExponent then -1 else 1) * (numberIn 10 exponent : Int)
  let scale : Int := power - fraction.length
  let bound := Nat.pow 2 1024 - Nat.pow 2 970
  if digits.isEmpty then false
  else if (digits.length : Int) + scale > 1000 then true
  else if (digits.length : Int) + scale < 300 then false
  else if scale ≥ 0 then numberIn 10 digits * Nat.pow 10 scale.toNat ≥ bound
  else numberIn 10 digits ≥ bound * Nat.pow 10 (-scale).toNat

def decimalFloat? : Reads Scalar := fun text => do
  let (negative, text) := sign? text
  let (whole, text) ← decimalDigits text
  let (fraction, hasFraction, text) := match fraction? text with
    | some (digits, rest) => (digits, true, rest)
    | none => ([], false, text)
  let (exponent, hasExponent, text) := match exponent? text with
    | some (exponent, rest) => (exponent, true, rest)
    | none => ((false, []), false, text)
  if !hasFraction && !hasExponent then none
  else if !negative && overflows whole fraction exponent.1 exponent.2 then none
  else some (.float, text)

def specialFloat? : Reads Scalar := fun text =>
  match (sign? text).2 with
  | 'i' :: 'n' :: 'f' :: rest => some (.float, rest)
  | 'n' :: 'a' :: 'n' :: rest => some (.float, rest)
  | _ => none

def float? (text : Text) : Option (Scalar × Text) :=
  (decimalFloat? text).or (specialFloat? text)

/-! Dates and times. -/

/-- A number of exactly so many digits, within bounds. -/
def fixed? (count low high : Nat) : Reads Nat := fun text =>
  let digits := text.take count
  let value := numberIn 10 digits
  if digits.length = count && digits.all Char.isDigit && low ≤ value && value ≤ high then
    some (value, text.drop count)
  else none

def mark? (c : Char) : Reads Unit
  | d :: text => if c = d then some ((), text) else none
  | [] => none

def isLeapYear (year : Nat) : Bool := year % 4 == 0 && (year % 100 != 0 || year % 400 == 0)

def daysIn (year month : Nat) : Nat :=
  if month = 2 then if isLeapYear year then 29 else 28
  else if month = 4 || month = 6 || month = 9 || month = 11 then 30
  else 31

def date? : Reads Scalar := fun text => do
  let (year, text) ← fixed? 4 0 9999 text
  let (_, text) ← mark? '-' text
  let (month, text) ← fixed? 2 1 12 text
  let (_, text) ← mark? '-' text
  let (_, text) ← fixed? 2 1 (daysIn year month) text
  return (.dateTime, text)

def secondFraction : Text → Text
  | '.' :: c :: text => if c.isDigit then text.dropWhile Char.isDigit else '.' :: c :: text
  | text => text

def time? : Reads Scalar := fun text => do
  let (_, text) ← fixed? 2 0 23 text
  let (_, text) ← mark? ':' text
  let (_, text) ← fixed? 2 0 59 text
  let (_, text) ← mark? ':' text
  let (_, text) ← fixed? 2 0 60 text
  return (.dateTime, secondFraction text)

def offset? : Reads Unit
  | c :: text =>
    if c = 'Z' || c = 'z' then some ((), text)
    else if c = '+' || c = '-' then do
      let (_, text) ← fixed? 2 0 23 text
      let (_, text) ← mark? ':' text
      let (_, text) ← fixed? 2 0 59 text
      return ((), text)
    else none
  | [] => none

/-- What may follow a date: a time of day, perhaps with an offset. -/
def timeOfDay? : Text → Option Text
  | c :: text =>
    if c = 'T' || c = 't' || c = ' ' then
      (time? text).map fun (_, rest) => ((offset? rest).map (·.2)).getD rest
    else none
  | [] => none

def dateTime? (text : Text) : Option (Scalar × Text) :=
  match date? text with
  | some (_, rest) => some (.dateTime, (timeOfDay? rest).getD rest)
  | none => time? text

def boolean? : Reads Scalar
  | 't' :: 'r' :: 'u' :: 'e' :: text => some (.boolean, text)
  | 'f' :: 'a' :: 'l' :: 's' :: 'e' :: text => some (.boolean, text)
  | _ => none

/-- Any scalar; what starts like a number is a date, a float or an integer, in that order. -/
def scalar? (text : Text) : Option (Scalar × Text) :=
  match text with
  | '"' :: _ | '\'' :: _ => (string? text).map fun (value, rest) => (.string value, rest)
  | 't' :: _ | 'f' :: _ => boolean? text
  | _ => (dateTime? text).or ((float? text).or (integer? text))

end Config

end HeaderBindings
