import HeaderBindings.Config.Scalar

/-!
Reading a TOML document as lines: comments, headers of tables and of table elements, and keys with
values. Arrays may go over several lines, inline tables may not. Values nest fewer than eighty
deep, and so do the parts of a key.
-/

namespace HeaderBindings

namespace Config

def nestingLimit : Nat := 79

def isBareKeyChar (c : Char) : Bool := c.isAlphanum || c == '-' || c == '_'

def simpleKey? : Reads Text
  | '"' :: text => basicRest text
  | '\'' :: text => literalRest text
  | text =>
    let key := text.takeWhile isBareKeyChar
    if key.isEmpty then none else some (key, text.dropWhile isBareKeyChar)

/-- Items with separators between them, as many as there are; one that does not follow a
separator's text is left with the separator. The count bounds the number of items. -/
def separated {α : Type} (separator : Char) (item : Reads α) : Nat → Text → List α × Text
  | 0, text => ([], text)
  | count + 1, text => match item text with
    | none => ([], text)
    | some (first, rest) => match rest with
      | c :: after =>
        if c = separator then
          match separated separator item count after with
          | ([], _) => ([first], rest)
          | (later, rest) => (first :: later, rest)
        else ([first], rest)
      | [] => ([first], rest)

/-- The last part of a dotted key and the parts before it. -/
def dottedKey? : Reads (List Text × Text) := fun text =>
  let part : Reads Text := fun text =>
    (simpleKey? (skipSpace text)).map fun (key, rest) => (key, skipSpace rest)
  match separated '.' part text.length text with
  | (keys, rest) => match keys.reverse with
    | last :: before =>
      if keys.length ≤ nestingLimit then some ((before.reverse, last), rest) else none
    | [] => none

def comment? : Text → Option Text
  | '#' :: text => some (text.dropWhile isCommentChar)
  | _ => none

/-- Blanks, line ends and comments, of which each line may hold one. -/
def skipFiller : Nat → Text → Option Text
  | 0, text => some text
  | count + 1, text =>
    let text := skipSpace text
    match comment? text with
    | some rest => (newline? rest).bind (skipFiller count)
    | none => match newline? text with
      | some rest => skipFiller count rest
      | none => match text with
        | '\r' :: _ => none
        | _ => some text

def filler (text : Text) : Option Text := skipFiller (text.length + 1) text

/-- A key, an equals sign and a value. -/
def pair? (value : Reads Node) : Reads (List Text × Text × Node) := fun text => do
  let ((path, key), rest) ← dottedKey? text
  let (_, rest) ← mark? '=' rest
  let (node, rest) ← value (skipSpace rest)
  return ((path, key, node), skipSpace rest)

def arrayRest (value : Reads Node) : Reads Node := fun text => do
  let item : Reads Node := fun text => do
    let (node, rest) ← value (← filler text)
    return (node, ← filler rest)
  let (items, rest) := separated ',' item text.length text
  let rest := if items.isEmpty then rest else ((mark? ',' rest).map (·.2)).getD rest
  let (_, rest) ← mark? ']' (← filler rest)
  return (.array items, rest)

def inlineTableRest (value : Reads Node) : Reads Node := fun text => do
  let (pairs, rest) := separated ',' (pair? value) text.length text
  let (_, rest) ← mark? '\x7d' (skipSpace rest)
  let table ← pairs.foldlM
    (fun table (pair : List Text × Text × Node) => table.addValue pair.1 pair.2.1 pair.2.2)
    (⟨.inline, []⟩ : Table)
  return (table.node, rest)

/-- A value in which arrays and inline tables nest at most so deep. -/
def value? : Nat → Text → Option (Node × Text)
  | depth + 1, '[' :: text => arrayRest (value? depth) text
  | depth + 1, '\x7b' :: text => inlineTableRest (value? depth) text
  | _, text => (scalar? text).map fun (scalar, rest) => (.scalar scalar, rest)

/-- The end of a line, after blanks and perhaps a comment. -/
def lineEnd? (text : Text) : Option Text :=
  let text := skipSpace text
  let text := (comment? text).getD text
  match text with
  | [] => some []
  | text => newline? text

def header? : Text → Option (Line × Text)
  | '[' :: '[' :: text => do
    let ((path, key), rest) ← dottedKey? text
    let (_, rest) ← mark? ']' rest
    let (_, rest) ← mark? ']' rest
    return (.elementHeader path key, rest)
  | '[' :: text => do
    let ((path, key), rest) ← dottedKey? text
    let (_, rest) ← mark? ']' rest
    return (.header path key, rest)
  | _ => none

def pairLine? (text : Text) : Option (Line × Text) :=
  (pair? (value? nestingLimit) text).map fun ((path, key, node), rest) =>
    (.value path key node, rest)

/-- The lines of a document that say something; the count bounds the number of lines. -/
def lines? : Nat → Text → Option (List Line)
  | 0, _ => none
  | count + 1, text => match skipSpace text with
    | [] => some []
    | '#' :: text => (lineEnd? ('#' :: text)).bind (lines? count)
    | '[' :: text => do
      let (line, rest) ← header? ('[' :: text)
      return line :: (← lines? count (← lineEnd? rest))
    | text => match newline? text with
      | some rest => lines? count rest
      | none => do
        let (line, rest) ← pairLine? text
        return line :: (← lines? count (← lineEnd? rest))

/-- The table that a document describes. A byte order mark at its start is skipped. -/
def document? (text : Text) : Option Table :=
  let text := match text with
    | '\ufeff' :: rest => rest
    | text => text
  (lines? (text.length + 1) text).bind ofLines

end Config

end HeaderBindings
