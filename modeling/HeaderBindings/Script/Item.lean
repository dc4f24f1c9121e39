import HeaderBindings.Text.Basic
import HeaderBindings.Text.Word

/-!
The lines of a module read back as items: signatures, implementations and marks, each with the
documentation above it, and other lines. Items are recognised by the form of their lines alone, so
that text from elsewhere is read as well; whatever is not recognised is a line.
-/

namespace HeaderBindings

/-- What ties signatures to an implementation: the side and the name of a member. -/
structure MemberKey where
  isStatic : Bool
  name : Text
  deriving DecidableEq, Repr

inductive Item where
  | plain (text : Text)
  | signature (key : MemberKey) (lines : List Text)
  | implementation (key : MemberKey) (lines : List Text)
  | marker (key : MemberKey) (doc : List Text)
  deriving DecidableEq, Repr

namespace Item

def isNameHead (c : Char) : Bool := c.isAlpha || c == '_' || c == '$'

def isNameTail (c : Char) : Bool := isWordChar c || c == '$'

/-- The name that a text starts with, and the text after it. -/
def name? : Text → Option (Text × Text)
  | c :: text =>
    if isNameHead c then some (c :: text.takeWhile isNameTail, text.dropWhile isNameTail) else none
  | [] => none

/-- The key that a text starts with, after `static ` or without it, and the text after it. -/
def key? (text : Text) : Option (MemberKey × Text) :=
  match Text.after? "static ".toList text with
  | some rest => (name? rest).map fun found => (⟨true, found.1⟩, found.2)
  | none => (name? text).map fun found => (⟨false, found.1⟩, found.2)

/-- A text less a given end. -/
def before? (ending text : Text) : Option Text :=
  (Text.after? ending.reverse text.reverse).map List.reverse

/-- Whether a text ends with a closing parenthesis or has one with a type after it. -/
def closesParams (text : Text) : Bool :=
  text.getLast? == some ')' || match Text.cutAt? "): ".toList text with
    | some (_, type) => !type.isEmpty
    | none => false

/-- The key of a member's line with a given end: a name, parameters, perhaps a type. -/
def memberKey? (ending line : Text) : Option MemberKey :=
  match (Text.after? "  ".toList line).bind key? with
  | some (key, '(' :: rest) => (before? ending rest).bind fun params =>
      if closesParams params then some key else none
  | _ => none

def signatureKey? (line : Text) : Option MemberKey := memberKey? [';'] line

def implementationKey? (line : Text) : Option MemberKey := memberKey? " \x7b".toList line

def markerKey? (line : Text) : Option MemberKey :=
  match (Text.after? "  // @veneer-incomplete ".toList line).bind key? with
  | some (key, []) => some key
  | _ => none

def startsDoc (line : Text) : Bool := Text.startsWith "  /**".toList line

def endsDoc (line : Text) : Bool := (before? ['*', '/'] (Text.trimEnd line)).isSome

def isBodyEnd (line : Text) : Bool := line == "  \x7d".toList

/-- Lines up to the first of a kind, that line included, and the lines after it. -/
def through? (isLast : Text → Bool) : List Text → Option (List Text × List Text)
  | [] => none
  | line :: lines =>
    if isLast line then some ([line], lines)
    else (through? isLast lines).map fun cut => (line :: cut.1, cut.2)

/-- The documentation that lines start with, which may be none, and the lines after it; nothing
where the documentation does not end. -/
def doc? : List Text → Option (List Text × List Text)
  | [] => some ([], [])
  | line :: lines => if startsDoc line then through? endsDoc (line :: lines) else some ([], line :: lines)

/-- What one look at lines finds: items, and the lines that are left. -/
structure Step where
  items : List Item
  rest : List Text
  deriving DecidableEq, Repr

def rawLines (lines : List Text) : List Item := lines.map Item.plain

/-- The items that begin at a line, with the documentation above it and the lines below it. -/
def stepAt (doc : List Text) (head : Text) (below : List Text) : Step :=
  match signatureKey? head, markerKey? head, implementationKey? head with
  | some key, _, _ => ⟨[signature key (doc ++ [head])], below⟩
  | none, some key, _ => ⟨[marker key doc], below⟩
  | none, none, some key => match through? isBodyEnd below with
    | some (body, rest) => ⟨[implementation key (doc ++ head :: body)], rest⟩
    | none => ⟨rawLines (doc ++ head :: below), []⟩
  | none, none, none =>
    if doc.isEmpty then ⟨[plain head], below⟩ else ⟨rawLines doc, head :: below⟩

def step (lines : List Text) : Step :=
  match doc? lines with
  | some (doc, head :: below) => stepAt doc head below
  | _ => ⟨rawLines lines, []⟩

theorem length_through (isLast : Text → Bool) (lines : List Text) (cut : List Text × List Text)
    (found : through? isLast lines = some cut) :
    cut.1.length + cut.2.length = lines.length ∧ cut.1 ≠ [] := by
  induction lines generalizing cut with
  | nil => simp [through?] at found
  | cons line lines ih =>
    simp only [through?] at found
    split at found
    · cases found; simp; omega
    · simp only [Option.map_eq_some_iff] at found
      obtain ⟨later, found, rfl⟩ := found
      have := ih later found
      simp
      omega

theorem length_doc (lines : List Text) (cut : List Text × List Text)
    (found : doc? lines = some cut) : cut.1.length + cut.2.length = lines.length := by
  unfold doc? at found
  split at found
  · cases found; simp
  · split at found
    · exact (length_through _ _ _ found).1
    · cases found; simp

theorem length_step (first : Text) (lines : List Text) :
    (step (first :: lines)).rest.length < (first :: lines).length := by
  unfold step
  split
  · next doc head below found =>
    have whole := length_doc _ _ found
    simp only [List.length_cons] at whole ⊢
    unfold stepAt
    repeat' split
    · simp; omega
    · simp; omega
    · next body rest here =>
      have := (length_through _ _ _ here).1
      simp at this ⊢
      omega
    · simp
    · simp; omega
    · next nonempty =>
      have : doc.length ≠ 0 := by simpa using nonempty
      simp
      omega
  · simp

/-- The items of a module's lines. -/
def ofLines : List Text → List Item
  | [] => []
  | first :: lines => (step (first :: lines)).items ++ ofLines (step (first :: lines)).rest
termination_by lines => lines.length
decreasing_by exact length_step first lines

end Item

end HeaderBindings
