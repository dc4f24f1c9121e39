import HeaderBindings.Declaration.ClassHeader
import HeaderBindings.Proofs.Checked.Members

/-!
Class headers and lines of macros read by places: what a cursor reads after the name, in the category,
behind the superclass and at the end of an `@interface` line.
-/

namespace HeaderBindings

namespace Checked

namespace ClassHeader

def angles? (cursor : Cursor) : Reading HeaderFault (Option (List Token) × Cursor) := do
  match ← cursor.angleGroup with
  | (some (inner, true), cursor) => return (some inner, cursor)
  | (some (_, false), _) => throw .openAngle
  | (none, cursor) => return (none, cursor)

def protocolList (tokens : List Token) : Reading HeaderFault (List Text) := do
  let parts ← splitCommas tokens
  ExceptT.mk (pure (parts.mapM ClassHeader.Reader.protocolName))

def startsSuffix (cursor : Cursor) : Bool :=
  cursor.first? == some .leftParen || cursor.first? == some .colon

def afterName (cursor : Cursor) : Reading HeaderFault ((List Text × List Text) × Cursor) := do
  match ← angles? cursor with
  | (none, cursor) => return (([], []), cursor)
  | (some inner, cursor) =>
    if startsSuffix cursor then return ((inner.filterMap Token.name?, []), cursor)
    else return (([], ← protocolList inner), cursor)

def category? (cursor : Cursor) : Reading HeaderFault (Option Text × Cursor) := do
  match ← cursor.parenGroup with
  | (none, cursor) => return (none, cursor)
  | (some (_, false), _) => throw .openCategory
  | (some ([], true), cursor) => return (some [], cursor)
  | (some ([.identifier name], true), cursor) => return (some name, cursor)
  | (some _, _) => throw .malformedCategory

def superclass? (typeParams : List Text) (cursor : Cursor) :
    Reading HeaderFault ((Option Text × List Text) × Cursor) := do
  if cursor.first? = some .colon then
    match cursor.step.first? with
    | some (.identifier name) =>
      match ← angles? cursor.step.step with
      | (none, cursor) => return ((some name, []), cursor)
      | (some inner, cursor) =>
        if ClassHeader.Reader.isTypeArguments typeParams inner then return ((some name, []), cursor)
        else return ((some name, ← protocolList inner), cursor)
    | _ => throw .noSuperclass
  else return ((none, []), cursor)

def protocols? (cursor : Cursor) : Reading HeaderFault (List Text × Cursor) := do
  match ← angles? cursor with
  | (none, cursor) => return ([], cursor)
  | (some inner, cursor) => return (← protocolList inner, cursor)

def atEnd (cursor : Cursor) : Reading HeaderFault Unit :=
  match cursor.first? with
  | none => return ()
  | some .leftBrace => return ()
  | some token => throw (.unexpected token)

def afterDirective (leading : Option Text) (cursor : Cursor) : Reading HeaderFault ClassHeader := do
  match cursor.first? with
  | some (.identifier name) =>
    let ((typeParams, rootProtocols), cursor) ← afterName cursor.step
    let (category, cursor) ← category? cursor
    let ((superclass, superProtocols), cursor) ← superclass? typeParams cursor
    let (protocols, cursor) ← protocols? cursor
    let (trailing, cursor) ← macroRun (cursor.tokens.length + 1) cursor
    atEnd cursor
    return { name := name
             category := category
             superclass := superclass
             protocols := rootProtocols ++ superProtocols ++ protocols
             availability := leading.or trailing }
  | _ => throw .noClassName

def header (tokens : List Token) : Reading HeaderFault ClassHeader := do
  let (leading, cursor) ← macroRun (tokens.length + 1) ⟨tokens, 0⟩
  match cursor.first? with
  | some (.directive name) =>
    if name = "@interface".toList then afterDirective leading cursor.step else throw .noInterface
  | _ => throw .noInterface

def parse (line : Text) : Checked (Except DeclarationError ClassHeader) := do
  return (← (header (← lex line)).run).mapError (.header line)

variable {cursor : Cursor} {tokens : List Token}

theorem angles_follows (before : cursor.Before tokens) :
    Follows Reads (angles? cursor) (ClassHeader.Reader.angles? tokens) := by
  unfold angles? ClassHeader.Reader.angles?
  cases call : Token.angleGroup? tokens with
  | none => exact .access (before.group_none call) (.value ⟨rfl, before⟩)
  | some group =>
    obtain ⟨after, read, behind⟩ := before.group_some call
    refine .access read ?_
    obtain ⟨inner, _ | _, rest⟩ := group
    · exact .fault _
    · exact .value ⟨rfl, behind⟩

theorem protocolList_follows (inner : List Token) :
    Follows (· = ·) (protocolList inner) (ClassHeader.Reader.protocolList inner) := by
  refine .access (splitCommas_eq inner) ?_
  rw [ClassHeader.Reader.protocolList]
  cases (Token.splitCommas inner).mapM ClassHeader.Reader.protocolName with
  | error fault => exact .fault fault
  | ok names => exact .value rfl

theorem startsSuffix_eq (before : cursor.Before tokens) :
    startsSuffix cursor = ClassHeader.Reader.startsSuffix tokens := by
  rw [startsSuffix, before.first]
  cases tokens with
  | nil => rfl
  | cons token tokens => cases token <;> rfl

/-- Two values and a cursor in front of the tokens that are left. -/
structure ReadsPair {α β : Type} (read : (α × β) × Cursor) (result : α × β × List Token) : Prop where
  first : read.1.1 = result.1
  second : read.1.2 = result.2.1
  rest : read.2.Before result.2.2

theorem afterName_follows (before : cursor.Before tokens) :
    Follows ReadsPair (afterName cursor) (ClassHeader.Reader.afterName tokens) := by
  refine (angles_follows before).bind_reads fun inner? cursor tokens ahead => ?_
  cases inner? with
  | none => exact .value ⟨rfl, rfl, ahead⟩
  | some inner =>
    dsimp only
    rw [startsSuffix_eq ahead]
    split
    · exact .value ⟨rfl, rfl, ahead⟩
    · refine (protocolList_follows inner).bind fun read result same => ?_
      exact .value ⟨rfl, same, ahead⟩

theorem category_follows (before : cursor.Before tokens) :
    Follows Reads (category? cursor) (ClassHeader.Reader.category? tokens) := by
  unfold category? ClassHeader.Reader.category?
  cases call : Token.parenGroup? tokens with
  | none => exact .access (before.group_none call) (.value ⟨rfl, before⟩)
  | some group =>
    obtain ⟨after, read, behind⟩ := before.group_some call
    refine .access read ?_
    obtain ⟨inner, _ | _, rest⟩ := group
    · exact .fault _
    · match inner with
      | [] => exact .value ⟨rfl, behind⟩
      | [token] =>
        cases token with
        | identifier name => exact .value ⟨rfl, behind⟩
        | _ => exact .fault _
      | first :: second :: later => cases first <;> exact .fault _

theorem superclass_follows (typeParams : List Text) (before : cursor.Before tokens) :
    Follows ReadsPair (superclass? typeParams cursor)
      (ClassHeader.Reader.superclass? typeParams tokens) := by
  unfold superclass?
  fun_cases ClassHeader.Reader.superclass? typeParams tokens with
  | case1 name tokens =>
    have colon : cursor.first? = some .colon := before.first
    have named : cursor.step.first? = some (.identifier name) := before.step.first
    rw [if_pos colon, named]
    refine (angles_follows before.step.step).bind_reads fun inner? cursor tokens ahead => ?_
    cases inner? with
    | none => exact .value ⟨rfl, rfl, ahead⟩
    | some inner =>
      dsimp only
      split
      · exact .value ⟨rfl, rfl, ahead⟩
      · refine (protocolList_follows inner).bind fun read result same => ?_
        exact .value ⟨rfl, same, ahead⟩
  | case2 tokens other =>
    have colon : cursor.first? = some .colon := before.first
    rw [if_pos colon, before.step.first]
    split
    · next name first =>
      obtain ⟨later, rfl⟩ := List.head?_eq_some_iff.mp first
      exact absurd rfl (other name later)
    · exact .fault _
  | case3 tokens _ other =>
    rw [if_neg (before.first_ne other)]
    exact .value ⟨rfl, rfl, before⟩

theorem protocols_follows (before : cursor.Before tokens) :
    Follows Reads (protocols? cursor) (ClassHeader.Reader.protocols? tokens) := by
  refine (angles_follows before).bind_reads fun inner? cursor tokens ahead => ?_
  cases inner? with
  | none => exact .value ⟨rfl, ahead⟩
  | some inner =>
    refine (protocolList_follows inner).bind fun read result same => ?_
    exact .value ⟨same, ahead⟩

theorem atEnd_follows (before : cursor.Before tokens) :
    Follows (· = ·) (atEnd cursor) (ClassHeader.Reader.atEnd tokens) := by
  unfold atEnd
  rw [before.first]
  cases tokens with
  | nil => exact .value rfl
  | cons token tokens => cases token <;> first | exact .value rfl | exact .fault _

theorem afterDirective_follows (leading : Option Text) (before : cursor.Before tokens) :
    Follows (· = ·) (afterDirective leading cursor)
      (ClassHeader.Reader.afterDirective leading tokens) := by
  unfold afterDirective
  fun_cases ClassHeader.Reader.afterDirective leading tokens with
  | case1 name tokens =>
    have named : cursor.first? = some (.identifier name) := before.first
    rw [named]
    refine (afterName_follows before.step).bind fun read result same => ?_
    obtain ⟨⟨typeParams, rootProtocols⟩, cursor⟩ := read
    obtain ⟨params, root, tokens⟩ := result
    obtain ⟨rfl, rfl, ahead⟩ := same
    refine (category_follows ahead).bind_reads fun category cursor tokens ahead => ?_
    refine (superclass_follows typeParams ahead).bind fun read result same => ?_
    obtain ⟨⟨superclass, superProtocols⟩, cursor⟩ := read
    obtain ⟨parent, own, tokens⟩ := result
    obtain ⟨rfl, rfl, ahead⟩ := same
    refine (protocols_follows ahead).bind_reads fun protocols cursor tokens ahead => ?_
    obtain ⟨after, macros, ends⟩ := macroRun_read _ cursor tokens ahead ahead.length_le
    refine .access macros ((atEnd_follows ends).bind fun read result same => ?_)
    exact .value rfl
  | case2 tokens other =>
    rw [before.first]
    split
    · next name first =>
      obtain ⟨later, rfl⟩ := List.head?_eq_some_iff.mp first
      exact absurd rfl (other name later)
    · exact .fault _

theorem header_follows (tokens : List Token) :
    Follows (· = ·) (header tokens) (ClassHeader.Reader.header tokens) := by
  obtain ⟨after, macros, ahead⟩ :=
    macroRun_read _ _ tokens (Cursor.before_start tokens) (Nat.lt_succ_self _)
  refine .access macros ?_
  rw [ClassHeader.Reader.header]
  dsimp only
  rw [ahead.first]
  generalize (HeaderBindings.macroRun tokens).availability = leading
  generalize (HeaderBindings.macroRun tokens).rest = rest at ahead ⊢
  cases rest with
  | nil => exact .fault _
  | cons token rest =>
    cases token with
    | directive name =>
      simp only [List.head?_cons]
      split
      · exact afterDirective_follows leading ahead.step
      · exact .fault _
    | _ => exact .fault _

theorem parse_eq (line : Text) : parse line = .ok (HeaderBindings.ClassHeader.parse line) := by
  have read := (header_follows (HeaderBindings.lex line)).run
  simp only [parse, lex_eq, ok_bind, read]
  rfl

end ClassHeader

/-- The availability of a text that holds nothing but macros. -/
def macroOnly? (text : Text) : Checked (Option (Option Text)) := do
  let tokens ← lex text
  if tokens.isEmpty then return none
  let (availability, cursor) ← macroRun (tokens.length + 1) ⟨tokens, 0⟩
  if cursor.tokens.length ≤ cursor.place then return some availability else return none

theorem macroOnly_eq (text : Text) : macroOnly? text = .ok (HeaderBindings.macroOnly? text) := by
  rw [macroOnly?, HeaderBindings.macroOnly?, lex_eq, ok_bind]
  cases HeaderBindings.lex text with
  | nil => rfl
  | cons token tokens =>
    obtain ⟨after, macros, ahead⟩ := macroRun_read _ _ (token :: tokens)
      (Cursor.before_start (token :: tokens)) (Nat.lt_succ_self _)
    rw [List.isEmpty_cons, if_neg (by simp), macros]
    simp only [ok_bind, ahead.ends, List.isEmpty_iff]
    split <;> rfl

end Checked

end HeaderBindings
