import HeaderBindings.Token.Render

/-!
Balanced groups of tokens and lists separated by commas. A group that is never closed reaches to
the end of the tokens.
-/

namespace HeaderBindings

namespace Token

/-- What an opening token leads to: the tokens inside, whether the group is closed, and the tokens
after it. -/
structure Group where
  inner : List Token
  closed : Bool
  rest : List Token
  deriving DecidableEq, Repr

namespace Group

def push (token : Token) (group : Group) : Group := { group with inner := token :: group.inner }

/-- The group whose opening token has just been read, at a nesting depth inside it. -/
def read (opening closing : Token) : Nat → List Token → Group
  | _, [] => ⟨[], false, []⟩
  | depth, token :: tokens =>
    if token = opening then (read opening closing (depth + 1) tokens).push token
    else if token = closing then
      match depth with
      | 0 => ⟨[], true, tokens⟩
      | outer + 1 => (read opening closing outer tokens).push token
    else (read opening closing depth tokens).push token

theorem length_read (opening closing : Token) (depth : Nat) (tokens : List Token) :
    (read opening closing depth tokens).rest.length ≤ tokens.length := by
  fun_induction read opening closing depth tokens <;> grind [push]

end Group

/-- The group that the first token opens, if it opens one. -/
def group? (opening closing : Token) : List Token → Option Group
  | [] => none
  | token :: tokens => if token = opening then some (Group.read opening closing 0 tokens) else none

def parenGroup? (tokens : List Token) : Option Group := group? leftParen rightParen tokens

def angleGroup? (tokens : List Token) : Option Group := group? less greater tokens

theorem length_group (opening closing : Token) (tokens : List Token) (group : Group)
    (opened : group? opening closing tokens = some group) :
    group.rest.length < tokens.length := by
  cases tokens with
  | nil => simp [group?] at opened
  | cons token tokens =>
    simp only [group?] at opened
    split at opened
    · cases opened
      have := Group.length_read opening closing 0 tokens
      simp
      omega
    · cases opened

/-- What a token adds to the depth of parentheses and angles. -/
def nesting : Token → Int
  | leftParen | less => 1
  | rightParen | greater => -1
  | _ => 0

/-- The first part and the later parts of tokens cut at the commas outside all brackets. -/
def cutCommas : Int → List Token → List Token × List (List Token)
  | _, [] => ([], [])
  | depth, token :: tokens =>
    let tail := cutCommas (depth + token.nesting) tokens
    if token = comma && depth == 0 then ([], tail.1 :: tail.2) else (token :: tail.1, tail.2)

/-- The parts that are not empty between commas outside all brackets. -/
def splitCommas (tokens : List Token) : List (List Token) :=
  let cut := cutCommas 0 tokens
  (cut.1 :: cut.2).filter (!·.isEmpty)

end Token

end HeaderBindings
