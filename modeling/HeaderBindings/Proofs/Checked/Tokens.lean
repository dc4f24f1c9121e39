import HeaderBindings.Availability
import HeaderBindings.Proofs.Checked.Access
import HeaderBindings.Proofs.Token.Feeds

/-!
Tokens read by places. Lexing goes on behind the end of a block comment. A cursor over tokens is a
place that only moves on: what is read at a cursor in front of tokens is what the reader of those
tokens gives, and the cursor is then in front of the tokens that it leaves. A group is read by
counting a depth, and its tokens are a range that ends one place before the cursor.
-/

namespace HeaderBindings

namespace Checked

section Lexing

/-- What starts with a slash; a block comment is left behind its end, or at the end of the text. -/
def slash : Text → Checked (Option Token × Text)
  | '*' :: text => match find? ['*', '/'] text with
    | some place => do return (none, ← since text (place + 2))
    | none => do return (some .unknown, ← since text (Text.byteCount text))
  | text => return Token.slash text

def first (c : Char) (text : Text) : Checked (Option Token × Text) :=
  if c = '/' then slash text else return Token.first c text

def lexIn : Nat → Text → Checked (List Token)
  | _, [] => return []
  | 0, _ :: _ => .error .endless
  | rounds + 1, c :: text => do
    let (token?, rest) ← first c text
    return token?.toList ++ (← lexIn rounds rest)

def lex (text : Text) : Checked (List Token) := lexIn text.length text

theorem slash_eq (text : Text) : slash text = .ok (Token.slash text) := by
  unfold slash
  split
  · next text =>
    rw [Token.slash, Token.afterBlockComment?, find?]
    cases found : Text.cutAt? ['*', '/'] text with
    | none =>
      have ends := since_append text []
      rw [List.append_nil] at ends
      simp only [Option.map_none, ends, ok_bind]
      rfl
    | some cut =>
      obtain ⟨body, rest⟩ := cut
      have whole := Text.eq_of_cutAt _ _ _ _ found
      have behind := since_append (body ++ ['*', '/']) rest
      rw [← whole, Text.byteCount_append] at behind
      simp only [Option.map_some]
      rw [show (2 : Nat) = Text.byteCount ['*', '/'] from rfl, behind]
      rfl
  · rfl

theorem first_eq (c : Char) (text : Text) : first c text = .ok (Token.first c text) := by
  unfold first
  split
  · next slash =>
    subst slash
    exact slash_eq text
  · rfl

theorem lexIn_eq (rounds : Nat) (text : Text) (enough : text.length ≤ rounds) :
    lexIn rounds text = .ok (HeaderBindings.lex text) := by
  induction rounds generalizing text with
  | zero =>
    obtain rfl := List.length_eq_zero_iff.mp (Nat.le_zero.mp enough)
    rw [lexIn, HeaderBindings.lex]
    rfl
  | succ rounds ih =>
    cases text with
    | nil =>
      rw [lexIn, HeaderBindings.lex]
      rfl
    | cons c text =>
      have shorter := Token.length_first c text
      rw [List.length_cons] at enough
      have others := ih (Token.first c text).2 (by omega)
      rw [lexIn, HeaderBindings.lex, first_eq]
      simp only [ok_bind, others]
      rfl

theorem lex_eq (text : Text) : lex text = .ok (HeaderBindings.lex text) :=
  lexIn_eq text.length text (Nat.le_refl _)

end Lexing

structure Cursor where
  tokens : List Token
  place : Nat
  deriving DecidableEq, Repr

namespace Cursor

def first? (cursor : Cursor) : Option Token := cursor.tokens[cursor.place]?

def second? (cursor : Cursor) : Option Token := cursor.tokens[cursor.place + 1]?

def step (cursor : Cursor) : Cursor := { cursor with place := cursor.place + 1 }

/-- The tokens from the cursor on. -/
def rest (cursor : Cursor) : Checked (List Token) :=
  slice cursor.tokens (min cursor.place cursor.tokens.length) cursor.tokens.length

/-- The cursor stands in front of tokens. -/
inductive Before : Cursor → List Token → Prop where
  | at (front tokens : List Token) : Before ⟨front ++ tokens, front.length⟩ tokens

variable {cursor : Cursor} {token : Token} {tokens : List Token}

theorem before_start (tokens : List Token) : Before ⟨tokens, 0⟩ tokens := .at [] tokens

theorem Before.first (before : cursor.Before tokens) : cursor.first? = tokens.head? := by
  cases before
  rw [first?, List.getElem?_append_right (Nat.le_refl _), Nat.sub_self, List.head?_eq_getElem?]

theorem Before.of_first (before : cursor.Before tokens) (first : cursor.first? = some token) :
    ∃ later, tokens = token :: later := List.head?_eq_some_iff.mp (before.first.symm.trans first)

theorem Before.first_ne (before : cursor.Before tokens)
    (other : ∀ later, tokens = token :: later → False) : cursor.first? ≠ some token := by
  intro first
  obtain ⟨later, same⟩ := before.of_first first
  exact other later same

theorem Before.second (before : cursor.Before tokens) : cursor.second? = tokens.tail.head? := by
  cases before
  simp [second?, List.getElem?_append_right]

theorem Before.step (before : cursor.Before (token :: tokens)) : cursor.step.Before tokens := by
  generalize whole : token :: tokens = ahead at before
  cases before with
  | «at» front =>
    subst whole
    have here := Before.at (front ++ [token]) tokens
    rwa [List.append_assoc, List.length_append] at here

theorem Before.rest (before : cursor.Before tokens) : cursor.rest = .ok tokens := by
  cases before with
  | «at» front =>
    rw [Cursor.rest, Nat.min_eq_left (by simp)]
    exact slice_back front tokens

theorem Before.ends (before : cursor.Before tokens) :
    cursor.tokens.length ≤ cursor.place ↔ tokens = [] := by
  cases before
  simp only [List.length_append, ← List.length_eq_zero_iff]
  omega

theorem Before.length_le (before : cursor.Before tokens) :
    tokens.length < cursor.tokens.length + 1 := by
  cases before
  simp only [List.length_append]
  omega

theorem Before.length_lt (before : cursor.Before (token :: tokens)) :
    tokens.length < cursor.tokens.length := by
  have fewer := before.length_le
  rw [List.length_cons] at fewer
  omega

section Groups

variable (opening closing : Token)

/-- The tokens up to the end of a group that starts at a place, at a depth inside it, and whether the
group ends at all. -/
def close (start depth : Nat) (cursor : Cursor) : Checked ((List Token × Bool) × Cursor) :=
  if inside : cursor.place < cursor.tokens.length then
    let token := cursor.tokens[cursor.place]
    if token = opening then close start (depth + 1) cursor.step
    else if token = closing then do
      let outer ← minus depth 1
      if outer = 0 then
        let stop ← minus cursor.step.place 1
        return ((← slice cursor.tokens start stop, true), cursor.step)
      else close start outer cursor.step
    else close start depth cursor.step
  else do
    return ((← slice cursor.tokens start cursor.tokens.length, false), cursor)
termination_by cursor.tokens.length - cursor.place
decreasing_by all_goals (simp only [Cursor.step]; omega)

/-- The group that the next token opens, if it opens one. -/
def group (cursor : Cursor) : Checked (Option (List Token × Bool) × Cursor) :=
  if cursor.first? = some opening then do
    let (group, cursor) ← close opening closing cursor.step.place 1 cursor.step
    return (some group, cursor)
  else return (none, cursor)

/-- The loop at a token, with the tokens since the start of the group in front of the cursor. -/
theorem close_token (front inner : List Token) (depth : Nat) (token : Token) (tokens : List Token) :
    let next : Cursor :=
      ⟨front ++ ((inner ++ [token]) ++ tokens), front.length + (inner ++ [token]).length⟩
    close opening closing front.length depth
        ⟨front ++ (inner ++ token :: tokens), front.length + inner.length⟩ =
      if token = opening then close opening closing front.length (depth + 1) next
      else if token = closing then do
        let outer ← minus depth 1
        if outer = 0 then return ((inner, true), next)
        else close opening closing front.length outer next
      else close opening closing front.length depth next := by
  intro next
  have onwards : Cursor.step ⟨front ++ (inner ++ token :: tokens), front.length + inner.length⟩ =
      next := by
    simp [step, next, Nat.add_assoc]
  have here (within : front.length + inner.length < (front ++ (inner ++ token :: tokens)).length) :
      (front ++ (inner ++ token :: tokens))[front.length + inner.length] = token := by
    simp [List.getElem_append_right]
  have stop : minus next.place 1 = .ok (front.length + inner.length) := by
    simp [minus, next]
  rw [close, dif_pos (by simp)]
  simp only [here, onwards, stop, ok_bind, slice_append]

/-- Reading a group from its inside: the depth stays above zero up to the token that closes it, and
the range of its tokens ends in front of that token. -/
theorem close_read (front inner : List Token) (depth : Nat) (tokens : List Token) : ∃ after,
    close opening closing front.length (depth + 1)
        ⟨front ++ (inner ++ tokens), front.length + inner.length⟩ =
      .ok ((inner ++ (Token.Group.read opening closing depth tokens).inner,
        (Token.Group.read opening closing depth tokens).closed), after) ∧
      after.Before (Token.Group.read opening closing depth tokens).rest := by
  fun_induction Token.Group.read opening closing depth tokens generalizing inner with
  | case1 depth =>
    refine ⟨⟨front ++ (inner ++ []), front.length + inner.length⟩, ?_, ?_⟩
    · rw [close, dif_neg (by simp), List.append_nil, slice_back]
      rfl
    · have ends := Before.at (front ++ inner) []
      rwa [List.append_assoc, List.length_append] at ends
  | case2 depth tokens ih =>
    obtain ⟨after, read, before⟩ := ih (inner ++ [opening])
    refine ⟨after, ?_, before⟩
    rw [close_token, if_pos rfl, read]
    simp [Token.Group.push]
  | case3 tokens other =>
    refine ⟨_, ?_, Before.at (front ++ (inner ++ [closing])) tokens⟩
    rw [close_token, if_neg other, if_pos rfl, minus_add, ok_bind, if_pos rfl]
    simp
    rfl
  | case4 tokens outer other ih =>
    obtain ⟨after, read, before⟩ := ih (inner ++ [closing])
    refine ⟨after, ?_, before⟩
    rw [close_token, if_neg other, if_pos rfl, minus_add, ok_bind, if_neg (by simp), read]
    simp [Token.Group.push]
  | case5 depth token tokens opens closes ih =>
    obtain ⟨after, read, before⟩ := ih (inner ++ [token])
    refine ⟨after, ?_, before⟩
    rw [close_token, if_neg opens, if_neg closes, read]
    simp [Token.Group.push]

variable {opening closing}

theorem Before.group_none (before : cursor.Before tokens)
    (absent : Token.group? opening closing tokens = none) :
    cursor.group opening closing = .ok (none, cursor) := by
  have other : cursor.first? ≠ some opening := by
    rw [before.first]
    cases tokens with
    | nil => simp
    | cons token tokens => simpa [Token.group?] using absent
  rw [Cursor.group, if_neg other]
  rfl

theorem Before.group_some (before : cursor.Before tokens) {group : Token.Group}
    (opened : Token.group? opening closing tokens = some group) : ∃ after,
      cursor.group opening closing = .ok (some (group.inner, group.closed), after) ∧
        after.Before group.rest := by
  cases before with
  | «at» front =>
    cases tokens with
    | nil => cases opened
    | cons token tokens =>
      obtain ⟨rfl, rfl⟩ : token = opening ∧ Token.Group.read opening closing 0 tokens = group := by
        simpa [Token.group?] using opened
      obtain ⟨after, read, behind⟩ := close_read token closing (front ++ [token]) [] 0 tokens
      refine ⟨after, ?_, behind⟩
      have first : Cursor.first? ⟨front ++ token :: tokens, front.length⟩ = some token := by
        simp [Cursor.first?]
      have step : Cursor.step ⟨front ++ token :: tokens, front.length⟩ =
          ⟨(front ++ [token]) ++ ([] ++ tokens), (front ++ [token]).length + ([] : List Token).length⟩ := by
        simp [Cursor.step]
      rw [Cursor.group, if_pos first, step]
      exact (congrArg (· >>= _) read).trans rfl

end Groups

def parenGroup (cursor : Cursor) : Checked (Option (List Token × Bool) × Cursor) :=
  cursor.group .leftParen .rightParen

def angleGroup (cursor : Cursor) : Checked (Option (List Token × Bool) × Cursor) :=
  cursor.group .less .greater

end Cursor

/-- The parts of tokens between commas outside brackets, as ranges: the next token is at a place, and
the part that it belongs to starts at another one. -/
def partsFrom (tokens : List Token) (depth : Int) (start place : Nat) :
    List Token → Checked (List (List Token))
  | [] => if start < tokens.length then do return [← slice tokens start tokens.length] else return []
  | token :: later =>
    if token = .comma && depth == 0 then do
      let part ← slice tokens start place
      return part :: (← partsFrom tokens depth (place + 1) (place + 1) later)
    else partsFrom tokens (depth + token.nesting) start (place + 1) later

def splitCommas (tokens : List Token) : Checked (List (List Token)) := do
  return (← partsFrom tokens 0 0 0 tokens).filter (!·.isEmpty)

theorem partsFrom_cut (front part later : List Token) (depth : Int) :
    ∃ parts, partsFrom (front ++ (part ++ later)) depth front.length (front.length + part.length)
        later = .ok parts ∧
      parts.filter (!·.isEmpty) =
        ((part ++ (Token.cutCommas depth later).1) :: (Token.cutCommas depth later).2).filter
          (!·.isEmpty) := by
  induction later generalizing front part depth with
  | nil =>
    rw [partsFrom, List.append_nil, slice_back]
    by_cases written : part = []
    · subst written
      exact ⟨[], by simp; rfl, by simp [Token.cutCommas]⟩
    · refine ⟨[part], ?_, by simp [Token.cutCommas]⟩
      rw [if_pos (by simpa using List.length_pos_iff.mpr written)]
      rfl
  | cons token later ih =>
    rw [partsFrom, Token.cutCommas]
    by_cases cuts : (token = .comma && depth == 0) = true
    · obtain ⟨parts, read, same⟩ := ih (front ++ (part ++ [token])) [] depth
      refine ⟨part :: parts, ?_, ?_⟩
      · rw [if_pos cuts, slice_append, ok_bind]
        simp only [List.append_assoc, List.singleton_append, List.nil_append, List.length_append,
          List.length_nil, List.length_singleton, Nat.add_zero, ← Nat.add_assoc] at read
        rw [read]
        rfl
      · have plain : token.nesting = 0 := by
          obtain ⟨rfl, -⟩ : token = .comma ∧ depth = 0 := by simpa using cuts
          rfl
        rw [if_pos cuts, List.filter_cons, same, plain, Int.add_zero]
        simp [List.filter_cons]
    · obtain ⟨parts, read, same⟩ := ih front (part ++ [token]) (depth + token.nesting)
      refine ⟨parts, ?_, ?_⟩
      · rw [if_neg cuts]
        simpa [Nat.add_assoc] using read
      · rw [same, if_neg cuts]
        simp

theorem splitCommas_eq (tokens : List Token) :
    splitCommas tokens = .ok (Token.splitCommas tokens) := by
  obtain ⟨parts, read, same⟩ := partsFrom_cut [] [] tokens 0
  rw [splitCommas]
  simp only [List.nil_append, List.length_nil, Nat.add_zero] at read same
  rw [read, ok_bind, same]
  rfl

/-- Macros at the cursor, in at most so many rounds: the first availability call among them. -/
def macroRun : Nat → Cursor → Checked (Option Text × Cursor)
  | 0, _ => .error .endless
  | rounds + 1, cursor => match cursor.first? with
    | some (.identifier name) =>
      if isMacroName name then do
        match ← cursor.step.parenGroup with
        | (some (inner, _), cursor) =>
          let (later, cursor) ← macroRun rounds cursor
          return ((Availability.ofCall? name inner).or later, cursor)
        | (none, cursor) => macroRun rounds cursor
      else return (none, cursor)
    | _ => return (none, cursor)

theorem macroRun_read (rounds : Nat) (cursor : Cursor) (tokens : List Token)
    (before : cursor.Before tokens) (enough : tokens.length < rounds) : ∃ after,
      macroRun rounds cursor = .ok ((HeaderBindings.macroRun tokens).availability, after) ∧
        after.Before (HeaderBindings.macroRun tokens).rest := by
  induction rounds generalizing cursor tokens with
  | zero => omega
  | succ rounds ih =>
    rw [macroRun]
    fun_cases HeaderBindings.macroRun tokens with
    | case1 name tokens isMacro group call later =>
      have first : cursor.first? = some (.identifier name) := before.first
      have shorter := Token.length_group _ _ _ _ call
      rw [List.length_cons] at enough
      obtain ⟨inside, read, behind⟩ := before.step.group_some call
      obtain ⟨after, others, ends⟩ := ih inside group.rest behind (by omega)
      refine ⟨after, ?_, ends⟩
      simp only [first, if_pos isMacro, Cursor.parenGroup, read, ok_bind, others]
      rfl
    | case2 name tokens isMacro call =>
      have first : cursor.first? = some (.identifier name) := before.first
      rw [List.length_cons] at enough
      obtain ⟨after, others, ends⟩ := ih cursor.step tokens before.step (by omega)
      refine ⟨after, ?_, ends⟩
      simp only [first, if_pos isMacro, Cursor.parenGroup, before.step.group_none call, ok_bind,
        others]
    | case3 name tokens other =>
      have first : cursor.first? = some (.identifier name) := before.first
      refine ⟨cursor, ?_, before⟩
      simp only [first, if_neg other]
      rfl
    | case4 tokens other =>
      refine ⟨cursor, ?_, before⟩
      split
      · next name first =>
        obtain ⟨later, rfl⟩ := before.of_first first
        exact absurd rfl (other name later)
      · rfl

end Checked

end HeaderBindings
