import HeaderBindings.Proofs.Declaration.Body

/-!
Properties whose types are blocks or take blocks for arguments, with their names where they belong. The
name is looked for behind the first caret, whatever that caret belongs to, so that a word about null
behind it, or the name of another block, is taken for it. What is read then is told from what is declared
by the characters of the type that its canonical form always keeps.
-/

namespace HeaderBindings

open Property.Reader

section Ink

/-- A text without blanks and stars. -/
def Text.ink (text : Text) : Text := text.filter fun c => !isBlank c && c != '*'

/-- What is left of a type in canonical form without blanks and stars. -/
def inkOf (tokens : List Token) : Text :=
  (NativeType.unqualified tokens).flatMap fun token => token.text.ink

theorem Text.ink_append (left right : Text) : (left ++ right).ink = left.ink ++ right.ink :=
  List.filter_append ..

theorem inkOf_append (left right : List Token) : inkOf (left ++ right) = inkOf left ++ inkOf right := by
  simp [inkOf, NativeType.unqualified]

theorem inkOf_cons (token : Token) (tokens : List Token) :
    inkOf (token :: tokens) = inkOf [token] ++ inkOf tokens :=
  inkOf_append [token] tokens

theorem ink_renderAfter (before? : Option Token) (tokens : List Token) :
    (Token.renderAfter before? tokens).ink = tokens.flatMap fun token => token.text.ink := by
  induction tokens generalizing before? with
  | nil => rfl
  | cons token tokens ih =>
    have gap (spaced : Bool) : Text.ink (if spaced then [' '] else []) = [] := by
      cases spaced <;> decide
    cases before? with
    | none => simp [Token.renderAfter, Text.ink_append, ih]
    | some before => simp [Token.renderAfter, Text.ink_append, ih, gap]

-- Dropped words are no ink of a type, and the stars that are left out are none either.
theorem ink_keep (last? : Option Token) (parenDepth angleDepth : Int) (before? : Option Token)
    (tokens : List Token) :
    ((NativeType.keep last? (NativeType.place parenDepth angleDepth before? tokens)).flatMap
      fun token => token.text.ink) = inkOf tokens := by
  induction tokens generalizing last? parenDepth angleDepth before? with
  | nil => rfl
  | cons token tokens ih =>
    rw [NativeType.place, NativeType.keep, inkOf_cons]
    split
    · next dropped =>
      have none : inkOf [token] = [] := by
        simp [inkOf, NativeType.unqualified, NativeType.isDroppedWord, dropped]
      rw [none, ih]
      rfl
    · next stays =>
      have own : inkOf [token] = token.text.ink := by
        simp [inkOf, NativeType.unqualified, NativeType.isDroppedWord, stays]
      split
      · next star =>
        have isStar : token = .star := by
          simp only [NativeType.isPointerStar, Bool.and_eq_true, beq_iff_eq] at star
          exact star.1.1
        rw [own, isStar, ih]
        rfl
      · rw [List.flatMap_cons, ih, own]

theorem caret_mem_inkOf {tokens : List Token} (caret : .caret ∈ tokens) : '^' ∈ inkOf tokens := by
  have stays : .caret ∈ NativeType.unqualified tokens := List.mem_filter.mpr ⟨caret, rfl⟩
  exact List.mem_flatMap.mpr ⟨.caret, stays, by decide⟩

/-- The canonical form of a block has the ink of its tokens. -/
theorem ink_name {tokens : List Token} (caret : .caret ∈ tokens) :
    (NativeType.ofTokens tokens).name.ink = inkOf tokens := by
  have whole : (render (NativeType.keep none (NativeType.place 0 0 none tokens))).ink = inkOf tokens :=
    (ink_renderAfter none _).trans (ink_keep none 0 0 none tokens)
  have written : (render (NativeType.keep none (NativeType.place 0 0 none tokens))).isEmpty = false := by
    refine List.isEmpty_eq_false_iff.mpr fun empty => ?_
    have member := caret_mem_inkOf caret
    rw [← whole, empty] at member
    cases member
  simp only [NativeType.ofTokens, written, Bool.false_eq_true, if_false, whole]

/-- Types in canonical form are told apart by their ink. -/
theorem name_ne_of_ink {left right : List Token} (caret : .caret ∈ left) (caret' : .caret ∈ right)
    (other : inkOf left ≠ inkOf right) :
    (NativeType.ofTokens left).name ≠ (NativeType.ofTokens right).name := fun same =>
  other (by rw [← ink_name caret, ← ink_name caret', same])

theorem inkOf_identifier {name : Text} (spelled : Token.Spells (.identifier name) name)
    (plain : NativeType.isDropped name = false) : inkOf [.identifier name] = name := by
  have chars : name.ink = name := by
    refine List.filter_eq_self.mpr fun c member => ?_
    have own := Token.chars_of_name spelled c member
    have apart : c ≠ '*' := fun star => by
      rw [star] at own
      cases own
    simp [Token.visible_of_nameChar c own, apart]
  simp [inkOf, NativeType.unqualified, NativeType.isDroppedWord, Token.name?, Token.text, plain, chars]

-- The first character that is no part of a name tells how far a name has moved.
theorem name_append_ne {name text : Text} (chars : ∀ c ∈ name, Token.isNameChar c = true)
    (written : name ≠ []) {c : Char} (member : c ∈ text) (other : Token.isNameChar c = false) :
    name ++ text ≠ text ++ name := by
  intro same
  have fronts := congrArg (fun whole => (whole.takeWhile Token.isNameChar).length) same
  have short : (text.takeWhile Token.isNameChar).length ≠ text.length := by
    intro whole
    have all := (List.takeWhile_prefix Token.isNameChar).eq_of_length whole
    have inside := List.mem_takeWhile_imp (all ▸ member)
    rw [other] at inside
    cases inside
  simp only [List.takeWhile_append_of_pos chars, List.takeWhile_append, short, if_false,
    List.length_append] at fronts
  exact written (List.length_eq_zero_iff.mp (by omega))

end Ink

section Places

/-- Where the name of a property stands: behind a type with type arguments, or in the group of a block
behind the caret and words about it. -/
inductive NamePlace where
  | behind (front args rest : List Token)
  | inside (result : List Token) (marks : List Text) (params : List Token)
  deriving DecidableEq, Repr

namespace NamePlace

/-- The tokens before the name. -/
def before : NamePlace → List Token
  | behind front args rest => front ++ .less :: (args ++ .greater :: rest)
  | inside result marks _ => result ++ .leftParen :: .caret :: marks.map Token.identifier

/-- The tokens behind the name. -/
def after : NamePlace → List Token
  | behind .. => []
  | inside _ _ params => .rightParen :: enclosed params

def type (place : NamePlace) : List Token := place.before ++ place.after

def body (place : NamePlace) (name : Text) : List Token :=
  place.before ++ .identifier name :: place.after

/-- Type arguments with a block among them, or a block with words about null and qualifiers. -/
def Sound : NamePlace → Prop
  | behind _ args _ => .caret ∈ args
  | inside _ marks params =>
    (∀ mark ∈ marks, NativeType.isDropped mark = true) ∧ Token.Nests .leftParen .rightParen params

/-- The first caret does not mislead: before a name that stands behind a type it has no identifier behind
it, and in a block it is the block's own, with the name right behind it. -/
def Legible : NamePlace → Prop
  | behind front args rest => FirstCaretBare (front ++ .less :: (args ++ .greater :: rest))
  | inside result marks _ => .caret ∉ result ∧ marks = []

theorem caret_mem_type {place : NamePlace} (sound : place.Sound) : .caret ∈ place.type := by
  cases place with
  | behind front args rest =>
    have inside : .caret ∈ args := sound
    simp [type, before, after, inside]
  | inside => simp [type, before, after]

end NamePlace

-- A name that is taken away from a place before its own leaves another type.
theorem moved_name_ne {name : Text} (spelled : Token.Spells (.identifier name) name)
    (plain : NativeType.isDropped name = false) (front middle after : List Token) {mark : Token}
    (member : mark ∈ middle) (bracket : mark = .leftParen ∨ mark = .greater) :
    (NativeType.ofTokens (front ++ .caret :: (middle ++ .identifier name :: after))).name ≠
      (NativeType.ofTokens (front ++ .caret :: .identifier name :: (middle ++ after))).name := by
  refine name_ne_of_ink (by simp) (by simp) fun same => ?_
  obtain ⟨c, member, other⟩ : ∃ c ∈ inkOf middle, Token.isNameChar c = false := by
    rcases bracket with rfl | rfl
    · exact ⟨'(', List.mem_flatMap.mpr ⟨_, List.mem_filter.mpr ⟨member, rfl⟩, by decide⟩, by decide⟩
    · exact ⟨'>', List.mem_flatMap.mpr ⟨_, List.mem_filter.mpr ⟨member, rfl⟩, by decide⟩, by decide⟩
  refine name_append_ne (Token.chars_of_name spelled) (Token.name_ne_nil spelled) member other ?_
  have left : front ++ .caret :: (middle ++ .identifier name :: after) =
      front ++ [.caret] ++ (middle ++ [.identifier name] ++ after) := by simp
  have right : front ++ .caret :: .identifier name :: (middle ++ after) =
      front ++ [.caret] ++ ([.identifier name] ++ middle ++ after) := by simp
  rw [left, right, inkOf_append, inkOf_append _ (_ ++ after), List.append_cancel_left_eq,
    inkOf_append _ after, inkOf_append _ after, List.append_cancel_right_eq, inkOf_append, inkOf_append,
    inkOf_identifier spelled plain] at same
  exact same.symm

theorem count_name {name : Text} (spelled : Token.Spells (.identifier name) name) {c : Char}
    (other : Token.isNameChar c = false) : (inkOf [.identifier name]).count c = 0 := by
  refine List.count_eq_zero.mpr fun member => ?_
  obtain ⟨token, stays, char⟩ := List.mem_flatMap.mp member
  have here := List.mem_of_mem_filter stays
  rw [List.mem_singleton.mp here] at char
  have own := Token.chars_of_name spelled c (List.mem_of_mem_filter char)
  rw [other] at own
  cases own

section Cuts

variable {name word : Text} {before after type later : List Token}
  (cut : before ++ .identifier name :: after = type ++ .identifier word :: later)

include cut

-- Behind the last identifier there is none, so that it does not stand before another one.
theorem caret_mem_cut (caret : .caret ∈ before) (bare : ∀ token ∈ later, token.name? = none) :
    .caret ∈ type := by
  rcases List.append_eq_append_iff.mp cut with ⟨more, whole, _⟩ | ⟨more, whole, tail⟩
  · simp [whole, caret]
  · cases more with
    | nil => simpa [whole] using caret
    | cons token more =>
      cases tail
      exact absurd (bare (.identifier name) (by simp)) (by simp [Token.name?])

/-- A type that is cut off at an identifier in front of a closing parenthesis is another one. -/
theorem cut_name_ne (spelled : Token.Spells (.identifier name) name) (caret : .caret ∈ before)
    (inside : .caret ∈ type) (closed : after.getLast? = some .rightParen) :
    (NativeType.ofTokens type).name ≠ (NativeType.ofTokens (before ++ after)).name := by
  refine name_ne_of_ink inside (List.mem_append_left _ caret) fun same => ?_
  have last : later.getLast? = some .rightParen := by
    have ends := congrArg List.getLast? cut
    rw [List.getLast?_append, List.getLast?_append, List.getLast?_cons, closed] at ends
    cases later with
    | nil => simp at ends
    | cons token later => simpa [List.getLast?_cons] using ends.symm
  have close : 1 ≤ (inkOf later).count ')' :=
    List.one_le_count_iff.mpr (List.mem_flatMap.mpr
      ⟨.rightParen, List.mem_filter.mpr ⟨List.mem_of_getLast? last, rfl⟩, by decide⟩)
  -- Parentheses are closed more often in the declared type, which is all tokens but the name.
  have counts := congrArg (fun tokens => (inkOf tokens).count ')') cut
  have closes := congrArg (List.count ')') same
  simp only [inkOf_append, List.count_append] at closes counts
  rw [inkOf_cons (.identifier name), inkOf_cons (.identifier word)] at counts
  simp only [List.count_append, count_name spelled (show Token.isNameChar ')' = false from rfl)] at counts
  omega

end Cuts

namespace NamePlace

variable {place : NamePlace} {name : Text}

theorem stops (sound : place.Sound) (other : isMacroName name = false) : Stops (place.body name) := by
  cases place with
  | behind front args rest => exact stops_name _ _ other
  | inside result marks params =>
    have stop := stops_block
      (result ++ .leftParen :: .caret :: (marks.map Token.identifier ++ [.identifier name])) params sound.2
    simpa [body, before, after] using stop

theorem first_behind (front args rest tail : List Token) (caret : .caret ∈ args) :
    blockName? (front ++ .less :: (args ++ .greater :: rest) ++ tail) =
      (blockName? (front ++ .less :: args)).map fun found =>
        (found.1, found.2 ++ .greater :: (rest ++ tail)) := by
  have inside : .caret ∈ front ++ .less :: args := by simp [caret]
  simpa using blockName_append (front ++ .less :: args) (rest ++ tail) .greater inside rfl

/-- A legible name is found where it stands. -/
theorem found (legible : place.Legible) (sound : place.Sound) :
    nameAndType? (place.body name) = some (name, place.type) := by
  cases place with
  | behind front args rest =>
    have none := (blockName_none_iff _).mpr legible
    have alone := first_behind front args rest [] sound
    have named := first_behind front args rest [.identifier name] sound
    rw [List.append_nil, none, eq_comm, Option.map_eq_none_iff] at alone
    rw [alone, Option.map_none] at named
    rw [nameAndType?, body, before, after, named, Option.none_or, lastName_concat]
    simp [type, before, after]
  | inside result marks params =>
    obtain ⟨first, rfl⟩ := legible
    have block := blockName_block result (.rightParen :: enclosed params) name first
    simp [nameAndType?, body, type, before, after, block]

/-- Another name is found, or the name with another type. -/
def Mistakes (place : NamePlace) (name : Text) : Prop :=
  ∃ word type, nameAndType? (place.body name) = some (word, type) ∧ .caret ∈ type ∧
    ¬ (word = name ∧
      (NativeType.ofTokens type).name = (NativeType.ofTokens place.type).name)

-- The name of a block in the type is taken, be it the same one.
theorem mistakes_crowded (spelled : Token.Spells (.identifier name) name)
    (plain : NativeType.isDropped name = false) (left right : List Token) (mark : Token)
    (split : place.before = left ++ mark :: right) (bracket : mark = .leftParen ∨ mark = .greater)
    (caret : .caret ∈ left) (taken : blockName? left ≠ none) : place.Mistakes name := by
  obtain ⟨⟨word, type⟩, here⟩ := Option.ne_none_iff_exists'.mp taken
  obtain ⟨front, later, -, rfl, rfl⟩ := blockName_some here
  have other : mark.name? = none := by rcases bracket with rfl | rfl <;> rfl
  have first := blockName_append _ (right ++ .identifier name :: place.after) mark caret other
  rw [here, Option.map_some] at first
  have found : nameAndType? (place.body name) = some (word,
      front ++ .caret :: (later ++ mark :: right ++ .identifier name :: place.after)) := by
    rw [nameAndType?, body, split]
    simp only [List.append_assoc, List.cons_append] at first ⊢
    rw [first]
    rfl
  refine ⟨word, _, found, by simp, ?_⟩
  rintro ⟨rfl, same⟩
  refine moved_name_ne spelled plain front (later ++ mark :: right) place.after (by simp) bracket ?_
  rw [same, type, split]
  simp

-- A word about null behind the caret is taken for the name.
theorem mistakes_marked (plain : NativeType.isDropped name = false) {result params : List Token}
    {mark : Text} {marks : List Text} (dropped : NativeType.isDropped mark = true)
    (first : .caret ∉ result) : (inside result (mark :: marks) params).Mistakes name := by
  have block := blockName_block result
    (marks.map Token.identifier ++ .identifier name :: .rightParen :: enclosed params) mark first
  have found : nameAndType? ((inside result (mark :: marks) params).body name) = some (mark,
      result ++ .leftParen :: .caret ::
        (marks.map Token.identifier ++ .identifier name :: .rightParen :: enclosed params)) := by
    simp [nameAndType?, body, before, after, block]
  refine ⟨mark, _, found, by simp, ?_⟩
  rintro ⟨rfl, _⟩
  rw [plain] at dropped
  cases dropped

-- Behind a block without a name in what a block gives, the last identifier is taken for the name.
theorem mistakes_unnamed (spelled : Token.Spells (.identifier name) name) {result params : List Token}
    {marks : List Text} (caret : .caret ∈ result) (none : blockName? result = none) :
    (inside result marks params).Mistakes name := by
  have first := blockName_append result
    (.caret :: (marks.map Token.identifier ++ .identifier name :: .rightParen :: enclosed params))
    .leftParen caret rfl
  rw [none, Option.map_none] at first
  have whole : (inside result marks params).body name = result ++ .leftParen :: .caret ::
      (marks.map Token.identifier ++ .identifier name :: .rightParen :: enclosed params) := by
    simp [body, before, after]
  have member : .identifier name ∈ (inside result marks params).body name := by simp [body]
  obtain ⟨⟨word, type⟩, last⟩ := lastName_isSome member
  obtain ⟨later, cut, bare⟩ := lastName_some last
  have closed : (inside result marks params).after.getLast? = some .rightParen := by
    simp [after, enclosed, List.getLast?_cons]
  have front : .caret ∈ (inside result marks params).before := by simp [before]
  have kept := caret_mem_cut cut front bare
  refine ⟨word, type, ?_, kept, fun same => cut_name_ne cut spelled front kept closed same.2⟩
  rw [nameAndType?, whole, first, Option.none_or, ← whole, last]

/-- A name that is not legible is mistaken. -/
theorem mistakes (sound : place.Sound) (spelled : Token.Spells (.identifier name) name)
    (plain : NativeType.isDropped name = false) (illegible : ¬ place.Legible) :
    place.Mistakes name := by
  cases place with
  | behind front args rest =>
    have alone := first_behind front args rest [] sound
    refine mistakes_crowded spelled plain (front ++ .less :: args) rest .greater (by simp [before])
      (Or.inr rfl) (by simp [show Token.caret ∈ args from sound]) ?_
    intro none
    rw [none, List.append_nil] at alone
    exact illegible ((blockName_none_iff _).mp alone)
  | inside result marks params =>
    by_cases caret : .caret ∈ result
    · by_cases none : blockName? result = none
      · exact mistakes_unnamed spelled caret none
      · exact mistakes_crowded spelled plain result _ _ rfl (Or.inl rfl) caret none
    · cases marks with
      | nil => exact absurd ⟨caret, rfl⟩ illegible
      | cons mark marks => exact mistakes_marked plain (sound.1 mark List.mem_cons_self) caret

end NamePlace

end Places

section Blocks

/-- A property whose type is a block or takes blocks for arguments; the attribute list may be missing. -/
structure WrittenBlock where
  attributes? : Option (List (List Token))
  place : NamePlace
  name : Text
  macros : List WrittenMacro
  deriving DecidableEq, Repr

namespace WrittenBlock

variable (written : WrittenBlock)

/-- The name with the type from which it is taken away. -/
def declared : WrittenProperty where
  attributes? := written.attributes?
  type := written.place.type
  name := written.name
  macros := written.macros

def tokens : List Token := written.declared.tokensAround (written.place.body written.name)

structure Sound : Prop where
  attributes : ∀ entry ∈ written.declared.attributes, Token.IsEntry entry
  bare : written.attributes? = none → (written.place.body written.name).head? ≠ some .leftParen
  place : written.place.Sound
  name : isMacroName written.name = false
  plain : NativeType.isDropped written.name = false
  macros : ∀ item ∈ written.macros, item.IsMacro
  endless : .semicolon ∉ written.tokens

theorem spelled {declaration : Text} {ending : List Token}
    (lexed : lex declaration = written.tokens ++ ending) :
    Token.Spells (.identifier written.name) written.name := by
  have member : .identifier written.name ∈ lex declaration := by
    simp [lexed, tokens, WrittenProperty.tokensAround, NamePlace.body]
  exact (Token.lexed_of_mem declaration _ member).spelled

/-- Whatever name and type are found, the rest of the property is read as it is written. -/
theorem parse_found {declaration : Text} {ending : List Token} (sound : written.Sound)
    (ends : ending = [] ∨ ending = [.semicolon])
    (lexed : lex declaration = written.tokens ++ ending) {word : Text} {type : List Token}
    (found : nameAndType? (written.place.body written.name) = some (word, type)) (typed : type ≠ [])
    (assumeNonnull : Bool) :
    Property.parse assumeNonnull declaration =
      .ok ({ written.declared with name := word, type := type }.property assumeNonnull) := by
  have read := property_around { written.declared with name := word, type := type }
    (written.place.body written.name) sound.attributes sound.bare sound.macros
    (written.place.stops sound.place sound.name) found typed assumeNonnull
  rw [Property.parse, lexed, untilSemicolon_ending _ ending sound.endless ends]
  exact congrArg (Except.mapError _) read

end WrittenBlock

/-- A property with a block in its type is always read, and as it is declared where its name is legible;
the name is the declared one, with the type that is left without it, if and only if it is legible. -/
theorem parse_block_property (written : WrittenBlock) (sound : written.Sound) (assumeNonnull : Bool)
    (ending : List Token) (ends : ending = [] ∨ ending = [.semicolon]) (declaration : Text)
    (lexed : lex declaration = written.tokens ++ ending) :
    ∃ property, Property.parse assumeNonnull declaration = .ok property ∧
      (written.place.Legible → property = written.declared.property assumeNonnull) ∧
      (property.name = written.name ∧
          property.type = (NativeType.ofTokens written.place.type).name ↔ written.place.Legible) := by
  by_cases legible : written.place.Legible
  · have typed := List.ne_nil_of_mem (NamePlace.caret_mem_type sound.place)
    have read := written.parse_found sound ends lexed (NamePlace.found legible sound.place) typed
      assumeNonnull
    exact ⟨_, read, fun _ => rfl, fun _ => legible, fun _ => ⟨rfl, rfl⟩⟩
  · obtain ⟨word, type, found, caret, wrong⟩ :=
      NamePlace.mistakes sound.place (written.spelled lexed) sound.plain legible
    have read := written.parse_found sound ends lexed found (List.ne_nil_of_mem caret) assumeNonnull
    exact ⟨_, read, fun right => absurd right legible, fun right => absurd right wrong,
      fun right => absurd right legible⟩

/-- Blocks as type arguments. -/
def writtenHandlers : WrittenBlock where
  attributes? := some [[.identifier "copy".toList]]
  place := .behind [.identifier "NSArray".toList]
    [.identifier "void".toList, .leftParen, .caret, .rightParen, .leftParen,
     .identifier "BOOL".toList, .rightParen] [.star]
  name := "handlers".toList
  macros := []

theorem handlers_sound : writtenHandlers.Sound where
  attributes := by decide
  bare := by decide
  place := by simp [writtenHandlers, NamePlace.Sound]
  name := by decide
  plain := by decide
  macros := nofun
  endless := by decide

theorem parse_block_property_handlers :
    let declaration := "@property (copy) NSArray<void (^)(BOOL)> *handlers;".toList
    writtenHandlers.Sound ∧ lex declaration = writtenHandlers.tokens ++ [.semicolon] ∧
      ∃ property, Property.parse true declaration = .ok property ∧
        (writtenHandlers.place.Legible → property = writtenHandlers.declared.property true) ∧
        (property.name = writtenHandlers.name ∧
          property.type = (NativeType.ofTokens writtenHandlers.place.type).name ↔
            writtenHandlers.place.Legible) := by
  intro declaration
  have lexed : lex declaration = writtenHandlers.tokens ++ [.semicolon] := by decide +kernel
  exact ⟨handlers_sound, lexed, parse_block_property writtenHandlers handlers_sound true [.semicolon] (Or.inr rfl)
    declaration lexed⟩

/-- A block that may be null. -/
def markedHandler : WrittenBlock where
  attributes? := some [[.identifier "copy".toList]]
  place := .inside [.identifier "void".toList] ["_Nullable".toList]
    [.identifier "BOOL".toList, .identifier "finished".toList]
  name := "handler".toList
  macros := []

/-- The word about null behind a block's caret is taken for the name. -/
theorem marked_block_misnamed :
    ¬ ∀ (written : WrittenBlock) (assumeNonnull : Bool) (declaration : Text), written.Sound →
      lex declaration = written.tokens ++ [.semicolon] →
        ∃ property, Property.parse assumeNonnull declaration = .ok property ∧
          property.name = written.name ∧
          property.type = (NativeType.ofTokens written.place.type).name := by
  intro kept
  have sound : markedHandler.Sound :=
    { attributes := by decide
      bare := by decide
      place := ⟨by decide, by decide⟩
      name := by decide
      plain := by decide
      macros := nofun
      endless := by decide }
  obtain ⟨property, read, name, _⟩ := kept markedHandler false
    "@property (copy) void (^ _Nullable handler)(BOOL finished);".toList sound (by decide +kernel)
  have misnamed : (Property.parse false
      "@property (copy) void (^ _Nullable handler)(BOOL finished);".toList).toOption.map (·.name) =
        some "_Nullable".toList := by decide +kernel
  rw [read] at misnamed
  have same : property.name = "_Nullable".toList := Option.some.inj misnamed
  rw [name] at same
  exact absurd same (by decide)

end Blocks

end HeaderBindings
