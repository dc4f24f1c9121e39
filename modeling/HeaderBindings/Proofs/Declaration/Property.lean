import HeaderBindings.Declaration.Property
import HeaderBindings.Proofs.Declaration.Macros
import HeaderBindings.Proofs.Declaration.Nullability
import HeaderBindings.Proofs.Token.Rendering
import Mathlib.Data.List.Induction

/-!
Property declarations as they are written, and what reading makes of them. Attributes are cut forwards,
macros are stripped backwards down to the name, and what stands before the name is the type.
-/

namespace HeaderBindings

open Property.Reader

section Written

/-- A property that is no block; the attribute list may be missing. -/
structure WrittenProperty where
  attributes? : Option (List (List Token))
  type : List Token
  name : Text
  macros : List WrittenMacro
  deriving DecidableEq, Repr

/-- The text of an availability call as it is written. -/
def WrittenMacro.callText? (written : WrittenMacro) : Option Text :=
  written.call?.bind fun _ =>
    if Availability.isFamily written.name then some (Availability.normalize (render written.tokens))
    else none

/-- The value of an attribute `key=value`. -/
def attributeOf? (key : Text) : List Token → Option Text
  | .identifier name :: .equals :: value => if name = key then some (render value) else none
  | _ => none

namespace WrittenProperty

def attributes (written : WrittenProperty) : List (List Token) := written.attributes?.getD []

def tokens (written : WrittenProperty) : List Token :=
  .directive "@property".toList ::
    ((written.attributes?.map fun entries => enclosed (Token.listed entries)).getD [] ++
      (written.type ++ .identifier written.name :: written.macros.flatMap WrittenMacro.tokens))

/-- The tokens of a declaration whose name and type are written as a body. -/
def tokensAround (written : WrittenProperty) (body : List Token) : List Token :=
  .directive "@property".toList ::
    ((written.attributes?.map fun entries => enclosed (Token.listed entries)).getD [] ++
      (body ++ written.macros.flatMap WrittenMacro.tokens))

theorem tokens_eq (written : WrittenProperty) :
    written.tokens = written.tokensAround (written.type ++ [.identifier written.name]) := by
  rw [tokensAround, List.append_assoc]
  rfl

def Has (written : WrittenProperty) (word : Text) : Prop :=
  [.identifier word] ∈ written.attributes

instance decidableHas (written : WrittenProperty) (word : Text) : Decidable (written.Has word) :=
  inferInstanceAs (Decidable ([.identifier word] ∈ written.attributes))

/-- What the type itself says: it is `id`, with protocols or without, or a pointer. -/
def IsObject (written : WrittenProperty) : Prop :=
  NativeType.HasOuterStar written.type ∨ (NativeType.ofTokens written.type).name = "id".toList ∨
    "id<".toList <+: (NativeType.ofTokens written.type).name

structure Sound (written : WrittenProperty) : Prop where
  attributes : ∀ entry ∈ written.attributes, Token.IsEntry entry
  typed : written.type ≠ []
  noBlock : .caret ∉ written.type
  bare : written.attributes? = none → written.type.head? ≠ some .leftParen
  name : isMacroName written.name = false
  macros : ∀ item ∈ written.macros, item.IsMacro
  endless : .semicolon ∉ written.tokens

/-- What a written property declares, where null is assumed to be ruled out or not. -/
structure Declares (written : WrittenProperty) (assumeNonnull : Bool) (property : Property) :
    Prop where
  name : property.name = written.name
  type : property.type = (NativeType.ofTokens written.type).name
  attributes : property.attributes = written.attributes.map render
  readonly : property.readonly = true ↔ written.Has "readonly".toList
  isClass : property.isClass = true ↔ written.Has "class".toList
  getter : property.getter = written.attributes.findSome? (attributeOf? "getter".toList)
  setter : property.setter = written.attributes.findSome? (attributeOf? "setter".toList)
  availability : property.availability = written.macros.findSome? WrittenMacro.callText?
  nullable : property.nullable = true ↔
    written.Has "nullable".toList ∨ written.Has "null_resettable".toList ∨
      NativeType.HasOuter NativeType.nullableMarkers written.type ∨
      written.IsObject ∧ ¬ NativeType.HasOuter NativeType.nonnullMarkers written.type ∧
        ¬ written.Has "nonnull".toList ∧ assumeNonnull = false
  undocumented : property.doc = []

end WrittenProperty

end Written

section Macros

theorem stripReversed_name (availability : Option Text) (name : Text) (before : List Token)
    (other : isMacroName name = false) :
    stripReversed availability (.identifier name :: before) =
      ⟨(.identifier name :: before).reverse, availability⟩ := by
  cases before with
  | nil => simp [stripReversed]
  | cons token before => simp [stripReversed, other]

-- A bare macro name is stripped if something stands before it.
theorem stripReversed_bare (availability : Option Text) (name : Text) (before : List Token)
    (isMacro : isMacroName name = true) (written : before ≠ []) :
    stripReversed availability (.identifier name :: before) = stripReversed availability before := by
  cases before with
  | nil => exact absurd rfl written
  | cons token before => rw [stripReversed, if_pos isMacro]

theorem stripReversed_call (availability : Option Text) (name : Text) (call before : List Token)
    (isMacro : isMacroName name = true) (nests : Token.Nests .leftParen .rightParen call) :
    stripReversed availability
        (.rightParen :: (call.reverse ++ .leftParen :: .identifier name :: before)) =
      stripReversed
        (if Availability.isFamily name then
          some (Availability.normalize (render (.identifier name :: enclosed call)))
        else availability) before := by
  have group := Token.group_nests (by decide) call.reverse (.identifier name :: before)
    (nests.reverse (by decide))
  rw [stripReversed]
  split
  · next inner own rest found =>
    rw [group] at found
    cases found
    rw [if_pos isMacro, List.reverse_reverse]
    rfl
  · next other => exact absurd group (other _ _ _)

theorem stripReversed_macro (availability : Option Text) (item : WrittenMacro) (before : List Token)
    (isMacro : item.IsMacro) (written : before ≠ []) :
    stripReversed availability (item.tokens.reverse ++ before) =
      stripReversed (item.callText?.or availability) before := by
  cases call : item.call? with
  | none =>
    have bare := stripReversed_bare availability item.name before isMacro.name written
    simpa [WrittenMacro.tokens, WrittenMacro.callText?, call] using bare
  | some tokens =>
    have called := stripReversed_call availability item.name tokens before isMacro.name
      (isMacro.call tokens call)
    have text : item.tokens.reverse ++ before =
        .rightParen :: (tokens.reverse ++ .leftParen :: .identifier item.name :: before) := by
      simp [WrittenMacro.tokens, call, enclosed]
    rw [text, called]
    by_cases family : Availability.isFamily item.name = true <;>
      simp [WrittenMacro.callText?, WrittenMacro.tokens, call, family]

/-- Stripping stops at the end of a body. -/
def Stops (body : List Token) : Prop :=
  ∀ availability, stripReversed availability body.reverse = ⟨body, availability⟩

theorem stops_name (type : List Token) (name : Text) (other : isMacroName name = false) :
    Stops (type ++ [.identifier name]) := by
  intro availability
  have stop := stripReversed_name availability name type.reverse other
  simpa using stop

/-- Macros are stripped down to the body, and the first availability call among them is the last one
that is met. -/
theorem stripMacros_written (body : List Token) (macros : List WrittenMacro) (written : body ≠ [])
    (stops : Stops body) (sound : ∀ item ∈ macros, item.IsMacro) :
    stripMacros (body ++ macros.flatMap WrittenMacro.tokens) =
      ⟨body, macros.findSome? WrittenMacro.callText?⟩ := by
  have strip (availability : Option Text) :
      stripReversed availability ((body ++ macros.flatMap WrittenMacro.tokens).reverse) =
        ⟨body, (macros.findSome? WrittenMacro.callText?).or availability⟩ := by
    -- By the macros from the last one on.
    induction macros using List.reverseRecOn generalizing availability with
    | nil => simpa using stops availability
    | append_singleton macros last ih =>
      have isMacro := sound last (by simp)
      have text : (body ++ (macros ++ [last]).flatMap WrittenMacro.tokens).reverse =
          last.tokens.reverse ++ (body ++ macros.flatMap WrittenMacro.tokens).reverse := by
        simp
      rw [text, stripReversed_macro availability last _ isMacro (by simp [written]),
        ih fun item member => sound item (List.mem_append_left _ member)]
      have first : [last].findSome? WrittenMacro.callText? = last.callText? := by
        cases call : last.callText? <;> simp [call]
      rw [List.findSome?_append, Option.or_assoc, first]
  have whole := strip none
  rw [Option.or_none] at whole
  exact whole

end Macros

section Names

theorem blockName_bare (tokens : List Token) (bare : NativeType.CaretsBare tokens) :
    blockName? tokens = none := by
  fun_induction blockName? tokens with
  | case1 => rfl
  | case2 name tokens => cases (List.isChain_cons_cons.mp bare).1 rfl
  | case3 => rfl
  | case4 token tokens other another ih =>
    rw [ih (List.isChain_cons.mp bare).2]
    rfl

theorem lastName_concat (type : List Token) (name : Text) :
    lastName? (type ++ [.identifier name]) = some (name, type) := by
  simp [lastName?, Token.name?]

theorem nameAndType_bare (type : List Token) (name : Text)
    (bare : NativeType.CaretsBare (type ++ [.identifier name])) :
    nameAndType? (type ++ [.identifier name]) = some (name, type) := by
  rw [nameAndType?, blockName_bare _ bare, Option.none_or, lastName_concat]

end Names

section Attributes

theorem attributeList_written (entries : List (List Token)) (rest : List Token)
    (sound : ∀ entry ∈ entries, Token.IsEntry entry) :
    attributeList (enclosed (Token.listed entries) ++ rest) = .ok (entries.map render, rest) := by
  have nests : Token.Nests .leftParen .rightParen (Token.listed entries) :=
    Token.nests_listed entries (by decide) (by decide) fun entry member => (sound entry member).parens
  rw [attributeList, nests_enclosed nests]
  simp [Token.splitCommas_listed entries sound]

theorem has_iff (entries : List (List Token)) (word : Text)
    (isWord : Token.Spells (.identifier word) word)
    (lexed : ∀ entry ∈ entries, ∀ token ∈ entry, token.Lexed) :
    (entries.map render).contains word = true ↔ [.identifier word] ∈ entries := by
  rw [List.contains_iff_mem, List.mem_map]
  constructor
  · rintro ⟨entry, member, written⟩
    have same := (Token.render_eq_name_iff isWord (lexed entry member)).mp written
    exact same ▸ member
  · intro member
    exact ⟨_, member, (Token.render_eq_name_iff isWord (lexed _ member)).mpr rfl⟩

-- The text before a sign of equality is the key only if the entry begins with the key and the sign.
theorem attributeOf_render (key : Text) (isWord : Token.Spells (.identifier key) key)
    (entry : List Token) (lexed : ∀ token ∈ entry, token.Lexed) :
    ((Text.cutAt? ['='] (render entry)).bind fun cut =>
      if cut.1.trim = key then some cut.2.trim else none) = attributeOf? key entry := by
  by_cases assigns : ∃ name value, entry = .identifier name :: .equals :: value
  · obtain ⟨name, value, rfl⟩ := assigns
    have spelled := (lexed (.identifier name) (by simp)).spelled
    have chars := Token.chars_of_name spelled
    have outside : '=' ∉ name := fun member => by
      have equality := chars '=' member
      cases equality
    have visible := Token.edges_of_visible name fun c member =>
      Token.visible_of_nameChar c (chars c member)
    have text : Text.trim (render value) = render value :=
      Token.trim_render fun token member => lexed token (by simp [member])
    rw [Token.render_assignment, Text.cutAt_lead _ name '=' [] outside]
    simp [Text.cutAt?, Text.after?, attributeOf?, Text.trim_of_visible name visible.1 visible.2, text]
  · have other : attributeOf? key entry = none := by
      unfold attributeOf?
      split
      · next name value => exact absurd ⟨name, value, rfl⟩ assigns
      · rfl
    rw [other, Option.bind_eq_none_iff]
    rintro ⟨front, value⟩ cut
    refine if_neg fun same => assigns ?_
    -- Nothing stands before the key, as the entry begins with a visible character.
    have whole := Text.eq_of_cutAt _ _ _ _ cut
    obtain ⟨lead, trail, parts, before, behind⟩ := Text.trim_parts front
    rw [same] at parts
    have none : lead = [] := by
      cases lead with
      | nil => rfl
      | cons c lead =>
        have seen := (Token.edges_render lexed).1 c (by rw [whole, parts]; rfl)
        simp [before c List.mem_cons_self] at seen
    have start : render entry = key ++ (trail ++ '=' :: value) := by
      simpa [parts, none] using whole
    obtain ⟨later, rfl⟩ := Token.assignment_of_render isWord behind lexed start
    exact ⟨key, later, rfl⟩

/-- An attribute has the value that stands behind its key and the sign of equality. -/
theorem attributeValue_render (entries : List (List Token)) (key : Text)
    (isWord : Token.Spells (.identifier key) key)
    (lexed : ∀ entry ∈ entries, ∀ token ∈ entry, token.Lexed) :
    attributeValue? (entries.map render) key = entries.findSome? (attributeOf? key) := by
  rw [attributeValue?, List.findSome?_map]
  induction entries with
  | nil => rfl
  | cons entry entries ih =>
    have later := ih fun other member => lexed other (List.mem_cons_of_mem entry member)
    have first := attributeOf_render key isWord entry (lexed entry List.mem_cons_self)
    simp only [List.findSome?_cons, Function.comp_apply, first, later]

end Attributes

section Properties

variable (written : WrittenProperty)

/-- The property that reading makes of a written one. -/
def WrittenProperty.property (assumeNonnull : Bool) : Property :=
  let attributes := written.attributes.map render
  let type := NativeType.ofTokens written.type
  { name := written.name
    type := type.name
    readonly := attributes.contains "readonly".toList
    nullable := mayBeNull assumeNonnull attributes type
    attributes := attributes
    isClass := attributes.contains "class".toList
    getter := attributeValue? attributes "getter".toList
    setter := attributeValue? attributes "setter".toList
    availability := written.macros.findSome? WrittenMacro.callText? }

/-- A body is read if stripping stops at its end and its name and type are found in it. -/
theorem property_around (body : List Token)
    (attributes : ∀ entry ∈ written.attributes, Token.IsEntry entry)
    (bare : written.attributes? = none → body.head? ≠ some .leftParen)
    (macros : ∀ item ∈ written.macros, item.IsMacro) (stops : Stops body)
    (found : nameAndType? body = some (written.name, written.type)) (typed : written.type ≠ [])
    (assumeNonnull : Bool) :
    Property.Reader.property assumeNonnull (written.tokensAround body) =
      .ok (written.property assumeNonnull) := by
  have present : body ≠ [] := by
    intro empty
    rw [empty] at found
    cases found
  have list : attributeList
      ((written.attributes?.map fun entries => enclosed (Token.listed entries)).getD [] ++
        (body ++ written.macros.flatMap WrittenMacro.tokens)) =
      .ok (written.attributes.map render, body ++ written.macros.flatMap WrittenMacro.tokens) := by
    cases own : written.attributes? with
    | some entries =>
      have same : written.attributes = entries := by simp [WrittenProperty.attributes, own]
      simpa [same] using attributeList_written entries _ (same ▸ attributes)
    | none =>
      -- What stands at the front is the body, which begins no attribute list.
      have first : (body ++ written.macros.flatMap WrittenMacro.tokens).head? ≠ some .leftParen := by
        rw [List.head?_append_of_ne_nil _ present]
        exact bare own
      simp [attributeList, parenGroup_none first, WrittenProperty.attributes, own]
  have stripped := stripMacros_written body written.macros present stops macros
  obtain ⟨first, later, type⟩ := List.exists_cons_of_ne_nil typed
  rw [WrittenProperty.tokensAround, property, if_pos rfl, afterDirective, list]
  simp only [bind, Except.bind, stripped, found]
  rw [type]
  simp [WrittenProperty.property, type, pure, Except.pure]

theorem property_written (sound : written.Sound) (assumeNonnull : Bool) :
    Property.Reader.property assumeNonnull written.tokens = .ok (written.property assumeNonnull) := by
  have carets : NativeType.CaretsBare (written.type ++ [.identifier written.name]) :=
    NativeType.caretsBare_of_free (by simpa using sound.noBlock)
  have bare (none : written.attributes? = none) :
      (written.type ++ [Token.identifier written.name]).head? ≠ some .leftParen := by
    rw [List.head?_append_of_ne_nil _ sound.typed]
    exact sound.bare none
  rw [written.tokens_eq]
  exact property_around written _ sound.attributes bare sound.macros (stops_name _ _ sound.name)
    (nameAndType_bare _ _ carets) sound.typed assumeNonnull

/-- The tokens of attributes stand among those of the declaration. -/
theorem WrittenProperty.mem_tokensAround {entry body : List Token} {token : Token}
    (member : entry ∈ written.attributes) (own : token ∈ entry) :
    token ∈ written.tokensAround body := by
  cases attributes : written.attributes? with
  | none => simp [WrittenProperty.attributes, attributes] at member
  | some entries =>
    have listed : token ∈ Token.listed entries :=
      Token.mem_listed (by simpa [WrittenProperty.attributes, attributes] using member) own
    simp [WrittenProperty.tokensAround, attributes, enclosed, listed]

theorem WrittenProperty.isObject_iff :
    (NativeType.ofTokens written.type).isObject = true ↔ written.IsObject := by
  simp only [NativeType.isObject, WrittenProperty.IsObject, Bool.or_eq_true, beq_iff_eq,
    NativeType.pointer_iff, Text.startsWith_iff, or_assoc]

/-- What reading makes of a written property is what it declares. -/
theorem WrittenProperty.declares_property
    (lexed : ∀ entry ∈ written.attributes, ∀ token ∈ entry, token.Lexed)
    (carets : NativeType.CaretsBare written.type) (assumeNonnull : Bool) :
    written.Declares assumeNonnull (written.property assumeNonnull) := by
  have has (word : Text) (isWord : Token.Spells (.identifier word) word) :
      (written.attributes.map render).contains word = true ↔ written.Has word :=
    has_iff written.attributes word isWord lexed
  have word (c : Char) (name : Text) (start : Token.isNameStart c = true)
      (chars : name.all Token.isNameChar = true) : Token.Spells (.identifier (c :: name)) (c :: name) :=
    .identifier start (List.all_eq_true.mp chars)
  have nullable : (written.property assumeNonnull).nullable = true ↔
      written.Has "nullable".toList ∨ written.Has "null_resettable".toList ∨
        NativeType.HasOuter NativeType.nullableMarkers written.type ∨
        written.IsObject ∧ ¬ NativeType.HasOuter NativeType.nonnullMarkers written.type ∧
          ¬ written.Has "nonnull".toList ∧ assumeNonnull = false := by
    rw [← NativeType.nullable_iff _ carets, ← NativeType.nonnull_iff _ carets, ← written.isObject_iff,
      ← has "nullable".toList (word _ _ rfl rfl), ← has "null_resettable".toList (word _ _ rfl rfl),
      ← has "nonnull".toList (word _ _ rfl rfl)]
    simp only [WrittenProperty.property, mayBeNull, Bool.or_eq_true, Bool.and_eq_true,
      Bool.not_eq_true', Bool.not_eq_true, or_assoc, and_assoc]
  exact
    { name := rfl
      type := rfl
      attributes := rfl
      readonly := has _ (word _ _ rfl rfl)
      isClass := has _ (word _ _ rfl rfl)
      getter := attributeValue_render _ _ (word _ _ rfl rfl) lexed
      setter := attributeValue_render _ _ (word _ _ rfl rfl) lexed
      availability := rfl
      nullable := nullable
      undocumented := rfl }

/-- A written property is read from every text of its tokens with a semicolon behind them. -/
theorem parse_declares (sound : written.Sound) (assumeNonnull : Bool) (declaration : Text)
    (lexed : lex declaration = written.tokens ++ [.semicolon]) :
    ∃ property, Property.parse assumeNonnull declaration = .ok property ∧
      written.Declares assumeNonnull property := by
  have inner : untilSemicolon (lex declaration) = written.tokens := by
    have before : ∀ token ∈ written.tokens, (token != .semicolon) = true := by
      intro token member
      simpa using fun same : token = .semicolon => sound.endless (same ▸ member)
    rw [lexed, untilSemicolon, List.takeWhile_append_of_pos before]
    simp
  have known : ∀ entry ∈ written.attributes, ∀ token ∈ entry, token.Lexed :=
    fun entry member token own => Token.lexed_of_mem declaration token
      (lexed ▸ List.mem_append_left _ (written.tokens_eq ▸ written.mem_tokensAround member own))
  refine ⟨written.property assumeNonnull, ?_,
    written.declares_property known (NativeType.caretsBare_of_free sound.noBlock) assumeNonnull⟩
  rw [Property.parse, inner, property_written written sound]
  rfl

def writtenTitles : WrittenProperty where
  attributes? := some
    [[.identifier "getter".toList, .equals, .identifier "shown".toList],
     [.identifier "tagged".toList, .leftParen, .identifier "a".toList, .comma,
      .identifier "b".toList, .rightParen]]
  type := [.identifier "NSArray".toList, .less, .identifier "id".toList, .greater, .star]
  name := "titles".toList
  macros :=
    [⟨"NS_X".toList, none⟩,
     ⟨"API_AVAILABLE".toList, some [.identifier "macos".toList, .leftParen, .number "12".toList,
       .rightParen]⟩]

theorem titles_sound : writtenTitles.Sound where
  attributes := by decide
  typed := by decide
  noBlock := by decide
  bare := by decide
  name := by decide
  macros := by
    intro item member
    simp only [writtenTitles, List.mem_cons, List.not_mem_nil, or_false] at member
    rcases member with rfl | rfl
    · exact ⟨by decide, by simp⟩
    · exact ⟨by decide, by simpa using by decide⟩
  endless := by decide

theorem parse_declares_titles :
    let declaration :=
      "@property (getter=shown, tagged(a, b)) NSArray<id> *titles NS_X API_AVAILABLE(macos(12));".toList
    writtenTitles.Sound ∧ lex declaration = writtenTitles.tokens ++ [.semicolon] ∧
      ∃ property, Property.parse false declaration = .ok property ∧
        writtenTitles.Declares false property := by
  intro declaration
  have lexed : lex declaration = writtenTitles.tokens ++ [.semicolon] := by decide +kernel
  exact ⟨titles_sound, lexed, parse_declares writtenTitles titles_sound false declaration lexed⟩

end Properties

end HeaderBindings
