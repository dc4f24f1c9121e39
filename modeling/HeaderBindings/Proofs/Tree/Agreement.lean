import HeaderBindings.Proofs.Declaration.Body
import HeaderBindings.Tree.Declarations

/-!
Two readers of one declaration. A member that is read from its text and one that is read from its node
in a syntax tree agree if the tree reports the declaration: its names and selector, its types up to words
about null and qualifiers, the attributes that are written, and the nullability that an annotation gives.
-/

namespace HeaderBindings

section Types

namespace NativeType

/-- The words that annotate a type as nullable. -/
def nullableWords : List Text := ["nullable".toList, "_Nullable".toList, "__nullable".toList]

/-- The words that leave open whether a type has null. -/
def unsettledWords : List Text :=
  ["null_unspecified".toList, "_Null_unspecified".toList, "__null_unspecified".toList,
   "_Nullable_result".toList]

/-- No word that only attributes take stands in the type. -/
def Settable (type : List Token) : Prop := .identifier "null_resettable".toList ∉ type

instance decidableSettable (type : List Token) : Decidable (Settable type) :=
  inferInstanceAs (Decidable (.identifier "null_resettable".toList ∉ type))

theorem hasOuter_nullableMarkers (type : List Token) (settable : Settable type) :
    HasOuter nullableMarkers type ↔ HasOuter nullableWords type := by
  have words (name : Text) : name ∈ nullableMarkers ↔ name ∈ nullableWords ∨ name = "null_resettable".toList := by
    simp [nullableMarkers, nullableWords, or_assoc]
  constructor
  · rintro ⟨front, name, later, rfl, known, outside⟩
    rcases (words name).mp known with word | rfl
    · exact ⟨front, name, later, rfl, word, outside⟩
    · exact absurd (by simp) settable
  · rintro ⟨front, name, later, rfl, known, outside⟩
    exact ⟨front, name, later, rfl, (words name).mpr (.inl known), outside⟩

end NativeType

/-- A tree reports a type that is annotated as nullable, as nonnull or not at all. The spelling differs
from the declaration in words about null and qualifiers only, and has no annotation that is not
reported. -/
structure SpelledType.Reports (type : SpelledType) (tokens : List Token) (marksNull marksNonnull : Prop) :
    Prop where
  tokens : NativeType.unqualified (lex type.spelling) = NativeType.unqualified tokens
  nullable : marksNull → type.nullability = .nullable
  nonnull : marksNonnull → type.nullability = .nonnull
  bare : ¬ marksNull → ¬ marksNonnull → type.nullability ≠ .nullable
  spelling : type.nullability = .unspecified →
    type.native.nullable = false ∧ type.native.nonnull = false

namespace SpelledType.Reports

variable {type : SpelledType} {tokens : List Token} {marksNull marksNonnull : Prop}

theorem native (reports : type.Reports tokens marksNull marksNonnull) :
    type.native.name = (NativeType.ofTokens tokens).name ∧
      type.native.isObject = (NativeType.ofTokens tokens).isObject :=
  NativeType.alike_of_unqualified reports.tokens

theorem isNullable_iff (reports : type.Reports tokens marksNull marksNonnull) :
    type.isNullable = true ↔ marksNull := by
  constructor
  · intro null
    by_contra other
    cases reported : type.nullability with
    | nullable =>
      have ruled : ¬ marksNonnull := fun marked => by simp [reports.nonnull marked] at reported
      exact reports.bare other ruled reported
    | nonnull => simp [isNullable, reported] at null
    | unspecified => simp [isNullable, reported, (reports.spelling reported).1] at null
  · intro null
    simp [isNullable, reports.nullable null]

theorem isBareObject_iff (reports : type.Reports tokens marksNull marksNonnull) :
    type.isBareObject = true ↔
      type.nullability = .unspecified ∧ (NativeType.ofTokens tokens).isObject = true := by
  rw [← reports.native.2]
  simp only [isBareObject, Bool.and_eq_true, beq_iff_eq, Bool.not_eq_true']
  exact ⟨fun both => both.1, fun both => ⟨both, (reports.spelling both.1).2⟩⟩

end SpelledType.Reports

end Types

section Methods

/-- What both readers say of a parameter. -/
def Parameter.outline (param : Parameter) : Text × Text × Bool :=
  (param.name, param.type, param.nullable)

/-- What both readers say of a method. -/
structure Method.Agrees (left right : Method) : Prop where
  selector : left.selector = right.selector
  isStatic : left.isStatic = right.isStatic
  returnType : left.returnType = right.returnType
  returnNullable : left.returnNullable = right.returnNullable
  params : left.params.map Parameter.outline = right.params.map Parameter.outline

theorem Method.Agrees.withDoc {left right : Method} (agrees : left.Agrees right) (doc : DocComment) :
    left.Agrees (right.withDoc doc) := by
  have described : Parameter.outline ∘ describe doc = Parameter.outline := by
    funext param
    simp only [Function.comp_apply, describe]
    split <;> rfl
  exact { agrees with params := by simp [Method.withDoc, described, agrees.params] }

/-- The tokens of a parameter's type; a parameter without one is an `id`. -/
def WrittenComponent.typeTokens (component : WrittenComponent) : List Token :=
  component.type?.getD [.identifier "id".toList]

theorem WrittenComponent.nativeType_eq (component : WrittenComponent) :
    component.nativeType = NativeType.ofTokens component.typeTokens := by
  cases type : component.type? with
  | none =>
    have untyped : .untyped = NativeType.ofTokens [.identifier "id".toList] := by decide
    simpa [nativeType, typeTokens, type] using untyped
  | some tokens => simp [nativeType, typeTokens, type]

/-- A type in which words about null count where they stand outside all brackets only. -/
structure NativeType.Clear (type : List Token) : Prop where
  carets : CaretsBare type
  settable : Settable type

/-- A tree reports a type by its own annotation. -/
def SpelledType.ReportsOwn (type : SpelledType) (tokens : List Token) : Prop :=
  type.Reports tokens (NativeType.HasOuter NativeType.nullableWords tokens)
    (NativeType.HasOuter NativeType.nonnullMarkers tokens)

theorem SpelledType.ReportsOwn.isNullable {type : SpelledType} {tokens : List Token}
    (reports : type.ReportsOwn tokens) (clear : NativeType.Clear tokens) :
    type.isNullable = (NativeType.ofTokens tokens).nullable := by
  rw [Bool.eq_iff_iff, reports.isNullable_iff, NativeType.nullable_iff _ clear.carets,
    NativeType.hasOuter_nullableMarkers _ clear.settable]

structure WrittenMethod.Clear (written : WrittenMethod) : Prop where
  returnType : NativeType.Clear written.returnType
  params : ∀ component ∈ written.selector.parts, NativeType.Clear component.typeTokens

/-- A tree reports a parameter by its name and its type. -/
def WrittenComponent.Reported (param : Text × SpelledType) (component : WrittenComponent) : Prop :=
  param.1 = component.name ∧ param.2.ReportsOwn component.typeTokens

/-- A tree reports a method: its selector, its types and the names of its parameters. -/
structure MethodNode.Reports (node : MethodNode) (written : WrittenMethod) : Prop where
  selector : node.selector = written.selector.text
  returnType : node.returnType.ReportsOwn written.returnType
  params : List.Forall₂ WrittenComponent.Reported node.params written.selector.parts

theorem params_agree {params : List (Text × SpelledType)} {parts : List WrittenComponent}
    (reports : List.Forall₂ WrittenComponent.Reported params parts)
    (clear : ∀ component ∈ parts, NativeType.Clear component.typeTokens)
    (named : ∀ component ∈ parts, component.name ≠ []) (index : Nat) :
    (parts.map WrittenComponent.param).map Parameter.outline =
      ((params.zipIdx index).map fun entry => MethodNode.param entry.2 entry.1.1 entry.1.2).map
        Parameter.outline := by
  induction reports generalizing index with
  | nil => rfl
  | @cons param component params parts own later ih =>
    have here : component.param.outline = (MethodNode.param index param.1 param.2).outline := by
      simp [Parameter.outline, WrittenComponent.param, MethodNode.param, component.nativeType_eq,
        own.1, named component List.mem_cons_self, own.2.native.1,
        own.2.isNullable (clear component List.mem_cons_self)]
    have tail := ih (fun other member => clear other (List.mem_cons_of_mem component member))
      (fun other member => named other (List.mem_cons_of_mem component member)) (index + 1)
    simp only [List.map_cons, List.zipIdx_cons, here, tail]

theorem MethodNode.Reports.agrees {node : MethodNode} {written : WrittenMethod}
    (reports : node.Reports written) (clear : written.Clear)
    (named : ∀ component ∈ written.selector.parts, component.name ≠ []) :
    written.method.Agrees (node.toMethod written.isStatic) where
  selector := reports.selector.symm
  isStatic := rfl
  returnType := reports.returnType.native.1.symm
  returnNullable := (reports.returnType.isNullable clear.returnType).symm
  params := params_agree reports.params clear.params named 0

theorem lexed_of_declared (declaration : Text) :
    ∀ token ∈ untilSemicolon (lex declaration), token.Lexed :=
  fun token member => Token.lexed_of_mem declaration token ((List.takeWhile_sublist _).subset member)

theorem WrittenSelector.mem_tokens {selector : WrittenSelector} {component : WrittenComponent}
    (member : component ∈ selector.parts) : .identifier component.name ∈ selector.tokens := by
  cases selector with
  | base name => cases member
  | components first later variadic =>
    apply List.mem_append_left
    exact List.mem_flatMap.mpr ⟨component, member, by simp [WrittenComponent.tokens]⟩

theorem WrittenSelector.text_ne_nil {selector : WrittenSelector}
    (lexed : ∀ token ∈ selector.tokens, token.Lexed) : selector.text ≠ [] := by
  cases selector with
  | base name => exact Token.name_ne_nil (lexed _ List.mem_cons_self).spelled
  | components first later variadic => simp [WrittenSelector.text]

/-- A method that is read from its text and from a node that reports it is the same to both readers. -/
theorem methods_agree {written : WrittenMethod} {node : MethodNode} {tree : Node} {declaration : Text}
    (sound : written.Sound) (clear : written.Clear) (reports : node.Reports written)
    (kind : tree.kind = .method written.isStatic node)
    (lexed : untilSemicolon (lex declaration) = written.tokens) :
    ∃ read made, Method.parse declaration = .ok read ∧ tree.member = .method made ∧
      read.Agrees made := by
  have parsed : Method.parse declaration = .ok written.method := by
    rw [Method.parse, lexed, method_written written sound]
    rfl
  have known : ∀ token ∈ written.selector.tokens, token.Lexed := by
    intro token member
    have inside : token ∈ written.tokens := by simp [WrittenMethod.tokens, member]
    exact lexed_of_declared declaration token (lexed ▸ inside)
  -- The names in a text that is read are not empty, and so no parameter is named by its position.
  have agrees := reports.agrees clear fun component member =>
    Token.name_ne_nil (known _ (WrittenSelector.mem_tokens member)).spelled
  have selector : node.selector.isEmpty = false := by
    rw [reports.selector, List.isEmpty_eq_false_iff]
    exact WrittenSelector.text_ne_nil known
  cases doc : tree.doc? with
  | none =>
    exact ⟨written.method, node.toMethod written.isStatic, parsed,
      by simp [Node.member, kind, selector, doc], agrees⟩
  | some comment =>
    exact ⟨written.method, (node.toMethod written.isStatic).withDoc comment, parsed,
      by simp [Node.member, kind, selector, doc], agrees.withDoc comment⟩

end Methods

section Properties

/-- What both readers say of a property. -/
structure Property.Agrees (left right : Property) : Prop where
  name : left.name = right.name
  type : left.type = right.type
  nullable : left.nullable = right.nullable
  readonly : left.readonly = right.readonly
  isClass : left.isClass = right.isClass
  getter : left.getter = right.getter
  setter : left.setter = right.setter

namespace WrittenProperty

variable (written : WrittenProperty)

def MarksNull : Prop :=
  written.Has "nullable".toList ∨ NativeType.HasOuter NativeType.nullableWords written.type

def MarksNonnull : Prop :=
  written.Has "nonnull".toList ∨ NativeType.HasOuter NativeType.nonnullMarkers written.type

/-- An annotation that leaves open whether null may occur. -/
def Unsettled : Prop :=
  written.Has "null_unspecified".toList ∨ NativeType.HasOuter NativeType.unsettledWords written.type

/-- A property that null does not reset, and that leaves nothing open where null is assumed to be ruled
out. -/
structure Clear (assumeNonnull : Bool) : Prop where
  settable : NativeType.Settable written.type
  kept : ¬ written.Has "null_resettable".toList
  settled : assumeNonnull = true → ¬ written.Unsettled

end WrittenProperty

/-- A tree reports a property. Where null is assumed to be ruled out, and there only, an object without
an annotation is reported as nonnull. -/
structure PropertyNode.Reports (node : PropertyNode) (written : WrittenProperty)
    (assumeNonnull : Bool) : Prop where
  name : node.name = written.name
  type : node.type.Reports written.type written.MarksNull written.MarksNonnull
  object : ¬ written.MarksNull → ¬ written.MarksNonnull → written.IsObject →
    (node.type.nullability = .nonnull ↔ assumeNonnull = true ∧ ¬ written.Unsettled)
  readonly : node.attributes.has .readonly = true ↔ written.Has "readonly".toList
  isClass : node.attributes.has .classLevel = true ↔ written.Has "class".toList
  getter : ∀ name, node.attributes.has .getter = true ∧ node.getter = name ↔
    written.attributes.findSome? (attributeOf? "getter".toList) = some name
  setter : ∀ name, node.attributes.has .setter = true ∧ node.setter = name ↔
    written.attributes.findSome? (attributeOf? "setter".toList) = some name

theorem WrittenProperty.Declares.nullable_of_clear {written : WrittenProperty} {assumeNonnull : Bool}
    {property : Property} (declares : written.Declares assumeNonnull property)
    (clear : written.Clear assumeNonnull) :
    property.nullable = true ↔
      written.MarksNull ∨ written.IsObject ∧ ¬ written.MarksNonnull ∧ assumeNonnull = false := by
  rw [declares.nullable, NativeType.hasOuter_nullableMarkers _ clear.settable]
  simp only [WrittenProperty.MarksNull, WrittenProperty.MarksNonnull, clear.kept, false_or, not_or,
    or_assoc, and_assoc, and_left_comm]

-- An accessor has a name of its own if the bit for it is set.
theorem accessor_eq {bit : Bool} {name : Text} {value? : Option Text}
    (reported : ∀ other, bit = true ∧ name = other ↔ value? = some other) :
    value? = if bit then some name else none := by
  apply Option.ext
  intro other
  rw [← reported other]
  cases bit <;> simp

namespace PropertyNode.Reports

variable {node : PropertyNode} {written : WrittenProperty} {assumeNonnull : Bool}
  (reports : node.Reports written assumeNonnull) (clear : written.Clear assumeNonnull)

include reports clear

-- An object that nothing speaks of is reported as nonnull exactly where null is assumed to be ruled out.
theorem bare_iff (unmarked : ¬ written.MarksNull) :
    written.IsObject ∧ ¬ written.MarksNonnull ∧ assumeNonnull = false ↔
      node.type.nullability = .unspecified ∧ written.IsObject := by
  constructor
  · rintro ⟨object, unruled, region⟩
    have ruled := reports.object unmarked unruled object
    cases reported : node.type.nullability with
    | nullable => exact absurd reported (reports.type.bare unmarked unruled)
    | nonnull =>
      have inside := (ruled.mp reported).1
      rw [region] at inside
      cases inside
    | unspecified => exact ⟨rfl, object⟩
  · rintro ⟨reported, object⟩
    have unruled : ¬ written.MarksNonnull := fun marked => by
      simp [reports.type.nonnull marked] at reported
    refine ⟨object, unruled, Bool.eq_false_iff.mpr fun region => ?_⟩
    have nonnull := (reports.object unmarked unruled object).mpr ⟨region, clear.settled region⟩
    rw [reported] at nonnull
    cases nonnull

/-- Both readers decide alike whether a property may be null. -/
theorem nullable_iff {property : Property} (declares : written.Declares assumeNonnull property) :
    property.nullable = true ↔ node.toProperty.nullable = true := by
  have object := reports.type.isBareObject_iff
  rw [written.isObject_iff] at object
  simp only [declares.nullable_of_clear clear, PropertyNode.toProperty, Bool.or_eq_true,
    reports.type.isNullable_iff, object]
  by_cases null : written.MarksNull
  · simp [null]
  · simpa only [null, false_or] using reports.bare_iff clear null

theorem agrees {property : Property} (declares : written.Declares assumeNonnull property) :
    property.Agrees node.toProperty where
  name := declares.name.trans reports.name.symm
  type := declares.type.trans reports.type.native.1.symm
  nullable := Bool.eq_iff_iff.mpr (reports.nullable_iff clear declares)
  readonly := Bool.eq_iff_iff.mpr (declares.readonly.trans reports.readonly.symm)
  isClass := Bool.eq_iff_iff.mpr (declares.isClass.trans reports.isClass.symm)
  getter := declares.getter.trans (accessor_eq reports.getter)
  setter := declares.setter.trans (accessor_eq reports.setter)

end PropertyNode.Reports

theorem Property.Agrees.withDoc {left right : Property} (agrees : left.Agrees right)
    (doc : DocComment) : left.Agrees (right.withDoc doc) :=
  ⟨agrees.name, agrees.type, agrees.nullable, agrees.readonly, agrees.isClass, agrees.getter,
    agrees.setter⟩

/-- A property whose tokens stand around a body are read as they are written. -/
structure WrittenProperty.LaidOut (written : WrittenProperty) (body : List Token) : Prop where
  attributes : ∀ entry ∈ written.attributes, Token.IsEntry entry
  bare : written.attributes? = none → body.head? ≠ some .leftParen
  macros : ∀ item ∈ written.macros, item.IsMacro
  body : written.Body body

/-- A property that is read from its text and from a node that reports it is the same to both readers. -/
theorem properties_agree {written : WrittenProperty} {body : List Token} {node : PropertyNode}
    {tree : Node} {assumeNonnull : Bool} {declaration : Text} (laid : written.LaidOut body)
    (clear : written.Clear assumeNonnull) (reports : node.Reports written assumeNonnull)
    (kind : tree.kind = .property node)
    (lexed : untilSemicolon (lex declaration) = written.tokensAround body) :
    ∃ read made, Property.parse assumeNonnull declaration = .ok read ∧ tree.member = .property made ∧
      read.Agrees made := by
  have parsed : Property.parse assumeNonnull declaration = .ok (written.property assumeNonnull) := by
    rw [Property.parse, lexed, property_around written body laid.attributes laid.bare laid.macros
      laid.body.stops laid.body.found laid.body.typed]
    rfl
  have known : ∀ token ∈ written.tokensAround body, token.Lexed :=
    lexed ▸ lexed_of_declared declaration
  have declares := written.declares_property
    (fun entry member token own => known token (written.mem_tokensAround member own))
    laid.body.carets assumeNonnull
  have agrees := reports.agrees clear declares
  have name : node.name.isEmpty = false := by
    rw [reports.name, List.isEmpty_eq_false_iff]
    exact Token.name_ne_nil (known _ laid.body.mem_name).spelled
  cases doc : tree.doc? with
  | none =>
    exact ⟨written.property assumeNonnull, node.toProperty, parsed,
      by simp [Node.member, kind, name, doc], agrees⟩
  | some comment =>
    exact ⟨written.property assumeNonnull, node.toProperty.withDoc comment, parsed,
      by simp [Node.member, kind, name, doc], agrees.withDoc comment⟩

end Properties

section Readers

/-- Text and tree are read alike: each gives a method for a method and a property for a property, with
or without null assumed to be ruled out, and both agree. -/
theorem readers_agree (assumeNonnull : Bool) :
    (∀ (written : WrittenMethod) (node : MethodNode) (tree : Node) (declaration : Text),
      written.Sound → written.Clear → node.Reports written →
      tree.kind = .method written.isStatic node →
      untilSemicolon (lex declaration) = written.tokens →
      ∃ read made, Method.parse declaration = .ok read ∧ tree.member = .method made ∧
        read.Agrees made) ∧
    ∀ (written : WrittenProperty) (body : List Token) (node : PropertyNode) (tree : Node)
      (declaration : Text), written.LaidOut body → written.Clear assumeNonnull →
      node.Reports written assumeNonnull → tree.kind = .property node →
      untilSemicolon (lex declaration) = written.tokensAround body →
      ∃ read made, Property.parse assumeNonnull declaration = .ok read ∧
        tree.member = .property made ∧ read.Agrees made := by
  constructor
  · intro written node tree declaration sound clear reports kind lexed
    exact methods_agree sound clear reports kind lexed
  · intro written body node tree declaration laid clear reports kind lexed
    exact properties_agree laid clear reports kind lexed

/-- A title that may be missing, at an index, for a viewer of any class. -/
def writtenTitle : WrittenMethod where
  isStatic := false
  returnType := [.identifier "nullable".toList, .identifier "NSString".toList, .star]
  selector := .components
    ⟨"titleAt".toList, some [.identifier "NSInteger".toList], "index".toList⟩
    [⟨"viewer".toList, none, "viewer".toList⟩] false
  macros := [⟨"NS_REQUIRES_SUPER".toList, none⟩]

def titleNode : MethodNode where
  selector := "titleAt:viewer:".toList
  returnType := ⟨"NSString * _Nullable".toList, .nullable⟩
  params := [("index".toList, ⟨"NSInteger".toList, .unspecified⟩),
    ("viewer".toList, ⟨"id _Nonnull".toList, .nonnull⟩)]

/-- A handler that may be missing, under a getter of its own. -/
def writtenHandler : WrittenProperty where
  attributes? := some [[.identifier "nullable".toList], [.identifier "readonly".toList],
    [.identifier "getter".toList, .equals, .identifier "atEnd".toList]]
  type := [.identifier "void".toList, .leftParen, .caret, .rightParen, .leftParen,
    .identifier "NSString".toList, .star, .rightParen]
  name := "handler".toList
  macros := []

def handlerNode : PropertyNode where
  name := "handler".toList
  type := ⟨"void (^ _Nullable)(NSString *)".toList, .nullable⟩
  attributes := ⟨3⟩
  getter := "atEnd".toList
  setter := "setHandler:".toList

theorem title_sound : writtenTitle.Sound where
  returnType := ⟨by decide, by decide⟩
  types := by
    intro component member type own
    simp [writtenTitle, WrittenSelector.parts] at member
    rcases member with rfl | rfl <;> cases own
    exact ⟨by decide, by decide⟩
  calls := by
    intro item member call own
    simp [writtenTitle] at member
    subst member
    cases own

theorem title_clear : writtenTitle.Clear where
  returnType := ⟨by decide, by decide⟩
  params := by
    intro component member
    simp [writtenTitle, WrittenSelector.parts] at member
    rcases member with rfl | rfl
    · exact ⟨by decide, by decide⟩
    · exact ⟨by decide, by decide⟩

theorem title_reported : titleNode.Reports writtenTitle where
  selector := by decide
  returnType :=
    { tokens := by decide +kernel
      nullable := fun _ => rfl
      nonnull := fun marked => absurd marked (NativeType.not_hasOuter (by decide) (by decide))
      bare := fun unmarked => absurd ⟨[], _, _, rfl, by decide, by decide, by decide⟩ unmarked
      spelling := nofun }
  params := by
    refine .cons ⟨rfl, ?_⟩ (.cons ⟨rfl, ?_⟩ .nil)
    · exact
        { tokens := by decide +kernel
          nullable := fun marked => absurd marked (NativeType.not_hasOuter (by decide) (by decide))
          nonnull := fun marked => absurd marked (NativeType.not_hasOuter (by decide) (by decide))
          bare := fun _ _ => nofun
          spelling := by decide +kernel }
    · exact
        { tokens := by decide +kernel
          nullable := fun marked => absurd marked (NativeType.not_hasOuter (by decide) (by decide))
          nonnull := fun _ => rfl
          bare := fun _ _ => nofun
          spelling := nofun }

theorem handler_laid :
    writtenHandler.LaidOut
      ([.identifier "void".toList] ++ .leftParen :: .caret :: .identifier "handler".toList ::
        .rightParen :: enclosed [.identifier "NSString".toList, .star]) where
  attributes := by decide
  bare := nofun
  macros := nofun
  body := .block [.identifier "void".toList] [.identifier "NSString".toList, .star] rfl (by decide)
    (by decide) (by decide)

theorem handler_clear : writtenHandler.Clear true where
  settable := by decide
  kept := by decide
  settled := by
    rintro - (listed | word)
    · exact absurd listed (by decide)
    · exact absurd word (NativeType.not_hasOuter (by decide) (by decide))

theorem handler_reported : handlerNode.Reports writtenHandler true where
  name := rfl
  type :=
    { tokens := by decide +kernel
      nullable := fun _ => rfl
      nonnull := by
        rintro (listed | word)
        · exact absurd listed (by decide)
        · exact absurd word (NativeType.not_hasOuter (by decide) (by decide))
      bare := fun unmarked => absurd (.inl (by decide)) unmarked
      spelling := nofun }
  object := fun unmarked => absurd (.inl (by decide)) unmarked
  readonly := by decide
  isClass := by decide
  getter := by
    intro name
    have value : writtenHandler.attributes.findSome? (attributeOf? "getter".toList) =
        some "atEnd".toList := by decide
    rw [value]
    exact ⟨fun both => congrArg some both.2, fun same => ⟨by decide, Option.some.inj same⟩⟩
  setter := by
    intro name
    have none : writtenHandler.attributes.findSome? (attributeOf? "setter".toList) = none := by decide
    rw [none]
    exact ⟨fun both => absurd both.1 (by decide), nofun⟩

/-- A title and a handler, where null is assumed to be ruled out. -/
theorem readers_agree_title_handler :
    (∃ read made,
      Method.parse
        "- (nullable NSString *)titleAt:(NSInteger)index viewer:viewer NS_REQUIRES_SUPER;".toList =
          .ok read ∧
      (⟨.method false titleNode, 1, true, none, []⟩ : Node).member = .method made ∧
      read.Agrees made) ∧
    ∃ read made,
      Property.parse true
        "@property (nullable, readonly, getter=atEnd) void (^handler)(NSString *);".toList =
          .ok read ∧
      (⟨.property handlerNode, 2, true, none, []⟩ : Node).member = .property made ∧
      read.Agrees made := by
  obtain ⟨methods, properties⟩ := readers_agree true
  constructor
  · exact methods writtenTitle titleNode _ _ title_sound title_clear title_reported rfl
      (by decide +kernel)
  · exact properties writtenHandler _ handlerNode _ _ handler_laid handler_clear handler_reported rfl
      (by decide +kernel)

theorem Property.disagrees {read? : Except DeclarationError Property} {made : Property}
    (differs : read?.toOption.all (fun read =>
      read.name != made.name || read.nullable != made.nullable) = true) :
    ¬ ∃ read, read? = .ok read ∧ read.Agrees made := by
  rintro ⟨read, rfl, agrees⟩
  simp [Except.toOption, agrees.name, agrees.nullable] at differs

theorem Method.disagrees {read? : Except DeclarationError Method} {made : Method}
    (differs : read?.toOption.all (fun read =>
      read.params.map (·.nullable) != made.params.map (·.nullable)) = true) :
    ¬ ∃ read, read? = .ok read ∧ read.Agrees made := by
  rintro ⟨read, rfl, agrees⟩
  have same : read.params.map (·.nullable) = made.params.map (·.nullable) := by
    have views := congrArg (List.map fun view : Text × Text × Bool => view.2.2) agrees.params
    simpa [Parameter.outline, Function.comp_def] using views
  simp [Except.toOption, same] at differs

/-- The readers part where the name of a function pointer, or of a block that gives a block, stands inside
the type and is not the last identifier, where null is left open although it is assumed to be ruled out,
where an annotation stands inside the parentheses of a function pointer, and where a method has no return
type. -/
theorem readers_disagree :
    (¬ ∃ read, Property.parse false "@property void (*callback)(int);".toList = .ok read ∧
      read.Agrees (PropertyNode.toProperty
        { name := "callback".toList, type := ⟨"void (*)(int)".toList, .unspecified⟩,
          attributes := ⟨0⟩, getter := "callback".toList, setter := "setCallback:".toList })) ∧
    (¬ ∃ read, Property.parse false "@property void (^(^maker)(int))(void);".toList = .ok read ∧
      read.Agrees (PropertyNode.toProperty
        { name := "maker".toList, type := ⟨"void (^(^)(int))(void)".toList, .unspecified⟩,
          attributes := ⟨0⟩, getter := "maker".toList, setter := "setMaker:".toList })) ∧
    (¬ ∃ read, Property.parse true "@property id _Nullable_result last;".toList = .ok read ∧
      read.Agrees (PropertyNode.toProperty
        { name := "last".toList, type := ⟨"id _Nullable_result".toList, .unspecified⟩,
          attributes := ⟨0⟩, getter := "last".toList, setter := "setLast:".toList })) ∧
    (¬ ∃ read, Method.parse "- (void)call:(void (* _Nullable)(int))target;".toList = .ok read ∧
      read.Agrees (MethodNode.toMethod
        { selector := "call:".toList, returnType := ⟨"void".toList, .unspecified⟩,
          params := [("target".toList, ⟨"void (* _Nullable)(int)".toList, .nullable⟩)] } false)) ∧
    ¬ ∃ read, Method.parse "- foo;".toList = .ok read ∧
      read.Agrees (MethodNode.toMethod
        { selector := "foo".toList, returnType := ⟨"id".toList, .unspecified⟩, params := [] } false) := by
  refine ⟨Property.disagrees ?_, Property.disagrees ?_, Property.disagrees ?_, Method.disagrees ?_,
    Method.disagrees ?_⟩ <;> decide +kernel

end Readers

end HeaderBindings
