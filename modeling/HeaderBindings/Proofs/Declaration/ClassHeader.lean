import HeaderBindings.Declaration.ClassHeader
import HeaderBindings.Proofs.Declaration.Macros

/-!
Class headers as they are written, and what reading makes of them. Angles hold type parameters,
protocols or the type arguments of a superclass, by where they stand and what they hold.
-/

namespace HeaderBindings

open ClassHeader.Reader

def angled (tokens : List Token) : List Token := .less :: (tokens ++ [.greater])

section Written

/-- A superclass, with the tokens of its type arguments if it has any. -/
structure WrittenParent where
  name : Text
  arguments? : Option (List Token)
  deriving DecidableEq, Repr

/-- A class header. A category without a name is a class extension; no protocols are no list. -/
structure WrittenHeader where
  leading : List WrittenMacro
  name : Text
  typeParams? : Option (List Token)
  category? : Option (Option Text)
  parent? : Option WrittenParent
  protocols : List Text
  trailing : List WrittenMacro
  deriving DecidableEq, Repr

def WrittenParent.tokens (parent : WrittenParent) : List Token :=
  .colon :: .identifier parent.name :: (parent.arguments?.map angled).getD []

def protocolTokens (protocols : List Text) : List Token :=
  if protocols = [] then []
  else angled (Token.listed (protocols.map fun name => [.identifier name]))

@[simp] theorem protocolTokens_nil : protocolTokens [] = [] := rfl

namespace WrittenHeader

def typeParams (written : WrittenHeader) : List Token := written.typeParams?.getD []

def categoryTokens (written : WrittenHeader) : List Token :=
  (written.category?.map fun name? => enclosed (name?.map Token.identifier).toList).getD []

def parentTokens (written : WrittenHeader) : List Token :=
  (written.parent?.map WrittenParent.tokens).getD []

def tokens (written : WrittenHeader) : List Token :=
  written.leading.flatMap WrittenMacro.tokens ++ .directive "@interface".toList
    :: .identifier written.name
    :: ((written.typeParams?.map angled).getD [] ++ (written.categoryTokens
      ++ (written.parentTokens ++ (protocolTokens written.protocols
        ++ written.trailing.flatMap WrittenMacro.tokens))))

/-- The header that a written one stands for. -/
def header (written : WrittenHeader) : ClassHeader :=
  { name := written.name
    category := written.category?.map (·.getD [])
    superclass := written.parent?.map WrittenParent.name
    protocols := written.protocols
    availability := (written.leading.findSome? WrittenMacro.availability?).or
      (written.trailing.findSome? WrittenMacro.availability?) }

/-- What tells type parameters, type arguments and protocols apart. -/
structure Sound (written : WrittenHeader) : Prop where
  macros : ∀ item ∈ written.leading ++ written.trailing, item.IsMacro
  params : Token.Nests .less .greater written.typeParams
  suffixed : written.typeParams?.isSome → written.category?.isSome ∨ written.parent?.isSome
  arguments : ∀ parent ∈ written.parent?, ∀ tokens ∈ parent.arguments?,
    Token.Nests .less .greater tokens ∧
      (.star ∈ tokens ∨ ∃ name, .identifier name ∈ tokens ∧ .identifier name ∈ written.typeParams)
  protocols : ∀ parent ∈ written.parent?, parent.arguments? = none →
    ∀ name ∈ written.protocols, .identifier name ∉ written.typeParams

end WrittenHeader

end Written

section Angles

theorem angles_none (tokens : List Token) (other : tokens.head? ≠ some .less) :
    angles? tokens = .ok (none, tokens) := by
  have none : Token.angleGroup? tokens = none := by
    cases tokens with
    | nil => rfl
    | cons token tokens => simpa [Token.angleGroup?, Token.group?] using other
  simp [angles?, none]

theorem angles_angled (tokens rest : List Token) (nests : Token.Nests .less .greater tokens) :
    angles? (angled tokens ++ rest) = .ok (some tokens, rest) := by
  have group : Token.angleGroup? (angled tokens ++ rest) = some ⟨tokens, true, rest⟩ := by
    simpa [Token.angleGroup?, angled] using Token.group_nests (by decide) tokens rest nests
  simp [angles?, group]

theorem isEntry_name (name : Text) : Token.IsEntry [.identifier name] where
  written := by simp
  parens := Token.depthBehind_free 0 _ (by simp) (by simp)
  angles := Token.depthBehind_free 0 _ (by simp) (by simp)
  commas := by
    rintro before after cut -
    cases before <;> simp at cut

theorem protocolList_names (protocols : List Text) :
    protocolList (Token.listed (protocols.map fun name => [.identifier name])) = .ok protocols := by
  have cut := Token.splitCommas_listed (protocols.map fun name => [Token.identifier name]) (by
    intro entry member
    obtain ⟨name, -, rfl⟩ := List.mem_map.mp member
    exact isEntry_name name)
  rw [protocolList, cut]
  clear cut
  induction protocols with
  | nil => rfl
  | cons name protocols ih =>
    rw [List.map_cons, List.mapM_cons, ih]
    rfl

theorem angles_protocols (protocols : List Text) (rest : List Token) (named : protocols ≠ []) :
    angles? (protocolTokens protocols ++ rest) =
      .ok (some (Token.listed (protocols.map fun name => [.identifier name])), rest) := by
  have nests : Token.Nests .less .greater
      (Token.listed (protocols.map fun name => [.identifier name])) := by
    refine Token.nests_listed _ (by decide) (by decide) fun entry member => ?_
    obtain ⟨name, -, rfl⟩ := List.mem_map.mp member
    exact (isEntry_name name).angles
  rw [protocolTokens, if_neg named, angles_angled _ _ nests]

end Angles

section Stages

variable {tail : List Token}

/-- The stretch behind the protocols of a header begins with a macro or with the brace, if it is not
empty. -/
def Closes (tail : List Token) : Prop :=
  ∀ token ∈ tail.head?, token = .leftBrace ∨ ∃ name, token = .identifier name

theorem Closes.head (closes : Closes tail) (token : Token) (brace : token ≠ .leftBrace)
    (unnamed : token.name? = none) : tail.head? ≠ some token := by
  intro head
  rcases closes token (by simp [head]) with same | ⟨name, rfl⟩
  · exact brace same
  · cases unnamed

theorem closes_macros (macros : List WrittenMacro) (rest : List Token)
    (ends : rest = [] ∨ rest.head? = some .leftBrace) :
    Closes (macros.flatMap WrittenMacro.tokens ++ rest) := by
  intro token head
  rw [head_macros] at head
  cases macros with
  | nil =>
    rcases ends with rfl | brace
    · cases head
    · exact Or.inl (by simpa [brace] using head.symm)
  | cons item macros => exact Or.inr ⟨item.name, by simpa using head.symm⟩

theorem protocols_written (protocols : List Text) (closes : Closes tail) :
    protocols? (protocolTokens protocols ++ tail) = .ok (protocols, tail) := by
  by_cases none : protocols = []
  · have bare := angles_none tail (closes.head .less (by decide) rfl)
    simp [protocols?, none, bare, bind, Except.bind, pure, Except.pure]
  · simp [protocols?, angles_protocols protocols tail none, protocolList_names, bind, Except.bind,
      pure, Except.pure]

theorem head_protocols (protocols : List Text) (closes : Closes tail) (token : Token)
    (angle : token ≠ .less) (brace : token ≠ .leftBrace) (unnamed : token.name? = none) :
    (protocolTokens protocols ++ tail).head? ≠ some token := by
  by_cases none : protocols = []
  · simpa [protocolTokens, none] using closes.head token brace unnamed
  · simpa [protocolTokens, none, angled] using angle.symm

theorem category_written (category? : Option (Option Text)) (rest : List Token)
    (other : rest.head? ≠ some .leftParen) :
    ClassHeader.Reader.category?
        ((category?.map fun name? => enclosed (name?.map Token.identifier).toList).getD [] ++ rest) =
      .ok (category?.map (·.getD []), rest) := by
  rcases category? with _ | _ | name
  · simp [ClassHeader.Reader.category?, parenGroup_none other]
  · have group : Token.parenGroup? (enclosed [] ++ rest) = some ⟨[], true, rest⟩ := nests_enclosed rfl
    simp [ClassHeader.Reader.category?, group]
  · have group : Token.parenGroup? (enclosed [.identifier name] ++ rest) =
        some ⟨[.identifier name], true, rest⟩ := nests_enclosed (isEntry_name name).parens
    simp [ClassHeader.Reader.category?, group]

theorem isTypeArguments_iff (typeParams tokens : List Token) :
    isTypeArguments (typeParams.filterMap Token.name?) tokens = true ↔
      .star ∈ tokens ∨ ∃ name, .identifier name ∈ tokens ∧ .identifier name ∈ typeParams := by
  have named (token : Token) (name : Text) : token.name? = some name ↔ token = .identifier name := by
    cases token <;> simp [Token.name?]
  simp only [isTypeArguments, List.any_eq_true, Bool.or_eq_true, beq_iff_eq, Option.any_eq_true,
    List.contains_iff_mem, List.mem_filterMap, named]
  constructor
  · rintro ⟨token, member, rfl | ⟨name, rfl, _, param, rfl⟩⟩
    · exact Or.inl member
    · exact Or.inr ⟨name, member, param⟩
  · rintro (star | ⟨name, member, param⟩)
    · exact ⟨_, star, Or.inl rfl⟩
    · exact ⟨_, member, Or.inr ⟨name, rfl, _, param, rfl⟩⟩

theorem superclass_none (typeParams : List Text) (tokens : List Token)
    (other : tokens.head? ≠ some .colon) : superclass? typeParams tokens = .ok (none, [], tokens) := by
  cases tokens with
  | nil => rfl
  | cons token tokens => cases token <;> simp_all [superclass?]

-- The protocols of a superclass without type arguments are read along with it.
theorem superclass_bare (typeParams : List Token) (name : Text) (protocols : List Text)
    (apart : ∀ protocol ∈ protocols, .identifier protocol ∉ typeParams) (closes : Closes tail) :
    superclass? (typeParams.filterMap Token.name?)
        (.colon :: .identifier name :: (protocolTokens protocols ++ tail)) =
      .ok (some name, protocols, tail) := by
  by_cases none : protocols = []
  · have bare := angles_none tail (closes.head .less (by decide) rfl)
    simp [superclass?, none, bare, bind, Except.bind, pure, Except.pure]
  · have plain : isTypeArguments (typeParams.filterMap Token.name?)
        (Token.listed (protocols.map fun name => [.identifier name])) = false := by
      rw [Bool.eq_false_iff]
      intro holds
      have inside (token : Token) (member : token ∈ Token.listed
          (protocols.map fun name => [.identifier name])) :
          token = .comma ∨ ∃ protocol ∈ protocols, token = .identifier protocol := by
        rcases Token.of_mem_listed member with comma | ⟨entry, written, own⟩
        · exact Or.inl comma
        · obtain ⟨protocol, known, rfl⟩ := List.mem_map.mp written
          exact Or.inr ⟨protocol, known, List.mem_singleton.mp own⟩
      rcases (isTypeArguments_iff typeParams _).mp holds with star | ⟨protocol, member, param⟩
      · rcases inside _ star with other | ⟨_, _, other⟩ <;> cases other
      · rcases inside _ member with other | ⟨_, known, same⟩
        · cases other
        · cases same
          exact apart _ known param
    simp [superclass?, angles_protocols protocols tail none, plain, protocolList_names, bind,
      Except.bind, pure, Except.pure]

theorem superclass_arguments (typeParams : List Token) (name : Text) (arguments rest : List Token)
    (nests : Token.Nests .less .greater arguments)
    (known : .star ∈ arguments ∨
      ∃ name, .identifier name ∈ arguments ∧ .identifier name ∈ typeParams) :
    superclass? (typeParams.filterMap Token.name?)
        (.colon :: .identifier name :: (angled arguments ++ rest)) = .ok (some name, [], rest) := by
  have isArguments := (isTypeArguments_iff typeParams arguments).mpr known
  simp [superclass?, angles_angled arguments rest nests, isArguments, bind, Except.bind, pure,
    Except.pure]

end Stages

section Headers

variable (written : WrittenHeader)

theorem startsSuffix_iff (tokens : List Token) :
    startsSuffix tokens = true ↔ tokens.head? = some .leftParen ∨ tokens.head? = some .colon := by
  cases tokens with
  | nil => simp [startsSuffix]
  | cons token tokens => cases token <;> simp [startsSuffix]

theorem WrittenHeader.startsSuffix_tokens (rest : List Token)
    (suffixed : written.category?.isSome ∨ written.parent?.isSome) :
    startsSuffix (written.categoryTokens ++ (written.parentTokens ++ rest)) = true := by
  rw [startsSuffix_iff]
  cases category : written.category? with
  | some name? => simp [WrittenHeader.categoryTokens, category, enclosed]
  | none =>
    cases parent : written.parent? with
    | some own => simp [WrittenHeader.categoryTokens, WrittenHeader.parentTokens, category, parent,
        WrittenParent.tokens]
    | none => simp [category, parent] at suffixed

/-- Angles behind the class name are the type parameters if a category or a superclass follows, and
the protocols of a root class otherwise. -/
theorem afterName_written (sound : written.Sound) {tail : List Token} (closes : Closes tail) :
    ∃ taken left, taken ++ left = written.protocols ∧
      afterName ((written.typeParams?.map angled).getD [] ++ (written.categoryTokens
          ++ (written.parentTokens ++ (protocolTokens written.protocols ++ tail)))) =
        .ok (written.typeParams.filterMap Token.name?, taken,
          written.categoryTokens ++ (written.parentTokens ++ (protocolTokens left ++ tail))) := by
  cases given : written.typeParams? with
  | some params =>
    have own : written.typeParams = params := by simp [WrittenHeader.typeParams, given]
    have suffix := written.startsSuffix_tokens (protocolTokens written.protocols ++ tail)
      (sound.suffixed (by simp [given]))
    have read := angles_angled params (written.categoryTokens
      ++ (written.parentTokens ++ (protocolTokens written.protocols ++ tail))) (own ▸ sound.params)
    refine ⟨[], written.protocols, rfl, ?_⟩
    simp [afterName, read, suffix, own, bind, Except.bind, pure, Except.pure]
  | none =>
    have own : written.typeParams = [] := by simp [WrittenHeader.typeParams, given]
    by_cases suffixed : written.category?.isSome ∨ written.parent?.isSome
    · have suffix := (startsSuffix_iff _).mp
        (written.startsSuffix_tokens (protocolTokens written.protocols ++ tail) suffixed)
      have read := angles_none (written.categoryTokens
          ++ (written.parentTokens ++ (protocolTokens written.protocols ++ tail))) (by
        rcases suffix with head | head <;> simp [head])
      refine ⟨[], written.protocols, rfl, ?_⟩
      simp [afterName, read, own, bind, Except.bind, pure, Except.pure]
    · simp only [not_or, Option.not_isSome_iff_eq_none] at suffixed
      have bare (rest : List Token) : written.categoryTokens ++ (written.parentTokens ++ rest) = rest := by
        simp [WrittenHeader.categoryTokens, WrittenHeader.parentTokens, suffixed]
      by_cases none : written.protocols = []
      · have read := angles_none tail (closes.head .less (by decide) rfl)
        refine ⟨[], [], none.symm, ?_⟩
        simp [afterName, bare, none, read, own, bind, Except.bind, pure, Except.pure]
      · have read := angles_protocols written.protocols tail none
        have ends : startsSuffix tail = false := by
          rw [Bool.eq_false_iff, Ne, startsSuffix_iff, not_or]
          exact ⟨closes.head .leftParen (by decide) rfl, closes.head .colon (by decide) rfl⟩
        refine ⟨written.protocols, [], List.append_nil _, ?_⟩
        simp [afterName, bare, read, ends, protocolList_names, own, bind, Except.bind, pure,
          Except.pure]

/-- What stands behind the category is the superclass and the protocols that are not read yet. -/
theorem parent_written (sound : written.Sound) {tail : List Token} (closes : Closes tail)
    (protocols : List Text) (within : protocols ⊆ written.protocols) :
    ∃ taken left, taken ++ left = protocols ∧
      superclass? (written.typeParams.filterMap Token.name?)
          (written.parentTokens ++ (protocolTokens protocols ++ tail)) =
        .ok (written.parent?.map WrittenParent.name, taken, protocolTokens left ++ tail) := by
  cases has : written.parent? with
  | none =>
    have read := superclass_none (written.typeParams.filterMap Token.name?) _
      (head_protocols protocols closes .colon (by decide) (by decide) rfl)
    exact ⟨[], protocols, rfl, by simpa [WrittenHeader.parentTokens, has] using read⟩
  | some parent =>
    cases given : parent.arguments? with
    | none =>
      have read := superclass_bare written.typeParams parent.name protocols
        (fun name member => sound.protocols parent has given name (within member)) closes
      refine ⟨protocols, [], List.append_nil _, ?_⟩
      simpa [WrittenHeader.parentTokens, has, WrittenParent.tokens, given] using read
    | some arguments =>
      obtain ⟨nests, known⟩ := sound.arguments parent has arguments given
      have read := superclass_arguments written.typeParams parent.name arguments
        (protocolTokens protocols ++ tail) nests known
      refine ⟨[], protocols, rfl, ?_⟩
      simpa [WrittenHeader.parentTokens, has, WrittenParent.tokens, given] using read

theorem head_parent {tail : List Token} (closes : Closes tail) (protocols : List Text) :
    (written.parentTokens ++ (protocolTokens protocols ++ tail)).head? ≠ some .leftParen := by
  cases has : written.parent? with
  | none =>
    have other := head_protocols protocols closes .leftParen (by decide) (by decide) rfl
    simpa [WrittenHeader.parentTokens, has] using other
  | some parent => simp [WrittenHeader.parentTokens, has, WrittenParent.tokens]

theorem afterDirective_written (sound : written.Sound) (rest : List Token)
    (ends : rest = [] ∨ rest.head? = some .leftBrace) :
    afterDirective (written.leading.findSome? WrittenMacro.availability?) (.identifier written.name
        :: ((written.typeParams?.map angled).getD [] ++ (written.categoryTokens
          ++ (written.parentTokens ++ (protocolTokens written.protocols
            ++ (written.trailing.flatMap WrittenMacro.tokens ++ rest)))))) =
      .ok written.header := by
  have closes := closes_macros written.trailing rest ends
  obtain ⟨root, behind, parts, name⟩ := afterName_written written sound closes
  obtain ⟨adopted, left, later, parent⟩ := parent_written written sound closes behind
    (parts ▸ List.subset_append_right root behind)
  have category := category_written written.category? _ (head_parent written closes behind)
  have protocols := protocols_written left closes
  have trailing := macroRun_written written.trailing rest
    (fun item member => sound.macros item (List.mem_append_right _ member)) (by
      rcases ends with rfl | brace
      · simp
      · simp [brace, Token.name?])
  have finish : atEnd rest = .ok () := by
    cases rest with
    | nil => rfl
    | cons token rest => simp_all [atEnd]
  rw [afterDirective, name]
  simp only [bind, Except.bind, WrittenHeader.categoryTokens, category, parent, protocols, trailing,
    finish, pure, Except.pure]
  simp [WrittenHeader.header, ← parts, ← later]

/-- A written header is read from every text of its tokens, with nothing or a brace behind them. -/
theorem parse_header (sound : written.Sound) (line : Text) (rest : List Token)
    (ends : rest = [] ∨ rest.head? = some .leftBrace) (lexed : lex line = written.tokens ++ rest) :
    ClassHeader.parse line = .ok written.header := by
  have leading := macroRun_written written.leading (.directive "@interface".toList
      :: .identifier written.name :: ((written.typeParams?.map angled).getD [] ++
        (written.categoryTokens ++ (written.parentTokens ++ (protocolTokens written.protocols
          ++ (written.trailing.flatMap WrittenMacro.tokens ++ rest))))))
    (fun item member => sound.macros item (List.mem_append_left _ member))
    (by simp [Token.name?])
  have read := afterDirective_written written sound rest ends
  have whole : ClassHeader.Reader.header (written.tokens ++ rest) = .ok written.header := by
    simp only [WrittenHeader.tokens, List.append_assoc, List.cons_append] at leading ⊢
    rw [ClassHeader.Reader.header, leading]
    simpa using read
  rw [ClassHeader.parse, lexed, whole]
  rfl

def writtenBoxes : WrittenHeader where
  leading := [⟨"NS_A".toList, none⟩]
  name := "Boxes".toList
  typeParams? := some [.identifier "T".toList]
  category? := some none
  parent? := some ⟨"Box".toList, some [.identifier "T".toList]⟩
  protocols := ["P".toList, "T".toList]
  trailing := [⟨"API_AVAILABLE".toList, some [.identifier "ios".toList]⟩]

theorem parse_header_boxes :
    let line := "NS_A @interface Boxes<T> () : Box<T> <P, T> API_AVAILABLE(ios) \x7b int".toList
    let rest := [.leftBrace, .identifier "int".toList]
    writtenBoxes.Sound ∧ rest.head? = some .leftBrace ∧ lex line = writtenBoxes.tokens ++ rest ∧
      ClassHeader.parse line = .ok writtenBoxes.header := by
  intro line rest
  have sound : writtenBoxes.Sound :=
    { macros := by
        intro item member
        simp only [writtenBoxes, List.cons_append, List.nil_append, List.mem_cons, List.not_mem_nil,
          or_false] at member
        rcases member with rfl | rfl
        · exact ⟨by decide, by simp⟩
        · exact ⟨by decide, by simpa using by decide⟩
      params := by decide
      suffixed := by decide
      arguments := by
        intro parent given tokens own
        cases given
        cases own
        exact ⟨by decide, Or.inr ⟨"T".toList, by decide, by decide⟩⟩
      protocols := by
        intro parent given bare
        cases given
        cases bare }
  have lexed : lex line = writtenBoxes.tokens ++ rest := by decide +kernel
  exact ⟨sound, rfl, lexed, parse_header writtenBoxes sound line rest (Or.inr rfl) lexed⟩

end Headers

end HeaderBindings
