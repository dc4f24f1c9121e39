import HeaderBindings.Proofs.Plan.Structure
import HeaderBindings.Proofs.Script.Definitions

/-!
The member of a group of methods is read back as one definition, behind a signature for each of
several methods. Names made from identifiers keep the rules of the language but for two: a parameter
may be named by the word that only modules reserve, and the member by a word that makes it something
else than a method.
-/

namespace HeaderBindings

open Reading

/-- A method whose names are identifiers: its base name, its parameters where they are named, and
labels of such characters between the colons. -/
structure Method.Named (method : Method) : Prop where
  base : isIdentifier method.baseName = true
  selector : ∀ c ∈ method.selector, Token.isNameChar c = true ∨ c = ':'
  params : ∀ param ∈ method.params, param.name = [] ∨ isIdentifier param.name = true

structure ClassDecl.Named (decl : ClassDecl) : Prop where
  name : isIdentifier decl.name = true
  methods : ∀ method ∈ decl.methods, method.Named

section Names

/-- A name that generated code gives to a parameter: an identifier, and no keyword but one. -/
structure IsParameter (name : Text) : Prop where
  identifier : isIdentifier name = true
  keyword : name ∈ keywords → name = "await".toList

theorem IsParameter.variable {name : Text} (param : IsParameter name) : IsVariable name := by
  refine ⟨word_of_identifier name param.identifier, ?_, ?_, ?_⟩
  · rintro rfl
    exact absurd (param.keyword (by decide)) (by decide)
  · rintro rfl
    exact absurd (param.keyword (by decide)) (by decide)
  · cases name with
    | nil => cases param.identifier
    | cons c name =>
      have first := param.identifier
      simp only [isIdentifier, Bool.and_eq_true] at first
      have noDigit := Token.digit_of_nameStart c first.1
      simp [isNumeral, noDigit]

theorem isParameter_sanitize (name : Text) (identifier : isIdentifier name = true) :
    IsParameter (Identifier.sanitize name) :=
  ⟨identifier_sanitize name identifier, sanitize_eq_await name⟩

theorem isParameter_arg (n : Nat) : IsParameter ("arg".toList ++ Text.ofNat n) :=
  ⟨identifier_append _ _ (by decide) (nameChars_ofNat n),
    fun keyword => absurd keyword (not_keyword_arg n)⟩

theorem isParameter_numbered (base : Text) (n : Nat) (param : IsParameter base) :
    IsParameter (Identifier.numbered base n) :=
  ⟨identifier_numbered base n param.identifier,
    fun keyword => absurd keyword (not_keyword_numbered base n)⟩

theorem Method.isParameter_paramNames (method : Method) (named : method.Named) (name : Text)
    (member : name ∈ method.paramNames) : IsParameter name := by
  obtain ⟨wish, known, form⟩ := Identifier.mem_distinct _ _ name member
  obtain ⟨⟨param, index⟩, placed, rfl⟩ := List.mem_map.mp known
  have here : param ∈ method.params := List.fst_mem_of_mem_zipIdx placed
  have wished : IsParameter (param.wishedName index) := by
    unfold Parameter.wishedName
    split
    · exact isParameter_arg index
    · next written =>
      rcases named.params param here with empty | identifier
      · simp [empty] at written
      · exact isParameter_sanitize _ identifier
  rcases form with rfl | ⟨n, rfl⟩
  · exact wished
  · exact isParameter_numbered _ n wished

end Names

namespace OverloadGroup

variable (className : Text) (group : OverloadGroup)

/-- The names of the group's methods are identifiers. -/
def Named : Prop := ∀ entry ∈ group.entries, entry.method.Named

section Unions

theorem exists_method_of_lt_width (position : Nat) (inside : position < group.width) :
    ∃ method ∈ group.methods, position < method.arity := by
  have reached : ∀ (arities : List Nat) (bound : Nat), position < arities.foldl Nat.max bound →
      position < bound ∨ ∃ arity ∈ arities, position < arity := by
    intro arities
    induction arities with
    | nil => exact fun bound less => Or.inl less
    | cons arity arities ih =>
      intro bound less
      rcases ih _ less with here | ⟨other, known, above⟩
      · rcases Nat.lt_or_ge position bound with small | large
        · exact Or.inl small
        · refine Or.inr ⟨arity, List.mem_cons_self, ?_⟩
          simp only [Nat.max_def] at here
          split at here <;> omega
      · exact Or.inr ⟨other, List.mem_cons_of_mem arity known, above⟩
  rcases reached _ 0 inside with none | ⟨arity, known, above⟩
  · omega
  · obtain ⟨method, member, rfl⟩ := List.mem_map.mp known
    exact ⟨method, member, above⟩

-- A position's name comes from the first method that has the position.
theorem mem_paramNames_of_nameAt (position : Nat) (inside : position < group.width) :
    ∃ method ∈ group.methods, group.nameAt position ∈ method.paramNames := by
  obtain ⟨method, member, above⟩ := group.exists_method_of_lt_width position inside
  rw [← Method.length_paramNames] at above
  unfold nameAt
  cases found : group.methods.findSome? (·.paramNames[position]?) with
  | some name =>
    obtain ⟨first, known, here⟩ := List.exists_of_findSome?_eq_some found
    exact ⟨first, known, List.mem_of_getElem? here⟩
  | none =>
    have missing := List.findSome?_eq_none_iff.mp found method member
    simp [above] at missing

def unionNames : List Text := group.unionParams.map (·.name)

theorem unionNames_eq :
    group.unionNames = Identifier.distinct ["args".toList, "rest".toList]
      ((List.range group.width).map group.nameAt) := by
  refine List.ext_getElem ?_ fun position _ _ => ?_
  · simp [unionNames, unionParams, Identifier.length_distinct]
  · simp [unionNames, unionParams]

-- A name of the implementation is a name of a method, or a numbered one.
theorem mem_unionNames (name : Text) (member : name ∈ group.unionNames) :
    ∃ method ∈ group.methods, ∃ base ∈ method.paramNames,
      name = base ∨ ∃ n, name = Identifier.numbered base n := by
  rw [unionNames_eq] at member
  obtain ⟨base, known, form⟩ := Identifier.mem_distinct _ _ name member
  obtain ⟨position, inside, rfl⟩ := List.mem_map.mp known
  obtain ⟨method, own, here⟩ :=
    group.mem_paramNames_of_nameAt position (by simpa using inside)
  exact ⟨method, own, _, here, form⟩

theorem nodup_unionNames :
    group.unionNames.Nodup ∧ "args".toList ∉ group.unionNames ∧ "rest".toList ∉ group.unionNames := by
  rw [unionNames_eq]
  obtain ⟨apart, others⟩ := Identifier.nodup_distinct ["args".toList, "rest".toList]
    ((List.range group.width).map group.nameAt)
  exact ⟨apart, fun member => others _ member (by simp), fun member => others _ member (by simp)⟩

end Unions

section Definitions

theorem named_of_class (decl : ClassDecl) (named : decl.Named)
    (planned : group ∈ (MemberPlan.ofClass decl).groups) : group.Named := by
  intro entry member
  rw [MemberPlan.groups_ofClass] at planned
  have placed := ((MemberPlan.follows_bound decl).groups group planned).mem member
  have declared := MemberPlan.method_at decl entry (List.mem_filter.mp placed).1
  exact named.methods _ (List.mem_of_getElem? declared)

variable (identifier : isIdentifier className = true) (named : group.Named) (sound : group.Sound)
  (method : Method) (own : method ∈ group.methods)

include named in
theorem named_of_mem (own : method ∈ group.methods) : method.Named := by
  obtain ⟨entry, member, rfl⟩ := List.mem_map.mp own
  exact named entry member

theorem quotable_of_identifier (text : Text) (identifier : isIdentifier text = true) :
    Quotable text :=
  quotable_of_nameChars text fun c member =>
    Or.inl ((nameChars_of_identifier text identifier).2 c member)

include named sound in
theorem identifier_base : isIdentifier group.base = true := by
  obtain ⟨entry, member⟩ := List.exists_mem_of_ne_nil _ sound.inhabited
  have base := (named entry member).base
  have same := sound.key entry member
  simp only [Method.key, key, Prod.mk.injEq] at same
  rwa [same.2] at base

include identifier named own in
theorem readable_statement (arguments : CallArguments) (readable : arguments.Readable) :
    (group.statement className method arguments).Readable := by
  have selector := quotable_of_nameChars method.selector (group.named_of_mem named method own).selector
  have name := quotable_of_identifier className identifier
  have side : (Receiver.ofSide className method.isStatic).Readable := by
    cases method.isStatic
    · exact trivial
    · exact name
  unfold statement
  split
  · exact ⟨word_of_identifier className identifier, name, selector, readable⟩
  · dsimp only
    split
    · exact ⟨side, selector, readable⟩
    · exact ⟨side, selector, readable⟩

include identifier named sound own in
theorem readable_signature : (group.signatureOf className method).Readable where
  name := word_of_identifier _
    (identifier_sanitize _ (group.identifier_base named sound))
  params := by
    intro param member
    have name : param.name ∈ method.paramNames := by
      obtain ⟨i, inside, rfl⟩ := List.mem_iff_getElem.mp member
      simp only [signatureOf, Method.scriptParams, List.getElem_zipWith]
      exact List.getElem_mem _
    exact (method.isParameter_paramNames (group.named_of_mem named method own) _ name).variable.letters
  returns := by
    unfold signatureOf returnType
    dsimp only
    split
    · exact word_of_identifier className identifier
    · exact trivial

-- The types of a parameter of the implementation are those of parameters of the methods.
theorem type_of_unionParams (param : UnionParam) (member : param ∈ group.unionParams) (text : Text)
    (known : text ∈ param.types) : ∃ type : ScriptType, text = type.text := by
  obtain ⟨i, inside, rfl⟩ := List.mem_iff_getElem.mp member
  simp only [unionParams, List.getElem_zipWith] at known
  rcases mem_adopt _ _ _ known with none | listed
  · cases none
  · obtain ⟨method, _, here⟩ := List.mem_filterMap.mp listed
    obtain ⟨parameter, _, rfl⟩ := Option.map_eq_some_iff.mp here
    exact ⟨parameter.scriptType, rfl⟩

theorem types_of_unionParams (param : UnionParam) (member : param ∈ group.unionParams) :
    ∀ text ∈ param.types, Writes text IsType := by
  intro text known
  obtain ⟨type, rfl⟩ := group.type_of_unionParams param member text known
  exact type.writes_text

include named in
theorem isParameter_unionNames (name : Text) (member : name ∈ group.unionNames) :
    IsParameter name := by
  obtain ⟨method, own, base, known, rfl | ⟨n, rfl⟩⟩ := group.mem_unionNames name member
  · exact method.isParameter_paramNames (group.named_of_mem named method own) _ known
  · exact isParameter_numbered base n
      (method.isParameter_paramNames (group.named_of_mem named method own) _ known)

include identifier named sound in
theorem readable_dispatch : (group.dispatch className).Readable where
  name := word_of_identifier _
    (identifier_sanitize _ (group.identifier_base named sound))
  base := by
    intro c member
    have name := (nameChars_of_identifier _ (group.identifier_base named sound)).2 c member
    refine ⟨?_, ?_⟩ <;> rintro rfl <;> cases name
  names := by
    intro param member
    exact (group.isParameter_unionNames named _ (List.mem_map.mpr ⟨param, member, rfl⟩)).variable
  types := group.types_of_unionParams
  overloads := by
    intro overload member
    obtain ⟨method, own, rfl⟩ := List.mem_map.mp member
    exact ⟨group.readable_signature className identifier named sound method own,
      group.readable_statement className identifier named method own .all trivial⟩

/-- The definition that a group's member is, behind its signatures. -/
def definition : Definition :=
  match group.methods with
  | [method] => (group.signatureOf className method).definition
      (some [(group.statement className method (.named method.paramNames)).instruction])
  | _ => (group.dispatch className).definition

def signatures : List Definition :=
  match group.methods with
  | [_] => []
  | methods => methods.map fun method => (group.signatureOf className method).definition none

/-- The text of a group's member. -/
def source : Text := ScriptModule.write (group.member className).lines

theorem definition_of_single (method : Method) (alone : group.methods = [method]) :
    group.definition className = (group.signatureOf className method).definition
      (some [(group.statement className method (.named method.paramNames)).instruction]) := by
  simp [definition, alone]

theorem definition_of_several (several : ∀ method, group.methods ≠ [method]) :
    group.definition className = (group.dispatch className).definition := by
  unfold definition
  split
  · next method alone => exact absurd alone (several method)
  · rfl

-- A group has one method, or its member is an overloaded one.
theorem single_or_several :
    (∃ method, group.methods = [method] ∧ group.signatures className = [] ∧
        group.definition className = (group.signatureOf className method).definition
          (some [(group.statement className method (.named method.paramNames)).instruction]) ∧
        group.member className = group.function className method) ∨
      (∀ method, group.methods ≠ [method]) ∧
        group.signatures className =
          (group.dispatch className).overloads.map Overload.definition ∧
        group.definition className = (group.dispatch className).definition ∧
        group.member className = .overloaded (group.dispatch className) := by
  cases methods : group.methods with
  | nil =>
    refine Or.inr ⟨by simp, ?_, ?_, ?_⟩
    · simp [signatures, methods, dispatch]
    · simp [definition, methods]
    · simp [member, methods]
  | cons first later =>
    cases later with
    | nil =>
      refine Or.inl ⟨first, rfl, ?_, ?_, ?_⟩
      · simp [signatures, methods]
      · simp [definition, methods]
      · simp [member, methods]
    | cons second later =>
      refine Or.inr ⟨by simp, ?_, ?_, ?_⟩
      · simp [signatures, methods, dispatch, Overload.definition, overloadOf]
      · simp [definition, methods]
      · simp [member, methods]

include identifier named sound in
/-- The text of a group's member is read back as its signatures and its definition. -/
theorem definitions_of_source :
    (lexemes (group.source className)).bind definitions? =
      some (group.signatures className ++ [group.definition className]) := by
  unfold source
  rcases group.single_or_several className with
    ⟨method, alone, signatures, definition, member⟩ | ⟨_, signatures, definition, member⟩
  · have own : method ∈ group.methods := by simp [alone]
    have names : (CallArguments.named method.paramNames).Readable := fun name member =>
      (method.isParameter_paramNames (group.named_of_mem named method own) name member).variable
    rw [signatures, definition, member]
    exact definitions_of_function _ _ _
      (group.readable_signature className identifier named sound method own)
      (group.readable_statement className identifier named method own _ names)
  · rw [signatures, definition, member]
    exact (group.dispatch className).definitions_of_dispatch
      (group.readable_dispatch className identifier named sound)

end Definitions

section Rules

variable (identifier : isIdentifier className = true) (named : group.Named) (sound : group.Sound)

/-- What the names of a group must not be for its member to be a method at all. -/
structure Lawful : Prop where
  name : Identifier.sanitize group.base ≠
    (if group.emitsStatic then "prototype".toList else "constructor".toList)
  params : ∀ method ∈ group.methods, "await".toList ∉ method.paramNames

theorem restLast_behind (formals last : List Formal) (short : last.length ≤ 1)
    (plain : ∀ formal ∈ formals, formal.rest = false) : restLast (formals ++ last) = true := by
  induction formals with
  | nil =>
    match last, short with
    | [], _ => rfl
    | [_], _ => simp [restLast]
  | cons formal later ih =>
    have tail := ih fun next member => plain next (List.mem_cons_of_mem formal member)
    simp [restLast, plain formal List.mem_cons_self, tail]

theorem names_formals (method : Method) :
    ((group.signatureOf className method).formals.map (·.name)) = method.paramNames := by
  have zipped : ∀ (names : List Text) (params : List Parameter), names.length = params.length →
      ((List.zipWith (fun name param => ScriptParam.mk name (Parameter.scriptType param)) names
        params).map ScriptParam.formal).map (·.name) = names := by
    intro names
    induction names with
    | nil => simp
    | cons name names ih =>
      intro params same
      cases params with
      | nil => simp at same
      | cons param params => simpa [ScriptParam.formal] using ih params (by simpa using same)
  exact zipped _ _ method.length_paramNames

theorem legal_iff (definition : Definition) :
    definition.legal = true ↔
      (definition.formals.map (·.name)).Nodup ∧
        (∀ name ∈ definition.formals.map (·.name), name ∉ keywords) ∧
        restLast definition.formals = true ∧
        definition.name ≠
          (if definition.isStatic then "prototype".toList else "constructor".toList) := by
  unfold Definition.legal
  simp only [Bool.and_eq_true, decide_eq_true_eq, List.all_eq_true, Bool.not_eq_true',
    List.contains_eq_mem, decide_eq_false_iff_not, bne_iff_ne, ne_eq, List.mem_map,
    forall_exists_index, and_imp, forall_apply_eq_imp_iff₂, and_assoc]

-- Among parameters only the one word can be a keyword.
theorem no_keyword_iff (names : List Text) (params : ∀ name ∈ names, IsParameter name) :
    (∀ name ∈ names, name ∉ keywords) ↔ "await".toList ∉ names := by
  constructor
  · exact fun free member => free _ member (by decide)
  · intro absent name member keyword
    exact absent ((params name member).keyword keyword ▸ member)

include named in
theorem legal_signature_iff (method : Method) (own : method ∈ group.methods)
    (body : Option (List Instruction)) :
    ((group.signatureOf className method).definition body).legal = true ↔
      Identifier.sanitize group.base ≠
        (if group.emitsStatic then "prototype".toList else "constructor".toList) ∧
      "await".toList ∉ method.paramNames := by
  have names := group.names_formals className method
  have plain : ∀ formal ∈ (group.signatureOf className method).formals, formal.rest = false := by
    intro formal member
    obtain ⟨param, _, rfl⟩ := List.mem_map.mp member
    rfl
  have last := restLast_behind _ [] (by simp) plain
  rw [List.append_nil] at last
  have free := no_keyword_iff method.paramNames
    (method.isParameter_paramNames (group.named_of_mem named method own))
  rw [legal_iff]
  simp only [Signature.definition, names, free, method.nodup_paramNames, last, true_and]
  exact and_comm

include named in
theorem not_keyword_unionNames (lawful : group.Lawful) (name : Text)
    (known : name ∈ group.unionNames) : name ∉ keywords := by
  intro keyword
  obtain ⟨method, own, base, here, rfl | ⟨n, rfl⟩⟩ := group.mem_unionNames name known
  · have param := method.isParameter_paramNames (group.named_of_mem named method own) _ here
    exact lawful.params method own (param.keyword keyword ▸ here)
  · exact not_keyword_numbered base n keyword

include named in
theorem legal_dispatch (lawful : group.Lawful) :
    (group.dispatch className).definition.legal = true := by
  obtain ⟨apart, noArgs, noRest⟩ := group.nodup_unionNames
  have names : (group.dispatch className).formals.map (·.name) =
      group.unionNames ++ ["rest".toList] := by
    simp [Dispatch.formals, dispatch, unionNames, UnionParam.formal, Dispatch.restFormal,
      Function.comp_def]
  have plain : ∀ formal ∈ group.unionParams.map UnionParam.formal, formal.rest = false := by
    intro formal member
    obtain ⟨param, _, rfl⟩ := List.mem_map.mp member
    rfl
  refine (legal_iff _).mpr ⟨?_, ?_, restLast_behind _ [Dispatch.restFormal] (by simp) plain,
    lawful.name⟩
  · have own : (group.dispatch className).definition.formals.map (·.name) =
        group.unionNames ++ ["rest".toList] := names
    rw [own]
    refine List.nodup_append.mpr ⟨apart, List.nodup_singleton _, ?_⟩
    intro name known last isLast same
    rw [List.mem_singleton.mp isLast] at same
    exact noRest (same ▸ known)
  · intro name member keyword
    have own : name ∈ group.unionNames ++ ["rest".toList] := names ▸ member
    rcases List.mem_append.mp own with known | last
    · exact group.not_keyword_unionNames named lawful name known keyword
    · rw [List.mem_singleton.mp last] at keyword
      exact absurd keyword (by decide)

include named sound in
/-- The definitions that a group writes are legal exactly if the group is lawful. -/
theorem all_legal_iff :
    (group.signatures className ++ [group.definition className]).all Definition.legal = true ↔
      group.Lawful := by
  rcases group.single_or_several className with
    ⟨method, alone, signatures, definition, _⟩ | ⟨several, signatures, definition, _⟩
  · rw [signatures, definition]
    simp only [List.nil_append, List.all_cons, List.all_nil, Bool.and_true]
    rw [group.legal_signature_iff className named method (by simp [alone])]
    exact ⟨fun legal => ⟨legal.1, by simpa [alone] using legal.2⟩,
      fun lawful => ⟨lawful.name, lawful.params method (by simp [alone])⟩⟩
  · rw [signatures, definition]
    simp only [List.all_append, List.all_map, List.all_cons, List.all_nil, Bool.and_true,
      Bool.and_eq_true]
    constructor
    · rintro ⟨legal, _⟩
      -- The signatures say all; the implementation adds no name that could be a keyword.
      have each : ∀ method ∈ group.methods, _ := fun method own =>
        (group.legal_signature_iff className named method own none).mp
          (List.all_eq_true.mp legal _ (List.mem_map.mpr ⟨method, own, rfl⟩))
      obtain ⟨entry, member⟩ := List.exists_mem_of_ne_nil _ sound.inhabited
      exact ⟨(each _ (List.mem_map.mpr ⟨entry, member, rfl⟩)).1, fun method own => (each method own).2⟩
    · intro lawful
      refine ⟨List.all_eq_true.mpr ?_, group.legal_dispatch className named lawful⟩
      intro overload member
      obtain ⟨method, own, rfl⟩ := List.mem_map.mp member
      exact (group.legal_signature_iff className named method own none).mpr
        ⟨lawful.name, lawful.params method own⟩

theorem implementation_behind (signatures : List Definition) (last : Definition)
    (body : last.body.isSome = true)
    (same : ∀ signature ∈ signatures, signature.body = none ∧ signature.name = last.name ∧
      signature.isStatic = last.isStatic) :
    implementation? (signatures ++ [last]) = some last := by
  induction signatures with
  | nil => simp [implementation?, body]
  | cons first later ih =>
    have tail := ih fun next member => same next (List.mem_cons_of_mem first member)
    obtain ⟨none, name, side⟩ := same first List.mem_cons_self
    cases later with
    | nil => simpa [implementation?, none, name, side] using tail
    | cons next later =>
      obtain ⟨_, nextName, nextSide⟩ := same next (by simp)
      simpa [implementation?, none, name, side, nextName, nextSide] using tail

include identifier named sound in
/-- The text of a group's member writes a method exactly if the group is lawful, and then it is the
one that the group defines. -/
theorem method_of_source_iff (method : Definition) :
    method? (group.source className) = some method ↔
      group.Lawful ∧ method = group.definition className := by
  have read := group.definitions_of_source className identifier named sound
  have legal := group.all_legal_iff className named sound
  have found : implementation? (group.signatures className ++ [group.definition className]) =
      some (group.definition className) := by
    rcases group.single_or_several className with
      ⟨only, _, signatures, definition, _⟩ | ⟨_, signatures, definition, _⟩
    · rw [signatures, definition]
      exact implementation_behind [] _ rfl (by simp)
    · rw [signatures, definition]
      refine implementation_behind _ _ rfl ?_
      intro signature member
      obtain ⟨overload, known, rfl⟩ := List.mem_map.mp member
      obtain ⟨only, _, rfl⟩ := List.mem_map.mp known
      exact ⟨rfl, rfl, rfl⟩
  obtain ⟨lexemes, scanned, parsed⟩ := Option.bind_eq_some_iff.mp read
  simp only [method?, scanned, parsed, Option.bind_eq_bind, Option.bind_some]
  by_cases lawful : group.Lawful
  · rw [if_pos (legal.mpr lawful), found]
    simp [lawful, eq_comm]
  · rw [if_neg fun all => lawful (legal.mp all)]
    simp [lawful]

end Rules

end OverloadGroup

end HeaderBindings
