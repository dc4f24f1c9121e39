import HeaderBindings.Proofs.Script.Hygiene
import HeaderBindings.Proofs.Script.Unions

/-!
The parameter lists of generated members. Every parameter has a name of its own that is no reserved
word; the list of an implementation is as long as the widest of its overloads, and each place lists
the types that overloads have there.
-/

namespace HeaderBindings

namespace Identifier

-- Reserved words are in lower case.
theorem not_reserved_of_not_lower {name : Text} (other : ∃ c ∈ name, c.isLower = false) :
    name ∉ reserved := by
  have lower : ∀ word ∈ reserved, ∀ c ∈ word, c.isLower = true := by decide
  obtain ⟨c, member, capital⟩ := other
  intro known
  rw [lower name known c member] at capital
  cases capital

theorem not_reserved_numbered (base : Text) (n : Nat) : numbered base n ∉ reserved :=
  not_reserved_of_not_lower (exists_not_lower_numbered base n)

theorem not_reserved_arg (n : Nat) : "arg".toList ++ Text.ofNat n ∉ reserved :=
  not_reserved_of_not_lower (exists_not_lower_arg n)

theorem not_reserved_distinct (inUse bases : List Text) (free : ∀ base ∈ bases, base ∉ reserved) :
    ∀ name ∈ distinct inUse bases, name ∉ reserved := by
  intro name member
  obtain ⟨base, known, rfl | ⟨n, rfl⟩⟩ := mem_distinct inUse bases name member
  · exact free _ known
  · exact not_reserved_numbered base n

/-- Names that parameters can have together, beside names that are taken. -/
structure WellNamed (taken names : List Text) : Prop where
  apart : names.Nodup
  allowed : ∀ name ∈ names, name ∉ reserved
  free : ∀ name ∈ names, name ∉ taken

theorem wellNamed_distinct (taken bases : List Text) (allowed : ∀ base ∈ bases, base ∉ reserved) :
    WellNamed taken (distinct taken bases) where
  apart := (nodup_distinct taken bases).1
  allowed := not_reserved_distinct taken bases allowed
  free := (nodup_distinct taken bases).2

end Identifier

open Identifier

theorem Parameter.not_reserved_wishedName (param : Parameter) (index : Nat) :
    param.wishedName index ∉ reserved := by
  unfold wishedName
  split
  · exact not_reserved_arg index
  · exact not_reserved_sanitize param.name

theorem Method.wellNamed_paramNames (method : Method) : WellNamed [] method.paramNames := by
  apply wellNamed_distinct
  intro base member
  obtain ⟨⟨param, index⟩, _, rfl⟩ := List.mem_map.mp member
  exact param.not_reserved_wishedName index

theorem Method.names_scriptParams (method : Method) :
    method.scriptParams.map (·.name) = method.paramNames := by
  apply List.ext_getElem
  · rw [List.length_map, length_scriptParams, length_paramNames]
  · intro position _ _
    simp [scriptParams]

namespace OverloadGroup

variable (group : OverloadGroup)

theorem wellNamed_unionNames : WellNamed ["args".toList, "rest".toList] group.unionNames := by
  rw [unionNames_eq]
  apply wellNamed_distinct
  intro base member
  obtain ⟨position, inside, rfl⟩ := List.mem_map.mp member
  obtain ⟨method, _, known⟩ := group.mem_paramNames_of_nameAt position (List.mem_range.mp inside)
  exact method.wellNamed_paramNames.allowed _ known

/-- Parameters of an implementation that stand for those of every overload: as many as the widest
overload has, each with the types that overloads have in its place, and no type twice. -/
structure Covers (params : List UnionParam) : Prop where
  fits : ∀ method ∈ group.methods, method.arity ≤ params.length
  reached : params = [] ∨ ∃ method ∈ group.methods, method.arity = params.length
  listed : ∀ (position : Nat) (param : UnionParam), params[position]? = some param → param.types.Nodup ∧
    ∀ type, type ∈ param.types ↔ ∃ method ∈ group.methods, ∃ own : Parameter,
      method.params[position]? = some own ∧ own.scriptType.text = type

theorem length_unionParams : group.unionParams.length = group.width := by
  simp [unionParams, Identifier.length_distinct]

-- The width is the number of parameters of some method, unless no method has any.
theorem width_reached : group.width = 0 ∨ ∃ method ∈ group.methods, method.arity = group.width := by
  rcases Nat.eq_zero_or_pos group.width with none | some
  · exact Or.inl none
  · obtain ⟨method, own, above⟩ := group.exists_method_of_lt_width (group.width - 1) (by omega)
    have below := group.arity_le_width method own
    exact Or.inr ⟨method, own, by omega⟩

theorem types_of_position {position : Nat} {param : UnionParam}
    (here : group.unionParams[position]? = some param) : param.types = group.typesAt position := by
  have inside : position < group.width := by
    rw [← length_unionParams]
    exact (List.getElem?_eq_some_iff.mp here).1
  have types := congrArg (·[position]?) group.types_unionParams
  simpa [here, inside] using types

theorem mem_typesAt_iff (position : Nat) (type : Text) :
    type ∈ group.typesAt position ↔ ∃ method ∈ group.methods, ∃ own : Parameter,
      method.params[position]? = some own ∧ own.scriptType.text = type := by
  unfold typesAt
  rw [adopt_nil, List.mem_eraseDups, List.mem_filterMap]
  simp only [Option.map_eq_some_iff]

theorem covers_unionParams : group.Covers group.unionParams where
  fits method own := by
    rw [length_unionParams]
    exact group.arity_le_width method own
  reached := by
    rw [← List.length_eq_zero_iff, length_unionParams]
    exact group.width_reached
  listed position param here := by
    rw [group.types_of_position here]
    constructor
    · rw [typesAt, adopt_nil]
      exact nodup_eraseDups _
    · exact group.mem_typesAt_iff position

end OverloadGroup

/-- Parameter lists are well named and cover their overloads. A method's parameters have one name
each, none twice and none reserved, and are written under these names. The parameters of an
implementation are as many as its widest overload has; their names are not taken by its body besides,
and each of them lists exactly the types of the overloads' parameters in its place. -/
theorem parameterLists_wellNamed :
    (∀ method : Method, method.paramNames.length = method.params.length ∧
      method.scriptParams.map (·.name) = method.paramNames ∧ WellNamed [] method.paramNames) ∧
    ∀ group : OverloadGroup,
      WellNamed ["args".toList, "rest".toList] (group.unionParams.map (·.name)) ∧
        group.Covers group.unionParams := by
  constructor
  · intro method
    exact ⟨method.length_paramNames, method.names_scriptParams, method.wellNamed_paramNames⟩
  · intro group
    exact ⟨group.wellNamed_unionNames, group.covers_unionParams⟩

end HeaderBindings
