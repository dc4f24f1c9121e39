import HeaderBindings.Proofs.Script.Coverage
import HeaderBindings.Proofs.Script.Hygiene
import HeaderBindings.Proofs.Script.Nulls

/-!
Unions in the implementations of overloads. A union is read back as its alternatives, cut at the bars
outside all brackets. Types are adopted as whole texts, each once; an alternative is repeated if and only
if two types that are written differently share one.
-/

namespace HeaderBindings

namespace ScriptType

section Reading

/-- The first piece and the later pieces of a text cut at the bars outside all brackets. -/
def cutBars (depth : Int) : Text → Text × List Text
  | ' ' :: '|' :: ' ' :: text =>
    let tail := cutBars depth text
    if depth == 0 then ([], tail.1 :: tail.2) else (" | ".toList ++ tail.1, tail.2)
  | c :: text =>
    let tail := cutBars (depth + nesting c) text
    (c :: tail.1, tail.2)
  | [] => ([], [])

/-- The alternatives of a union. -/
def alternatives (text : Text) : List Text := (cutBars 0 text).1 :: (cutBars 0 text).2

theorem cutBars_cons {depth : Int} {c : Char} {text : Text} (next : text.head? ≠ some '|') :
    cutBars depth (c :: text) =
      (c :: (cutBars (depth + nesting c) text).1, (cutBars (depth + nesting c) text).2) := by
  rw [cutBars.eq_2]
  rintro rest rfl rfl
  exact next rfl

-- A text without bars is cut nowhere; a bar behind it is not part of the text's own.
theorem cutBars_append {depth behind : Nat} {front rest : Text}
    (closed : depthBehind? depth front = some behind) (bare : '|' ∉ front)
    (next : rest.head? ≠ some '|') :
    cutBars depth (front ++ rest) = (front ++ (cutBars behind rest).1, (cutBars behind rest).2) := by
  induction front generalizing depth with
  | nil =>
    cases closed
    rfl
  | cons c front ih =>
    rw [depthBehind_cons] at closed
    obtain ⟨middle, stepped, closed⟩ := Option.bind_eq_some_iff.mp closed
    have later : '|' ∉ front := fun member => bare (List.mem_cons_of_mem c member)
    have unbarred : (front ++ rest).head? ≠ some '|' := by
      cases front with
      | nil => exact next
      | cons d front => simpa using fun same : d = '|' => later (same ▸ List.mem_cons_self)
    rw [List.cons_append, cutBars_cons unbarred, ← (stepDepth_nesting stepped).1, ih closed later]
    rfl

theorem alternatives_bare {text : Text} (enclosed : Enclosed text) (bare : '|' ∉ text) :
    alternatives text = [text] := by
  have cut : cutBars 0 (text ++ []) = (text ++ [], []) := cutBars_append enclosed bare (by simp)
  rw [List.append_nil] at cut
  rw [alternatives, cut]

theorem alternatives_bar {front : Text} (enclosed : Enclosed front) (bare : '|' ∉ front) (rest : Text) :
    alternatives (front ++ " | ".toList ++ rest) = front :: alternatives rest := by
  have cut : cutBars 0 (front ++ (" | ".toList ++ rest)) = (front ++ [], alternatives rest) :=
    cutBars_append enclosed bare (by simp)
  rw [List.append_assoc, alternatives, cut, List.append_nil]

/-- A legal name is one alternative, so that the union that constructors return repeats none. -/
theorem alternatives_identifier {name : Text} (identifier : Reading.isIdentifier name = true) :
    alternatives name = [name] := by
  have each := (Reading.nameChars_of_identifier name identifier).2
  have marks : ∀ mark ∈ ['<', '(', '>', ')', ',', '|'], Token.isNameChar mark = false := by decide
  have unmarked (c : Char) (member : c ∈ name) : c ∉ ['<', '(', '>', ')', ',', '|'] := fun mark => by
    simpa [each c member] using marks c mark
  refine alternatives_bare (enclosed_of_plain fun c member => ?_) fun bar => ?_
  · exact fun mark => unmarked c member (List.mem_append_left ['|'] mark)
  · exact unmarked '|' bar (by decide)

/-- A text is read as alternatives of its own, also in front of others. -/
structure Joins (text : Text) (parts : List Text) : Prop where
  alone : alternatives text = parts
  before : ∀ rest, alternatives (text ++ " | ".toList ++ rest) = parts ++ alternatives rest

theorem joins_bare {text : Text} (enclosed : Enclosed text) (bare : '|' ∉ text) : Joins text [text] :=
  ⟨alternatives_bare enclosed bare, alternatives_bar enclosed bare⟩

theorem Joins.cons {front rest : Text} {parts : List Text} (enclosed : Enclosed front)
    (bare : '|' ∉ front) (joins : Joins rest parts) :
    Joins (front ++ " | ".toList ++ rest) (front :: parts) where
  alone := by rw [alternatives_bar enclosed bare, joins.alone]
  before later := by
    have inner : front ++ " | ".toList ++ rest ++ " | ".toList ++ later =
        front ++ " | ".toList ++ (rest ++ " | ".toList ++ later) := by
      simp only [List.append_assoc]
    rw [inner, alternatives_bar enclosed bare, joins.before, List.cons_append]

/-- The alternatives of a union are those of its texts. -/
theorem alternatives_join (texts : List Text) (some : texts ≠ [])
    (joins : ∀ text ∈ texts, Joins text (alternatives text)) :
    alternatives (Text.join " | ".toList texts) = texts.flatMap alternatives := by
  induction texts with
  | nil => exact absurd rfl some
  | cons text texts ih =>
    obtain ⟨first, later⟩ := List.forall_mem_cons.mp joins
    cases texts with
    | nil => rw [Text.join_single, List.flatMap_singleton]
    | cons next texts =>
      rw [Text.join_cons_cons, first.before, ih (List.cons_ne_nil next texts) later]
      exact List.flatMap_cons.symm

end Reading

section Mapped

/-- The type with null left out. -/
def withoutNull : ScriptType → ScriptType
  | nullable inner => inner
  | type => type

theorem Definite.withoutNull_orNullIf {type : ScriptType} (definite : type.Definite) (wanted : Bool) :
    (type.orNullIf wanted).withoutNull = type := by
  cases type with
  | nullable inner => exact definite.elim
  | _ => cases wanted <;> rfl

/-- Nothing inside the type may be null, but the whole may. -/
def DefiniteOrNull (type : ScriptType) : Prop := type.withoutNull.Definite

theorem definiteOrNull_ofNativeOrNull (native : Text) (wanted : Bool) :
    (ofNativeOrNull native wanted).DefiniteOrNull := by
  have definite := definite_ofNative native
  rw [DefiniteOrNull, ofNativeOrNull, definite.withoutNull_orNullIf]
  exact definite

/-- What a type is read as in a union. -/
def parts (type : ScriptType) : List Text :=
  type.withoutNull.text :: if type.isNullable then ["null".toList] else []

theorem text_ne_null (type : ScriptType) (definite : type.Definite) : type.text ≠ "null".toList := by
  intro same
  have ends := type.getLast_text
  rw [same] at ends
  cases type with
  | nullable inner => exact definite.elim
  | _ => simp [lastChar] at ends

theorem joins_text {type : ScriptType} (definite : type.DefiniteOrNull) :
    Joins type.text type.parts := by
  cases type with
  | nullable inner =>
    have null : Joins "null".toList ["null".toList] := joins_bare (by decide) (by decide)
    have whole := null.cons inner.enclosed_text (bar_of_definite definite)
    rw [List.append_assoc] at whole
    exact whole
  | _ => exact joins_bare (enclosed_text _) (bar_of_definite definite)

theorem nodup_parts {type : ScriptType} (definite : type.DefiniteOrNull) : type.parts.Nodup := by
  unfold parts
  split
  · exact List.nodup_cons.mpr ⟨by simpa using type.withoutNull.text_ne_null definite, List.nodup_singleton _⟩
  · exact List.nodup_singleton _

/-- Two types that are written differently share an alternative. -/
def Overlaps (left right : ScriptType) : Prop :=
  left.text ≠ right.text ∧
    (left.withoutNull.text = right.withoutNull.text ∨ left.isNullable = true ∧ right.isNullable = true)

theorem disjoint_parts_iff {left right : ScriptType} (leftDefinite : left.DefiniteOrNull)
    (rightDefinite : right.DefiniteOrNull) :
    List.Disjoint left.parts right.parts ↔
      left.withoutNull.text ≠ right.withoutNull.text ∧
        ¬ (left.isNullable = true ∧ right.isNullable = true) := by
  have leftOther := left.withoutNull.text_ne_null leftDefinite
  have rightOther := right.withoutNull.text_ne_null rightDefinite
  unfold parts
  cases left.isNullable <;> cases right.isNullable <;> simp_all [List.Disjoint, eq_comm]

/-- A union of mapped types, each written once, repeats no alternative if and only if no two of the types
overlap. -/
theorem nodup_union_iff (types : List ScriptType) (some : types ≠ [])
    (definite : ∀ type ∈ types, type.DefiniteOrNull) :
    (alternatives (Text.join " | ".toList (adopt [] (types.map text)))).Nodup ↔
      ∀ left ∈ types, ∀ right ∈ types, ¬ left.Overlaps right := by
  have joins (type : ScriptType) (member : type ∈ types) : Joins type.text type.parts :=
    joins_text (definite type member)
  have joined : ∀ word ∈ (types.map text).eraseDups, Joins word (alternatives word) := by
    intro word member
    obtain ⟨type, own, rfl⟩ := List.mem_map.mp (List.mem_eraseDups.mp member)
    have whole := joins type own
    rwa [← whole.alone] at whole
  have each : ∀ word ∈ types.map text, (alternatives word).Nodup := by
    intro word member
    obtain ⟨type, own, rfl⟩ := List.mem_map.mp member
    rw [(joins type own).alone]
    exact nodup_parts (definite type own)
  have written : (types.map text).eraseDups ≠ [] := by
    obtain ⟨type, member⟩ := List.exists_mem_of_ne_nil types some
    exact List.ne_nil_of_mem (List.mem_eraseDups.mpr (List.mem_map_of_mem member))
  rw [adopt_nil, alternatives_join _ written joined, nodup_flatMap_eraseDups_iff _ _ each,
    List.forall_mem_map]
  refine forall₂_congr fun left first => ?_
  rw [List.forall_mem_map]
  refine forall₂_congr fun right second => ?_
  rw [(joins left first).alone, (joins right second).alone,
    disjoint_parts_iff (definite left first) (definite right second), Overlaps]
  tauto

end Mapped

end ScriptType

open ScriptType

section Emitted

/-- The union of a parameter of an implementation. -/
def UnionParam.union (param : UnionParam) : Text := Text.join " | ".toList param.types

/-- The union that an implementation returns. -/
def Dispatch.returnUnion (dispatch : Dispatch) : Text := Text.join " | ".toList dispatch.returns

/-- No union of an implementation's head repeats an alternative. -/
structure Dispatch.UnionsApart (dispatch : Dispatch) : Prop where
  params : ∀ param ∈ dispatch.params, (alternatives param.union).Nodup
  returns : (alternatives dispatch.returnUnion).Nodup

namespace OverloadGroup

variable (className : Text) (group : OverloadGroup)

/-- The types that the methods' parameters at a position map to. -/
def mappedAt (position : Nat) : List ScriptType :=
  group.methods.filterMap fun method => method.params[position]?.map Parameter.scriptType

/-- Types in one place of a group do not overlap. A constructor returns instances of its class. -/
structure Apart : Prop where
  params : ∀ position, ∀ left ∈ group.mappedAt position, ∀ right ∈ group.mappedAt position,
    ¬ left.Overlaps right
  returns : group.isConstructor = false → ∀ left ∈ group.methods, ∀ right ∈ group.methods,
    ¬ left.scriptReturn.Overlaps right.scriptReturn
  instances : group.isConstructor = true → (alternatives className).Nodup

theorem typesAt_eq (position : Nat) :
    group.typesAt position = adopt [] ((group.mappedAt position).map text) := by
  unfold typesAt mappedAt
  rw [List.map_filterMap]
  simp only [Option.map_map, Function.comp_def]

theorem types_unionParams :
    group.unionParams.map (·.types) = (List.range group.width).map group.typesAt := by
  refine List.ext_getElem ?_ fun position _ _ => ?_
  · simp [unionParams, Identifier.length_distinct]
  · simp [unionParams]

theorem mappedAt_ne_nil {position : Nat} (inside : position < group.width) :
    group.mappedAt position ≠ [] := by
  obtain ⟨method, own, above⟩ := group.exists_method_of_lt_width position inside
  have here : method.params[position]? = some method.params[position] := List.getElem?_eq_getElem above
  have member : method.params[position].scriptType ∈ group.mappedAt position :=
    List.mem_filterMap.mpr ⟨method, own, by rw [here, Option.map_some]⟩
  exact List.ne_nil_of_mem member

theorem mappedAt_eq_nil {position : Nat} (outside : group.width ≤ position) :
    group.mappedAt position = [] := by
  refine List.filterMap_eq_nil_iff.mpr fun method own => ?_
  have below := group.arity_le_width method own
  rw [List.getElem?_eq_none (below.trans outside)]
  rfl

theorem definite_mappedAt (position : Nat) :
    ∀ type ∈ group.mappedAt position, type.DefiniteOrNull := by
  intro type member
  obtain ⟨method, _, here⟩ := List.mem_filterMap.mp member
  obtain ⟨param, _, rfl⟩ := Option.map_eq_some_iff.mp here
  exact definiteOrNull_ofNativeOrNull param.type param.nullable

theorem nodup_params_iff :
    (∀ param ∈ (group.dispatch className).params, (alternatives param.union).Nodup) ↔
      ∀ position, ∀ left ∈ group.mappedAt position, ∀ right ∈ group.mappedAt position,
        ¬ left.Overlaps right := by
  have unions : (∀ param ∈ group.unionParams, (alternatives param.union).Nodup) ↔
      ∀ position < group.width,
        (alternatives (Text.join " | ".toList (group.typesAt position))).Nodup := by
    have types := List.forall_mem_map (f := UnionParam.types) (l := group.unionParams)
      (P := fun texts => (alternatives (Text.join " | ".toList texts)).Nodup)
    rw [types_unionParams, List.forall_mem_map] at types
    simp only [List.mem_range] at types
    exact types.symm
  refine unions.trans (forall_congr' fun position => ?_)
  by_cases inside : position < group.width
  · rw [typesAt_eq, nodup_union_iff _ (group.mappedAt_ne_nil inside) (group.definite_mappedAt position)]
    exact forall_prop_of_true inside
  · rw [group.mappedAt_eq_nil (Nat.le_of_not_lt inside)]
    simp [inside]

theorem nodup_returns_iff (inhabited : group.methods ≠ []) :
    (alternatives (group.dispatch className).returnUnion).Nodup ↔
      (group.isConstructor = false → ∀ left ∈ group.methods, ∀ right ∈ group.methods,
          ¬ left.scriptReturn.Overlaps right.scriptReturn) ∧
        (group.isConstructor = true → (alternatives className).Nodup) := by
  have texts : (group.dispatch className).returns =
      adopt [] (group.methods.map fun method => (group.returnType className method).text) := by
    simp [Dispatch.returns, dispatch, overloadOf, signatureOf, Function.comp_def]
  unfold Dispatch.returnUnion
  rw [texts]
  cases kind : group.isConstructor with
  | true =>
    have single : adopt [] (group.methods.map fun method => (group.returnType className method).text) =
        [className] := by
      obtain ⟨first, later, methods⟩ := List.exists_cons_of_ne_nil inhabited
      simp [adopt_nil, returnType, kind, ReturnType.text, methods, List.eraseDups_cons]
    rw [single, Text.join_single]
    simp
  | false =>
    have mapped : (group.methods.map fun method => (group.returnType className method).text) =
        (group.methods.map Method.scriptReturn).map text := by
      simp [returnType, kind, ReturnType.text]
    have definite : ∀ type ∈ group.methods.map Method.scriptReturn, type.DefiniteOrNull := by
      intro type member
      obtain ⟨method, _, rfl⟩ := List.mem_map.mp member
      exact definiteOrNull_ofNativeOrNull method.returnType method.returnNullable
    rw [mapped, nodup_union_iff _ (by simpa using inhabited) definite]
    simp

theorem unionsApart_dispatch_iff (inhabited : group.methods ≠ []) :
    (group.dispatch className).UnionsApart ↔ group.Apart className := by
  have params := group.nodup_params_iff className
  have returns := group.nodup_returns_iff className inhabited
  constructor
  · intro apart
    obtain ⟨scripts, instances⟩ := returns.mp apart.returns
    exact ⟨params.mp apart.params, scripts, instances⟩
  · intro apart
    exact ⟨params.mpr apart.params, returns.mpr ⟨apart.returns, apart.instances⟩⟩

end OverloadGroup

namespace ClassDecl

/-- The implementation of an overload group is a member of its class, and its unions repeat no
alternative if and only if no types in one place overlap. -/
theorem unionsApart_iff (decl : ClassDecl) (group : OverloadGroup)
    (planned : group ∈ (MemberPlan.ofClass decl).groups) (overloaded : group.isOverloaded = true) :
    ScriptMember.overloaded (group.dispatch decl.name) ∈ decl.scriptMembers ∧
      ((group.dispatch decl.name).UnionsApart ↔ group.Apart decl.name) := by
  have inhabited := ((MemberPlan.settled_ofClass decl).groups group planned).1.inhabited
  have several : ∀ entry, group.entries ≠ [entry] := by
    rintro entry alone
    simp [OverloadGroup.isOverloaded, alone] at overloaded
  constructor
  · rw [← group.member_eq_dispatch decl.name several]
    exact decl.member_of_group group planned
  · exact group.unionsApart_dispatch_iff decl.name (by simpa [OverloadGroup.methods] using inhabited)

/-- A panel that shows a text or a number, neither of which need be there. -/
def showingPanel : ClassDecl where
  name := "Panel".toList
  methods :=
    [{ selector := "show:".toList, returnType := "void".toList, isStatic := false,
       params := [⟨"text".toList, "NSString".toList, true, []⟩] },
     { selector := "show:animated:".toList, returnType := "void".toList, isStatic := false,
       params := [⟨"count".toList, "NSNumber".toList, true, []⟩,
         ⟨"animated".toList, "BOOL".toList, false, []⟩] }]

/-- The one group of the panel. -/
def showing : OverloadGroup := ⟨false, "show".toList, false, MemberPlan.entries showingPanel⟩

theorem unionsApart_showing :
    showing ∈ (MemberPlan.ofClass showingPanel).groups ∧ showing.isOverloaded = true ∧
      ScriptMember.overloaded (showing.dispatch showingPanel.name) ∈ showingPanel.scriptMembers ∧
      ((showing.dispatch showingPanel.name).UnionsApart ↔ showing.Apart showingPanel.name) :=
  ⟨by decide, by decide, showingPanel.unionsApart_iff showing (by decide) (by decide)⟩

/-- Not every union lists each alternative once: of two types with null both are written whole. -/
theorem null_repeated :
    ¬ ∀ (decl : ClassDecl) (group : OverloadGroup), group ∈ (MemberPlan.ofClass decl).groups →
      group.isOverloaded = true → (group.dispatch decl.name).UnionsApart := by
  intro apart
  have unions := apart showingPanel showing (by decide) (by decide)
  have types := ((showing.unionsApart_dispatch_iff showingPanel.name (by decide)).mp unions).params 0
  have text : ofNative "NSString".toList = string := ofNative_string (by decide)
  have count : ofNative "NSNumber".toList = number := by
    have family : Family.ofBase (baseOf (Text.trim "NSNumber".toList)) = .number := by decide
    rw [ofNative_base (by decide) (by decide) (by decide), family]
    rfl
  have mapped : showing.mappedAt 0 = [nullable string, nullable number] := by
    change [(ofNative "NSString".toList).orNull, (ofNative "NSNumber".toList).orNull] = _
    rw [text, count]
    rfl
  rw [mapped] at types
  exact types _ List.mem_cons_self _ (List.mem_cons_of_mem _ List.mem_cons_self)
    ⟨by decide, Or.inr ⟨rfl, rfl⟩⟩

end ClassDecl

end Emitted

end HeaderBindings
