import HeaderBindings.Proofs.Script.Brackets
import HeaderBindings.Proofs.Text.Adoption

/-!
How types are written. The last character of a type's text tells the outermost form of the type apart
from all others but for maps and sets, which differ in the first; brackets are closed in their turn, so
that the comma between the two parts of a map is found. The text tells two types apart unless they
differ in the names of opaque objects only.
-/

namespace HeaderBindings

namespace ScriptType

section Forms

theorem text_map (key value : ScriptType) :
    (map key value).text = "Map<".toList ++ key.text ++ ", ".toList ++ value.text ++ ['>'] := rfl

theorem text_set (element : ScriptType) : (set element).text = "Set<".toList ++ element.text ++ ['>'] := rfl

theorem text_nullable (inner : ScriptType) : (nullable inner).text = inner.text ++ " | null".toList := rfl

/-- The text of an array's element, in parentheses where it may be null. -/
def grouped (type : ScriptType) : Text :=
  if type.isNullable then ['('] ++ type.text ++ [')'] else type.text

theorem text_array (element : ScriptType) : (array element).text = element.grouped ++ ['[', ']'] := by
  unfold text grouped
  split <;> simp

/-- The type with the names of its opaque objects forgotten. -/
def unnamed : ScriptType → ScriptType
  | array element => array element.unnamed
  | map key value => map key.unnamed value.unnamed
  | set element => set element.unnamed
  | nullable inner => nullable inner.unnamed
  | opaqueObject _ => opaqueObject []
  | type => type

@[simp] theorem isNullable_unnamed (type : ScriptType) : type.unnamed.isNullable = type.isNullable := by
  cases type <;> rfl

-- Names of opaque objects are not written.
theorem text_unnamed (type : ScriptType) : type.unnamed.text = type.text := by
  induction type with
  | array element ih => simp only [unnamed, text_array, grouped, isNullable_unnamed, ih]
  | map key value keyIh valueIh => simp only [unnamed, text_map, keyIh, valueIh]
  | set element ih => simp only [unnamed, text_set, ih]
  | nullable inner ih => simp only [unnamed, text_nullable, ih]
  | _ => rfl

/-- The character that a type's text ends with. -/
def lastChar : ScriptType → Char
  | void => 'd'
  | boolean => 'n'
  | number => 'r'
  | string => 'g'
  | array _ => ']'
  | map _ _ | set _ => '>'
  | nullable _ => 'l'
  | opaqueObject _ => 't'

theorem getLast_text (type : ScriptType) : type.text.getLast? = some type.lastChar := by
  cases type with
  | array element => rw [text_array, List.getLast?_append]; rfl
  | map key value => rw [text_map, List.getLast?_concat]; rfl
  | set element => rw [text_set, List.getLast?_concat]; rfl
  | nullable inner => rw [text_nullable, List.getLast?_append]; rfl
  | _ => rfl

theorem lastChar_of_text {left right : ScriptType} (same : left.text = right.text) :
    left.lastChar = right.lastChar := by
  have ends := congrArg List.getLast? same
  rwa [getLast_text, getLast_text, Option.some.injEq] at ends

-- No type ends with a parenthesis, so that one in parentheses is no other type.
theorem text_of_grouped {left right : ScriptType} (same : left.grouped = right.grouped) :
    left.text = right.text := by
  have unparenthesized (inner : Text) (type : ScriptType) : ['('] ++ inner ++ [')'] ≠ type.text := by
    intro whole
    have ends := type.getLast_text
    rw [← whole, List.getLast?_concat, Option.some.injEq] at ends
    cases type <;> simp [lastChar] at ends
  unfold grouped at same
  split at same
  · split at same
    · simpa using same
    · exact absurd same (unparenthesized _ _)
  · split at same
    · exact absurd same.symm (unparenthesized _ _)
    · exact same

end Forms

section Nesting

theorem enclosed_text (type : ScriptType) : Enclosed type.text := by
  unfold Enclosed
  induction type with
  | array element ih =>
    rw [text_array, grouped]
    split <;> simp [depthBehind_append, depthBehind_cons, stepDepth?, Enclosed.at_depth ih]
  | map key value keyIh valueIh =>
    simp [text_map, depthBehind_append, depthBehind_cons, stepDepth?, Enclosed.at_depth keyIh,
      Enclosed.at_depth valueIh]
  | set element ih => simp [text_set, depthBehind_append, depthBehind_cons, stepDepth?, Enclosed.at_depth ih]
  | nullable inner ih =>
    simp [text_nullable, depthBehind_append, depthBehind_cons, stepDepth?, Enclosed.at_depth ih]
  | _ => rfl

-- The first comma outside all brackets stands behind the key.
theorem parts_of_text_map {key value otherKey otherValue : ScriptType}
    (same : (map key value).text = (map otherKey otherValue).text) :
    key.text = otherKey.text ∧ value.text = otherValue.text := by
  have inner : key.text ++ ',' :: ([' '] ++ value.text ++ ['>']) =
      otherKey.text ++ ',' :: ([' '] ++ otherValue.text ++ ['>']) := by
    simpa [text_map] using same
  have keys := congrArg (fun text => (cutArguments 0 text).1) inner
  simp only [cutArguments_comma key.enclosed_text, cutArguments_comma otherKey.enclosed_text] at keys
  rw [keys] at inner
  exact ⟨keys, by simpa using inner⟩

theorem map_ne_set (key value element : ScriptType) : (map key value).text ≠ (set element).text := by
  intro same
  simp [text_map, text_set] at same

end Nesting

section Unambiguity

-- The last characters leave the same outermost form, and its parts are written alike.
theorem unnamed_of_text {left right : ScriptType} (same : left.text = right.text) :
    left.unnamed = right.unnamed := by
  have ends := lastChar_of_text same
  induction left generalizing right with
  | void =>
    cases right with
    | void => rfl
    | _ => simp [lastChar] at ends
  | boolean =>
    cases right with
    | boolean => rfl
    | _ => simp [lastChar] at ends
  | number =>
    cases right with
    | number => rfl
    | _ => simp [lastChar] at ends
  | string =>
    cases right with
    | string => rfl
    | _ => simp [lastChar] at ends
  | array element ih =>
    cases right with
    | array other =>
      rw [text_array, text_array, List.append_cancel_right_eq] at same
      have elements := text_of_grouped same
      rw [unnamed, unnamed, ih elements (lastChar_of_text elements)]
    | _ => simp [lastChar] at ends
  | map key value keyIh valueIh =>
    cases right with
    | map otherKey otherValue =>
      obtain ⟨keys, values⟩ := parts_of_text_map same
      rw [unnamed, unnamed, keyIh keys (lastChar_of_text keys), valueIh values (lastChar_of_text values)]
    | set element => exact absurd same (map_ne_set key value element)
    | _ => simp [lastChar] at ends
  | set element ih =>
    cases right with
    | set other =>
      have elements : element.text = other.text := by simpa [text_set] using same
      rw [unnamed, unnamed, ih elements (lastChar_of_text elements)]
    | map key value => exact absurd same.symm (map_ne_set key value element)
    | _ => simp [lastChar] at ends
  | nullable inner ih =>
    cases right with
    | nullable other =>
      have inners : inner.text = other.text := by simpa [text_nullable] using same
      rw [unnamed, unnamed, ih inners (lastChar_of_text inners)]
    | _ => simp [lastChar] at ends
  | opaqueObject name =>
    cases right with
    | opaqueObject other => rfl
    | _ => simp [lastChar] at ends

theorem text_eq_iff (left right : ScriptType) : left.text = right.text ↔ left.unnamed = right.unnamed := by
  constructor
  · exact unnamed_of_text
  · intro same
    rw [← text_unnamed left, same, text_unnamed]

/-- Two types are written alike if and only if they are the same up to the names of opaque objects, so
that the texts of a list of types are repeated where the types are, and nowhere else. -/
theorem text_unambiguous :
    (∀ left right : ScriptType, left.text = right.text ↔ left.unnamed = right.unnamed) ∧
      ∀ types : List ScriptType,
        adopt [] (types.map text) = ((types.map unnamed).eraseDups).map text := by
  refine ⟨text_eq_iff, fun types => ?_⟩
  have written : types.map text = (types.map unnamed).map text := by
    rw [List.map_map]
    exact List.map_congr_left fun type _ => type.text_unnamed.symm
  rw [adopt_nil, written]
  refine eraseDups_map text _ fun left first right second same => ?_
  obtain ⟨_, _, rfl⟩ := List.mem_map.mp first
  obtain ⟨_, _, rfl⟩ := List.mem_map.mp second
  rw [text_unnamed, text_unnamed] at same
  exact unnamed_of_text same

end Unambiguity

end ScriptType

end HeaderBindings
