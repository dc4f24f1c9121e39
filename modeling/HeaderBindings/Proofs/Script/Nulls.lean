import HeaderBindings.Proofs.Script.Mapping
import HeaderBindings.Proofs.Script.TypeText
import HeaderBindings.Proofs.Text.Occurrences

/-!
Null in mapped types. No part of what a native type maps to may be null; null is asked for afterwards, any
number of times, and is written once if it is asked for at all.
-/

namespace HeaderBindings

namespace ScriptType

section Definite

/-- No part of the type may be null. -/
def Definite : ScriptType → Prop
  | nullable _ => False
  | array element | set element => element.Definite
  | map key value => key.Definite ∧ value.Definite
  | _ => True

theorem Definite.isNullable {type : ScriptType} (definite : type.Definite) : type.isNullable = false := by
  cases type with
  | nullable inner => exact definite.elim
  | _ => rfl

theorem definite_ofFamily (name : Text) {args : List ScriptType} (each : ∀ arg ∈ args, arg.Definite)
    (family : Family) : (ofFamily name args family).Definite := by
  have given (arg? : Option ScriptType) (known : ∀ arg ∈ arg?, arg ∈ args) :
      (arg?.getD anyObject).Definite := by
    cases arg? with
    | none => trivial
    | some arg => exact each arg (known arg rfl)
  have first := given args.head? fun arg => List.mem_of_mem_head?
  have second := given args.tail.head? fun arg member =>
    List.mem_of_mem_tail (List.mem_of_mem_head? member)
  cases family with
  | array | set => exact first
  | map => exact ⟨first, second⟩
  | _ => trivial

/-- A native type maps to a type with no null in it, at any depth. -/
theorem definite_ofNative (native : Text) : (ofNative native).Definite := by
  induction size : native.length using Nat.strongRecOn generalizing native with
  | ind n ih =>
    by_cases written : native.trim = []
    · rw [ofNative, if_pos (by simpa using written)]
      trivial
    rcases ofNative_cases written with ⟨_, mapped⟩ | ⟨_, mapped⟩ | ⟨_, mapped⟩
    · rw [mapped]
      trivial
    · rw [mapped]
      trivial
    · rw [mapped]
      refine definite_ofFamily _ (fun arg member => ?_) _
      obtain ⟨argument, known, rfl⟩ := List.mem_map.mp member
      have shorter := length_argumentOf native.trim argument known
      have trimmed := Text.length_trim native
      exact ih argument.length (by omega) argument rfl

theorem bar_of_definite {type : ScriptType} (definite : type.Definite) : '|' ∉ type.text := by
  induction type with
  | array element ih =>
    have inner : element.Definite := definite
    rw [text_array, grouped, inner.isNullable]
    simpa using ih inner
  | map key value keyIh valueIh => simp [text_map, keyIh definite.1, valueIh definite.2]
  | set element ih => simp [text_set, ih definite]
  | nullable inner => exact definite.elim
  | opaqueObject name => exact (by decide : '|' ∉ "NativeObject".toList)
  | _ => decide

end Definite

section Steps

/-- A step that asks for null, always or if it is wanted. -/
inductive NullStep where
  | orNull
  | orNullIf (wanted : Bool)
  deriving DecidableEq, Repr

namespace NullStep

def apply (type : ScriptType) : NullStep → ScriptType
  | orNull => type.orNull
  | orNullIf wanted => type.orNullIf wanted

def asks : NullStep → Bool
  | orNull => true
  | orNullIf wanted => wanted

theorem apply_eq (type : ScriptType) (step : NullStep) : step.apply type = type.orNullIf step.asks := by
  cases step <;> rfl

end NullStep

theorem orNull_orNull (type : ScriptType) : type.orNull.orNull = type.orNull := by
  cases type <;> rfl

theorem orNullIf_orNullIf (type : ScriptType) (first second : Bool) :
    (type.orNullIf first).orNullIf second = type.orNullIf (first || second) := by
  cases first with
  | false => rfl
  | true =>
    cases second with
    | false => rfl
    | true => exact type.orNull_orNull

-- The steps ask together for what one of them asks for.
theorem foldl_nullSteps (type : ScriptType) (wanted : Bool) (steps : List NullStep) :
    steps.foldl NullStep.apply (type.orNullIf wanted) =
      type.orNullIf (wanted || steps.any NullStep.asks) := by
  induction steps generalizing wanted with
  | nil => simp
  | cons step steps ih =>
    rw [List.foldl_cons, NullStep.apply_eq, orNullIf_orNullIf, ih, List.any_cons, Bool.or_assoc]

theorem Definite.orNull {type : ScriptType} (definite : type.Definite) (written : type ≠ void) :
    type.orNull = nullable type := by
  cases type with
  | void => exact absurd rfl written
  | nullable inner => exact definite.elim
  | _ => rfl

end Steps

section Counting

theorem occurrences_ending {front : Text} (free : '|' ∉ front) :
    Text.occurrences " | null".toList (front ++ " | null".toList) = 1 := by
  induction front with
  | nil => decide
  | cons c front ih =>
    have later : '|' ∉ front := fun member => free (List.mem_cons_of_mem c member)
    -- The second character of an occurrence is the bar, which stands in the ending only.
    have starts : ¬ " | null".toList <+: c :: (front ++ " | null".toList) := by
      rintro ⟨rest, whole⟩
      have second := congrArg (·[1]?) whole
      cases front with
      | nil => simp at second
      | cons d front => simp_all
    rw [List.cons_append, Text.occurrences_cons, ih later, if_neg]
    rwa [Text.startsWith_iff]

theorem occurrences_orNullIf {type : ScriptType} (definite : type.Definite) (wanted : Bool) :
    Text.occurrences " | null".toList (type.orNullIf wanted).text =
      if type ≠ void ∧ wanted = true then 1 else 0 := by
  have bare := bar_of_definite definite
  have none : Text.occurrences " | null".toList type.text = 0 :=
    Text.occurrences_eq_zero (by decide) bare
  cases wanted with
  | false => simpa [orNullIf] using none
  | true =>
    by_cases isVoid : type = void
    · subst isVoid
      simpa [orNullIf, orNull] using none
    · rw [orNullIf, if_pos rfl, definite.orNull isVoid, text_nullable, occurrences_ending bare]
      simp [isVoid]

/-- Null is written once in a mapped type, whatever steps follow, if the type is not void and null is
asked for at first or in some step; else it is not written. -/
theorem occurrences_null (native : Text) (wanted : Bool) (steps : List NullStep) :
    Text.occurrences " | null".toList (steps.foldl NullStep.apply (ofNativeOrNull native wanted)).text =
      if ofNative native ≠ void ∧ (wanted = true ∨ ∃ step ∈ steps, step.asks = true) then 1 else 0 := by
  rw [ofNativeOrNull, foldl_nullSteps, occurrences_orNullIf (definite_ofNative native)]
  simp only [Bool.or_eq_true, List.any_eq_true]

end Counting

end ScriptType

end HeaderBindings
