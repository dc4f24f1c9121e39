import HeaderBindings.Proofs.Declaration.Method
import HeaderBindings.Proofs.Token.Nesting

/-!
Macros as they are written around a declaration, and a run of them read from the front.
-/

namespace HeaderBindings

/-- A macro name with balanced parentheses behind it, or with none. -/
structure WrittenMacro.IsMacro (written : WrittenMacro) : Prop where
  name : isMacroName written.name = true
  call : ∀ call ∈ written.call?, Token.Nests .leftParen .rightParen call

section Runs

theorem macroRun_call (name : Text) (call rest : List Token) (isMacro : isMacroName name = true)
    (nests : Token.Nests .leftParen .rightParen call) :
    macroRun (.identifier name :: (enclosed call ++ rest)) =
      ⟨(Availability.ofCall? name call).or (macroRun rest).availability, (macroRun rest).rest⟩ := by
  rw [macroRun, if_pos isMacro]
  split
  · next group found =>
    rw [nests_enclosed nests] at found
    cases found
    rfl
  · next none =>
    rw [nests_enclosed nests] at none
    cases none

theorem macroRun_bare (name : Text) (rest : List Token) (isMacro : isMacroName name = true)
    (bare : rest.head? ≠ some .leftParen) :
    macroRun (.identifier name :: rest) = macroRun rest := by
  have none := parenGroup_none bare
  rw [macroRun, if_pos isMacro]
  split
  · next group found => exact absurd (none ▸ found) (by simp)
  · rfl

theorem head_macros (macros : List WrittenMacro) (rest : List Token) :
    (macros.flatMap WrittenMacro.tokens ++ rest).head? =
      (macros.head?.map fun item => Token.identifier item.name).or rest.head? := by
  cases macros with
  | nil => simp
  | cons item macros => simp [WrittenMacro.tokens]

/-- Macros are read up to what can be no macro and no call, and the first availability call counts. -/
theorem macroRun_written (macros : List WrittenMacro) (rest : List Token)
    (sound : ∀ item ∈ macros, item.IsMacro)
    (ends : ∀ token ∈ rest.head?, token ≠ .leftParen ∧ token.name? = none) :
    macroRun (macros.flatMap WrittenMacro.tokens ++ rest) =
      ⟨macros.findSome? WrittenMacro.availability?, rest⟩ := by
  induction macros with
  | nil =>
    cases rest with
    | nil => simp [macroRun]
    | cons token rest =>
      have other := (ends token rfl).2
      cases token with
      | identifier name => cases other
      | _ => simp [macroRun]
  | cons item macros ih =>
    have later := ih fun other member => sound other (List.mem_cons_of_mem item member)
    have isMacro := sound item List.mem_cons_self
    cases call : item.call? with
    | some tokens =>
      have called := macroRun_call item.name tokens (macros.flatMap WrittenMacro.tokens ++ rest)
        isMacro.name (isMacro.call tokens call)
      have first : item.availability? = Availability.ofCall? item.name tokens := by
        simp [WrittenMacro.availability?, call]
      have found : (item :: macros).findSome? WrittenMacro.availability? =
          item.availability?.or (macros.findSome? WrittenMacro.availability?) := by
        cases own : item.availability? <;> simp [own]
      rw [later] at called
      simpa [WrittenMacro.tokens, call, found, first] using called
    | none =>
      have behind : (macros.flatMap WrittenMacro.tokens ++ rest).head? ≠ some .leftParen := by
        rw [head_macros]
        cases macros with
        | nil => exact fun opens => (ends _ (by simpa using opens)).1 rfl
        | cons next macros => simp
      have bare := macroRun_bare item.name _ isMacro.name behind
      rw [later] at bare
      simpa [WrittenMacro.tokens, WrittenMacro.availability?, call] using bare

end Runs

end HeaderBindings
