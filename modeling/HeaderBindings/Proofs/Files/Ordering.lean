import HeaderBindings.Run.Inputs
import Mathlib.Data.Char

/-!
The order of names. Names are compared by the codes of their characters, which is the order of the
bytes of their UTF-8 form; sorting the entries of a directory puts them into that order.
-/

namespace HeaderBindings

namespace Text

/-- The bytes of a text in UTF-8. -/
def encoded (text : Text) : List UInt8 := text.flatMap String.utf8EncodeChar

@[simp] theorem encoded_nil : encoded [] = [] := rfl

@[simp] theorem encoded_cons (c : Char) (text : Text) :
    encoded (c :: text) = String.utf8EncodeChar c ++ encoded text := rfl

/-- The bytes of a character are below those of a character with a larger code, whatever follows. -/
theorem encodeChar_lt (c d : Char) (less : c.toNat < d.toNat) (text other : List UInt8) :
    String.utf8EncodeChar c ++ text < String.utf8EncodeChar d ++ other := by
  have small : c.val.toNat < d.val.toNat := less
  have bound : d.val.toNat < 0x110000 := by
    rcases d.valid with low | ⟨-, high⟩
    · omega
    · exact high
  have third (code : Nat) : code / 4096 = code / 64 / 64 := (Nat.div_div_eq_div_mul code 64 64).symm
  have fourth (code : Nat) : code / 262144 = code / 64 / 64 / 64 := by
    rw [← third, Nat.div_div_eq_div_mul]
  -- By the numbers of bytes; all but the first byte hold six bits of the code.
  unfold String.utf8EncodeChar
  simp only [third, fourth]
  split_ifs <;>
    simp only [List.cons_append, List.nil_append, List.cons_lt_cons_iff, UInt8.lt_iff_toNat_lt,
      ← UInt8.toNat_inj, UInt8.toNat_ofNat'] <;>
    omega

theorem encoded_lt_of_nameLe (name other : Text) (le : Path.nameLe name other = true)
    (apart : name ≠ other) : encoded name < encoded other := by
  fun_induction Path.nameLe name other with
  | case1 other =>
    cases other with
    | nil => exact absurd rfl apart
    | cons d other =>
      have bytes : String.utf8EncodeChar d ≠ [] := by
        unfold String.utf8EncodeChar
        simp only
        split_ifs <;> exact List.cons_ne_nil _ _
      obtain ⟨byte, rest, first⟩ := List.exists_cons_of_ne_nil bytes
      simp [first]
  | case2 c name => cases le
  | case3 c name d other less => exact encodeChar_lt c d less _ _
  | case4 c name d other _ more => cases le
  | case5 c name d other less more ih =>
    have same : c = d := Char.toNat_inj.mp (by omega)
    subst same
    have tail := ih le fun equal => apart (equal ▸ rfl)
    rw [encoded_cons, encoded_cons]
    exact List.append_left_lt tail

end Text

namespace Path

theorem nameLe_total (name other : Text) : (nameLe name other || nameLe other name) = true := by
  fun_induction nameLe name other with
  | case1 other => rfl
  | case2 c name => simp [nameLe]
  | case3 c name d other less => rfl
  | case4 c name d other less more => simp [nameLe, more]
  | case5 c name d other less more ih => simpa [nameLe, less, more] using ih

theorem nameLe_trans (first second third : Text) (left : nameLe first second = true)
    (right : nameLe second third = true) : nameLe first third = true := by
  induction first generalizing second third with
  | nil => rfl
  | cons c first ih =>
    cases second with
    | nil => cases left
    | cons d second =>
      cases third with
      | nil => cases right
      | cons e third =>
        simp only [nameLe] at left right ⊢
        by_cases below : c.toNat < e.toNat
        · rw [if_pos below]
        · have same : d.toNat = c.toNat ∧ e.toNat = c.toNat := by
            split at left
            · split at right
              · omega
              · split at right <;> first | omega | cases right
            · split at left
              · cases left
              · split at right
                · omega
                · split at right <;> first | omega | cases right
          simp only [same.1, same.2, lt_irrefl, if_false] at left right ⊢
          exact ih second third left right

end Path

namespace Run

theorem sorted_perm (entries : List (Text × FileKind)) : (sorted entries).Perm entries :=
  List.mergeSort_perm entries _

/-- The sorted entries of a directory are in the order of the bytes of their names. -/
theorem sorted_pairwise (entries : List (Text × FileKind)) (apart : (entries.map (·.1)).Nodup) :
    (sorted entries).Pairwise fun entry later => Text.encoded entry.1 < Text.encoded later.1 := by
  have ordered : (sorted entries).Pairwise fun entry later => Path.nameLe entry.1 later.1 = true :=
    List.pairwise_mergeSort (fun first second third => Path.nameLe_trans first.1 second.1 third.1)
      (fun first second => Path.nameLe_total first.1 second.1) entries
  have distinct : ((sorted entries).map (·.1)).Nodup :=
    ((sorted_perm entries).map (·.1)).nodup_iff.mpr apart
  exact ordered.imp₂ (fun entry later le other => Text.encoded_lt_of_nameLe _ _ le other)
    (List.pairwise_map.mp distinct)

end Run

end HeaderBindings
