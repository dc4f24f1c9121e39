import HeaderBindings.Script.Members
import HeaderBindings.Proofs.Reading.Syntax
import HeaderBindings.Proofs.Token.Printing
import Mathlib.Data.List.Nodup
import Mathlib.Data.List.Perm.Subperm

/-!
Names that are given to parameters: one for each wish, each a wish or a numbered wish, none twice
and none in use. Names made from identifiers are words, and no keywords but for the one that only
modules reserve.
-/

namespace HeaderBindings

namespace Text

theorem ofNat_injective (left right : Nat) (same : ofNat left = ofNat right) : left = right := by
  have read := congrArg (fun digits => Nat.ofDigitChars 10 digits 0) same
  simpa [ofNat, Nat.ofDigitChars_ten_toDigits] using read

theorem digits_ofNat (n : Nat) : ∀ c ∈ ofNat n, c.isDigit = true :=
  fun _ member => Nat.isDigit_of_mem_toDigits (by decide) (by decide) member

theorem ofNat_ne_nil (n : Nat) : ofNat n ≠ [] := Nat.toDigits_ne_nil

theorem not_lower_ofNat (n : Nat) : ∀ c ∈ ofNat n, c.isLower = false := by
  intro c member
  rw [Bool.eq_false_iff]
  intro lower
  have digit := (Char.isDigit_iff_toNat.mp (digits_ofNat n c member)).2
  exact absurd (Nat.le_trans (Token.toNat_of_lower c lower) digit) (by decide)

end Text

namespace Identifier

theorem exists_not_lower_numbered (base : Text) (n : Nat) :
    ∃ c ∈ numbered base n, c.isLower = false := ⟨'_', by simp [numbered], rfl⟩

theorem exists_not_lower_arg (n : Nat) : ∃ c ∈ "arg".toList ++ Text.ofNat n, c.isLower = false := by
  obtain ⟨digit, rest, digits⟩ := List.exists_cons_of_ne_nil (Text.ofNat_ne_nil n)
  have own : digit ∈ Text.ofNat n := by simp [digits]
  exact ⟨digit, List.mem_append_right _ own, Text.not_lower_ofNat n digit own⟩

theorem numbered_injective (base : Text) (left right : Nat)
    (same : numbered base left = numbered base right) : left = right := by
  simp only [numbered, List.append_cancel_left_eq, List.cons.injEq, true_and] at same
  exact Text.ofNat_injective left right same

-- There are more numbered forms than names in use, so one of them is free.
theorem exists_free (inUse : List Text) (base : Text) :
    ∃ name, ((List.range' 1 (inUse.length + 1)).map (numbered base)).find?
      (!inUse.contains ·) = some name := by
  cases found : ((List.range' 1 (inUse.length + 1)).map (numbered base)).find?
      (!inUse.contains ·) with
  | some name => exact ⟨name, rfl⟩
  | none =>
    exfalso
    have taken : (List.range' 1 (inUse.length + 1)).map (numbered base) ⊆ inUse := by
      intro name member
      simpa using List.find?_eq_none.mp found name member
    have apart : ((List.range' 1 (inUse.length + 1)).map (numbered base)).Nodup :=
      List.Nodup.map (fun left right => numbered_injective base left right) List.nodup_range'
    have fits := (List.subperm_of_subset apart taken).length_le
    simp only [List.length_map, List.length_range'] at fits
    omega

-- An unused name is the wish or a numbered form of it, and is not in use.
theorem unused_cases (inUse : List Text) (base : Text) :
    unused inUse base ∉ inUse ∧
      (unused inUse base = base ∨ ∃ n, unused inUse base = numbered base n) := by
  unfold unused
  by_cases taken : inUse.contains base = true
  · obtain ⟨name, found⟩ := exists_free inUse base
    have free := List.find?_some found
    obtain ⟨n, _, form⟩ := List.mem_map.mp (List.mem_of_find?_eq_some found)
    rw [if_pos taken, found, Option.getD_some]
    exact ⟨by simpa using free, Or.inr ⟨n, form.symm⟩⟩
  · rw [if_neg taken]
    exact ⟨by simpa using taken, Or.inl rfl⟩

theorem length_distinct (inUse bases : List Text) :
    (distinct inUse bases).length = bases.length := by
  induction bases generalizing inUse with
  | nil => rfl
  | cons base bases ih => simp [distinct, ih]

theorem nodup_distinct (inUse bases : List Text) :
    (distinct inUse bases).Nodup ∧ ∀ name ∈ distinct inUse bases, name ∉ inUse := by
  induction bases generalizing inUse with
  | nil => simp [distinct]
  | cons base bases ih =>
    have free := (unused_cases inUse base).1
    obtain ⟨apart, others⟩ := ih (inUse ++ [unused inUse base])
    refine ⟨?_, ?_⟩
    · simp only [distinct, List.nodup_cons]
      exact ⟨fun member => others _ member (by simp), apart⟩
    · intro name member
      simp only [distinct, List.mem_cons] at member
      rcases member with rfl | later
      · exact free
      · exact fun known => others name later (List.mem_append_left _ known)

theorem mem_distinct (inUse bases : List Text) (name : Text)
    (member : name ∈ distinct inUse bases) :
    ∃ base ∈ bases, name = base ∨ ∃ n, name = numbered base n := by
  induction bases generalizing inUse with
  | nil => cases member
  | cons base bases ih =>
    simp only [distinct, List.mem_cons] at member
    rcases member with rfl | later
    · exact ⟨base, List.mem_cons_self, (unused_cases inUse base).2⟩
    · obtain ⟨other, known, form⟩ := ih _ later
      exact ⟨other, List.mem_cons_of_mem base known, form⟩

end Identifier

namespace Method

theorem length_paramNames (method : Method) : method.paramNames.length = method.arity := by
  simp [paramNames, Identifier.length_distinct, arity]

theorem length_scriptParams (method : Method) : method.scriptParams.length = method.arity := by
  simp [scriptParams, length_paramNames, arity]

theorem nodup_paramNames (method : Method) : method.paramNames.Nodup :=
  (Identifier.nodup_distinct _ _).1

end Method

namespace Reading

/-- A name of a header: a letter or an underscore, then letters, digits and underscores. -/
def isIdentifier : Text → Bool
  | [] => false
  | c :: text => Token.isNameStart c && text.all Token.isNameChar

theorem nameChars_of_identifier (text : Text) (identifier : isIdentifier text = true) :
    text ≠ [] ∧ ∀ c ∈ text, Token.isNameChar c = true := by
  cases text with
  | nil => cases identifier
  | cons c text =>
    simp only [isIdentifier, Bool.and_eq_true, List.all_eq_true] at identifier
    refine ⟨List.cons_ne_nil c text, ?_⟩
    intro d member
    rcases List.mem_cons.mp member with rfl | later
    · exact Token.nameChar_of_nameStart d identifier.1
    · exact identifier.2 d later

theorem wordChar_of_nameChar (c : Char) (name : Token.isNameChar c = true) :
    isWordChar c = true := by
  simp [isWordChar, name]

theorem word_of_identifier (text : Text) (identifier : isIdentifier text = true) : IsWord text := by
  obtain ⟨written, chars⟩ := nameChars_of_identifier text identifier
  exact ⟨written, fun c member => wordChar_of_nameChar c (chars c member)⟩

theorem identifier_append (left right : Text) (identifier : isIdentifier left = true)
    (chars : ∀ c ∈ right, Token.isNameChar c = true) : isIdentifier (left ++ right) = true := by
  cases left with
  | nil => cases identifier
  | cons c left =>
    simp only [isIdentifier, Bool.and_eq_true, List.cons_append, List.all_eq_true,
      List.mem_append] at identifier ⊢
    refine ⟨identifier.1, ?_⟩
    rintro d (before | after)
    · exact identifier.2 d before
    · exact chars d after

theorem nameChars_ofNat (n : Nat) : ∀ c ∈ Text.ofNat n, Token.isNameChar c = true := by
  intro c member
  simp [Token.isNameChar, Char.isAlphanum, Text.digits_ofNat n c member]

theorem identifier_numbered (base : Text) (n : Nat) (identifier : isIdentifier base = true) :
    isIdentifier (Identifier.numbered base n) = true := by
  refine identifier_append base _ identifier ?_
  intro c member
  rcases List.mem_cons.mp member with rfl | digit
  · decide
  · exact nameChars_ofNat n c digit

theorem identifier_sanitize (name : Text) (identifier : isIdentifier name = true) :
    isIdentifier (Identifier.sanitize name) = true := by
  unfold Identifier.sanitize
  split
  · exact identifier_append name ['_'] identifier (List.all_eq_true.mp rfl)
  · exact identifier

theorem lower_of_keyword (word : Text) (keyword : word ∈ keywords) :
    ∀ c ∈ word, c.isLower = true := by
  have all : keywords.all (fun known => known.all Char.isLower) = true := by decide
  exact List.all_eq_true.mp (List.all_eq_true.mp all word keyword)

-- The one keyword that a sanitized name can be.
theorem sanitize_eq_await (name : Text) (keyword : Identifier.sanitize name ∈ keywords) :
    Identifier.sanitize name = "await".toList := by
  have known : ∀ word ∈ keywords, word ≠ "await".toList →
      Identifier.reserved.contains word = true := by decide
  unfold Identifier.sanitize at keyword ⊢
  by_cases reserved : Identifier.reserved.contains name = true
  · rw [if_pos reserved] at keyword
    have small := lower_of_keyword _ keyword '_' (by simp)
    cases small
  · rw [if_neg reserved] at keyword ⊢
    by_contra other
    exact reserved (known name keyword other)

theorem not_keyword_of_not_lower {name : Text} (other : ∃ c ∈ name, c.isLower = false) :
    name ∉ keywords := by
  obtain ⟨c, member, capital⟩ := other
  intro keyword
  rw [lower_of_keyword name keyword c member] at capital
  cases capital

theorem not_keyword_numbered (base : Text) (n : Nat) : Identifier.numbered base n ∉ keywords :=
  not_keyword_of_not_lower (Identifier.exists_not_lower_numbered base n)

theorem not_keyword_arg (n : Nat) : "arg".toList ++ Text.ofNat n ∉ keywords :=
  not_keyword_of_not_lower (Identifier.exists_not_lower_arg n)

end Reading

end HeaderBindings
