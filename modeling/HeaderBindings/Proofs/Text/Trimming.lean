import HeaderBindings.Text.Basic
import Mathlib.Data.List.TakeWhile

/-!
Trimming. A trimmed text begins and ends with visible characters, and is the same whatever white
space stood around it.
-/

namespace HeaderBindings

namespace Text

-- A test on the characters of a text is decided along the text, and not over every character.
instance decidableForallMem (text : Text) (p : Char → Prop) [DecidablePred p] :
    Decidable (∀ c ∈ text, p c) := List.decidableBAll p text

instance decidableForallMemOption (c? : Option Char) (p : Char → Prop) [DecidablePred p] :
    Decidable (∀ c ∈ c?, p c) := decidable_of_iff (∀ c ∈ c?.toList, p c) (by simp)

theorem visible_of_alphanum (c : Char) (letter : c.isAlphanum = true) : isBlank c = false := by
  have range : 'A'.toNat ≤ c.toNat ∧ c.toNat ≤ 'Z'.toNat ∨ 'a'.toNat ≤ c.toNat ∧ c.toNat ≤ 'z'.toNat ∨
      '0'.toNat ≤ c.toNat ∧ c.toNat ≤ '9'.toNat := by
    rcases Bool.or_eq_true_iff.mp (show (c.isAlpha || c.isDigit) = true from letter) with alpha | digit
    · rcases Bool.or_eq_true_iff.mp (show (c.isUpper || c.isLower) = true from alpha) with upper | lower
      · have bounds : decide (c.val ≥ 'A'.val ∧ c.val ≤ 'Z'.val) = true := upper
        exact Or.inl ((of_decide_eq_true bounds).imp UInt32.le_iff_toNat_le.mp
          UInt32.le_iff_toNat_le.mp)
      · have bounds : (decide (c.val ≥ 'a'.val) && decide (c.val ≤ 'z'.val)) = true := lower
        exact Or.inr (Or.inl ((Bool.and_eq_true_iff.mp bounds).imp
          (fun low => UInt32.le_iff_toNat_le.mp (of_decide_eq_true low))
          fun high => UInt32.le_iff_toNat_le.mp (of_decide_eq_true high)))
    · exact Or.inr (Or.inr (Char.isDigit_iff_toNat.mp digit))
  have codes : 'A'.toNat = 0x41 ∧ 'Z'.toNat = 0x5A ∧ 'a'.toNat = 0x61 ∧ 'z'.toNat = 0x7A ∧
      '0'.toNat = 0x30 ∧ '9'.toNat = 0x39 := ⟨rfl, rfl, rfl, rfl, rfl, rfl⟩
  simp [isBlank]
  omega

theorem trimEnd_append (text : Text) :
    text = trimEnd text ++ (text.reverse.takeWhile isBlank).reverse := by
  rw [trimEnd, ← List.reverse_append, List.takeWhile_append_dropWhile, List.reverse_reverse]

theorem trimEnd_parts (text : Text) :
    ∃ trail, text = trimEnd text ++ trail ∧ ∀ c ∈ trail, isBlank c = true :=
  ⟨_, trimEnd_append text, fun _ member => List.mem_takeWhile_imp (List.mem_reverse.mp member)⟩

theorem head_trimStart (text : Text) : ∀ c ∈ (trimStart text).head?, isBlank c = false := by
  intro c head
  have stopped := List.head?_dropWhile_not isBlank text
  rw [show (text.dropWhile isBlank).head? = some c from head] at stopped
  exact stopped

theorem last_trimEnd (text : Text) : ∀ c ∈ (trimEnd text).getLast?, isBlank c = false := by
  intro c last
  rw [trimEnd, List.getLast?_reverse] at last
  exact head_trimStart text.reverse c last

theorem trimStart_of_head (text : Text) (visible : ∀ c ∈ text.head?, isBlank c = false) :
    trimStart text = text := by
  cases text with
  | nil => rfl
  | cons c text => simp [trimStart, visible c rfl]

theorem trimEnd_of_last (text : Text) (visible : ∀ c ∈ text.getLast?, isBlank c = false) :
    trimEnd text = text := by
  have kept := trimStart_of_head text.reverse (by simpa using visible)
  rw [trimStart] at kept
  rw [trimEnd, kept, List.reverse_reverse]

theorem trim_of_visible (text : Text) (first : ∀ c ∈ text.head?, isBlank c = false)
    (last : ∀ c ∈ text.getLast?, isBlank c = false) : trim text = text := by
  rw [trim, trimStart_of_head text first, trimEnd_of_last text last]

theorem last_trim (text : Text) : ∀ c ∈ (trim text).getLast?, isBlank c = false :=
  last_trimEnd _

theorem head_trim (text : Text) : ∀ c ∈ (trim text).head?, isBlank c = false := by
  intro c head
  -- What is left of a text at its front is the front of the text.
  have whole := trimEnd_append (trimStart text)
  refine head_trimStart text c ?_
  rw [whole, List.head?_append, show (trimEnd (trimStart text)).head? = some c from head]
  rfl

theorem trim_trim (text : Text) : trim (trim text) = trim text :=
  trim_of_visible _ (head_trim text) (last_trim text)

theorem trim_blank_append (gap text : Text) (blank : ∀ c ∈ gap, isBlank c = true) :
    trim (gap ++ text) = trim text := by
  rw [trim, trim, trimStart, List.dropWhile_append_of_pos blank]
  rfl

theorem trimEnd_append_blank (text gap : Text) (blank : ∀ c ∈ gap, isBlank c = true) :
    trimEnd (text ++ gap) = trimEnd text := by
  rw [trimEnd, List.reverse_append, List.dropWhile_append_of_pos (by simpa using blank), trimEnd]

theorem trim_append_blank (text gap : Text) (blank : ∀ c ∈ gap, isBlank c = true) :
    trim (text ++ gap) = trim text := by
  rw [trim, trim, trimStart, List.dropWhile_append]
  split
  · next nothing =>
    have none : trimStart text = [] := List.isEmpty_iff.mp nothing
    rw [none, List.dropWhile_eq_nil_iff.mpr blank]
  · exact trimEnd_append_blank _ _ blank

/-- Blanks that are dropped from the end of a text do not count. -/
theorem trim_dropTrailing (unwanted : Char → Bool) (blank : ∀ c, unwanted c = true → isBlank c = true)
    (text : Text) : trim (dropTrailing unwanted text) = trim text := by
  have whole : text = dropTrailing unwanted text ++ (text.reverse.takeWhile unwanted).reverse := by
    rw [dropTrailing, ← List.reverse_append, List.takeWhile_append_dropWhile, List.reverse_reverse]
  conv => rhs; rw [whole]
  exact (trim_append_blank _ _ fun c member =>
    blank c (List.mem_takeWhile_imp (List.mem_reverse.mp member))).symm

theorem trim_parts (text : Text) :
    ∃ lead trail, text = lead ++ trim text ++ trail ∧ (∀ c ∈ lead, isBlank c = true) ∧
      ∀ c ∈ trail, isBlank c = true := by
  refine ⟨text.takeWhile isBlank, ((trimStart text).reverse.takeWhile isBlank).reverse, ?_, ?_, ?_⟩
  · rw [List.append_assoc, trim, ← trimEnd_append, trimStart, List.takeWhile_append_dropWhile]
  · exact fun c member => List.mem_takeWhile_imp member
  · exact fun c member => List.mem_takeWhile_imp (List.mem_reverse.mp member)

-- Trimming keeps every visible character.
theorem mem_trim_iff (text : Text) (c : Char) (visible : isBlank c = false) :
    c ∈ trim text ↔ c ∈ text := by
  obtain ⟨lead, trail, whole, before, behind⟩ := trim_parts text
  constructor
  · intro member
    rw [whole]
    simp [member]
  · intro member
    rw [whole, List.mem_append, List.mem_append] at member
    rcases member with (front | inner) | back
    · simp [before c front] at visible
    · exact inner
    · simp [behind c back] at visible

/-- A visible word at the front of a text stays there. -/
theorem prefix_trim (word text : Text) (first : ∀ c ∈ word.head?, isBlank c = false)
    (last : ∀ c ∈ word.getLast?, isBlank c = false) (front : word <+: text) : word <+: trim text := by
  obtain ⟨lead, trail, whole, before, behind⟩ := trim_parts text
  cases word with
  | nil => exact List.nil_prefix
  | cons c word =>
    obtain ⟨rest, rfl⟩ := front
    have visible := first c rfl
    have none : lead = [] := by
      cases lead with
      | nil => rfl
      | cons d lead =>
        cases (List.cons.inj whole).1
        simp [before c List.mem_cons_self] at visible
    rw [none, List.nil_append] at whole
    -- The word reaches into the white space behind the text only if it ends with white space.
    rcases List.append_eq_append_iff.mp whole with ⟨extra, inside, _⟩ | ⟨extra, beyond, tail⟩
    · exact ⟨extra, inside.symm⟩
    · rcases List.eq_nil_or_concat extra with rfl | ⟨extra', d, rfl⟩
      · exact ⟨[], by simpa using beyond⟩
      · have seen : isBlank d = false := last d (by rw [beyond]; simp)
        have blank := behind d (by rw [tail]; simp)
        simp [seen] at blank

/-- A text that begins with a visible character is trimmed at its end only. -/
theorem trim_front (text : Text) (visible : ∀ c ∈ text.head?, isBlank c = false) :
    trim text <+: text ∧ (trim text).head? = text.head? := by
  constructor
  · obtain ⟨trail, whole, _⟩ := trimEnd_parts text
    rw [trim, trimStart_of_head text visible]
    exact ⟨trail, whole.symm⟩
  · cases text with
    | nil => rfl
    | cons c text =>
      have seen : ∀ d ∈ [c].head?, isBlank d = false := fun d head => visible d head
      obtain ⟨rest, whole⟩ := prefix_trim [c] (c :: text) seen seen ⟨text, rfl⟩
      rw [← whole]
      rfl

/-- White space around a text is trimmed away. -/
theorem trim_indented (indent text trail : Text) (before : ∀ c ∈ indent, isBlank c = true)
    (behind : ∀ c ∈ trail, isBlank c = true) : trim (indent ++ text ++ trail) = trim text := by
  rw [trim_append_blank _ _ behind, trim_blank_append _ _ before]

-- White space at the end of a text stands behind its last visible character.
theorem trimEnd_append_visible (front rest : Text) (last : ∀ c ∈ front.getLast?, isBlank c = false) :
    trimEnd (front ++ rest) = front ++ trimEnd rest := by
  obtain ⟨trail, whole, blank⟩ := trimEnd_parts rest
  have short : trimEnd (front ++ rest) = trimEnd (front ++ trimEnd rest) := by
    rw [← trimEnd_append_blank (front ++ trimEnd rest) trail blank, List.append_assoc, ← whole]
  rw [short]
  refine trimEnd_of_last _ fun c member => ?_
  rw [List.getLast?_append, Option.mem_def, Option.or_eq_some_iff] at member
  rcases member with behind | ⟨_, before⟩
  · exact last_trimEnd rest c behind
  · exact last c before

/-- Each part of a text is trimmed at its own end, if the first one ends with a visible character. -/
theorem trim_append_visible (front rest : Text) (written : front ≠ [])
    (last : ∀ c ∈ front.getLast?, isBlank c = false) :
    trim (front ++ rest) = trimStart front ++ trimEnd rest := by
  have seen : trimStart front ≠ [] := by
    intro none
    have blank := List.dropWhile_eq_nil_iff.mp none _ (List.getLast_mem written)
    simp [last _ (List.getLast?_eq_some_getLast written)] at blank
  have start : trimStart (front ++ rest) = trimStart front ++ rest := by
    rw [trimStart, List.dropWhile_append]
    exact if_neg fun nothing => seen (List.isEmpty_iff.mp nothing)
  rw [trim, start]
  refine trimEnd_append_visible _ rest fun c member => last c ?_
  obtain ⟨lead, whole⟩ := List.dropWhile_suffix (l := front) isBlank
  rw [← whole, List.getLast?_append, show (front.dropWhile isBlank).getLast? = some c from member]
  rfl

theorem trim_trimStart (text : Text) : trim (trimStart text) = trim text := by
  have whole := List.takeWhile_append_dropWhile (p := isBlank) (l := text)
  have same := trim_blank_append (text.takeWhile isBlank) (trimStart text)
    fun c member => List.mem_takeWhile_imp member
  rw [← same]
  exact congrArg trim whole

theorem trim_trimEnd (text : Text) : trim (trimEnd text) = trim text := by
  obtain ⟨trail, whole, blank⟩ := trimEnd_parts text
  rw [← trim_append_blank (trimEnd text) trail blank, ← whole]

end Text

end HeaderBindings
