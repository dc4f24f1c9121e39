import HeaderBindings.Proofs.Text.Lines
import HeaderBindings.Proofs.Text.Trimming

/-!
Words of a text. A text is read off from its front as blanks and as words with a blank or nothing
behind them, and its words are those, wherever the blanks stand.
-/

namespace HeaderBindings

namespace Text

structure IsVisibleWord (word : Text) : Prop where
  written : word ≠ []
  visible : ∀ c ∈ word, isBlank c = false

namespace IsVisibleWord

variable {word : Text}

theorem head (isWord : IsVisibleWord word) : ∀ c ∈ word.head?, isBlank c = false :=
  fun c first => isWord.visible c (List.mem_of_mem_head? first)

theorem last (isWord : IsVisibleWord word) : ∀ c ∈ word.getLast?, isBlank c = false :=
  fun c last => isWord.visible c (List.mem_of_getLast? last)

end IsVisibleWord

/-- A text that no word before it goes on into. -/
def Breaks (rest : Text) : Prop := ∀ c ∈ rest.head?, isBlank c = true

theorem breaks_nil : Breaks [] := fun _ head => by cases head

/-- A text is empty, begins with a blank, or is a word with a text behind it that the word ends at. -/
@[elab_as_elim]
theorem word_induction {motive : Text → Prop} (empty : motive [])
    (blank : ∀ c text, isBlank c = true → motive text → motive (c :: text))
    (word : ∀ word rest, IsVisibleWord word → Breaks rest → motive rest → motive (word ++ rest))
    (text : Text) : motive text := by
  induction size : text.length using Nat.strongRecOn generalizing text with
  | ind n ih =>
    cases text with
    | nil => exact empty
    | cons c text =>
      by_cases seen : isBlank c = true
      · exact blank c text seen (ih text.length (by simp [← size]) text rfl)
      · rw [← List.takeWhile_append_dropWhile (p := (!isBlank ·)) (l := c :: text)]
        refine word _ _ ⟨by simp [seen], ?_⟩ ?_ (ih _ ?_ _ rfl)
        · intro d member
          simpa using List.mem_takeWhile_imp member
        · intro d head
          have stopped := List.head?_dropWhile_not (!isBlank ·) (c :: text)
          rw [show ((c :: text).dropWhile (!isBlank ·)).head? = some d from head] at stopped
          simpa using stopped
        · have shorter := (List.dropWhile_suffix (!isBlank ·) (l := text)).length_le
          simp only [List.dropWhile_cons, seen, Bool.not_false, if_true, ← size, List.length_cons]
          omega

section Reading

@[simp] theorem words_nil : words [] = [] := rfl

theorem words_blank (c : Char) (text : Text) (blank : isBlank c = true) :
    words (c :: text) = words text := by
  simp [words, piecesWhere, cutWhere, blank]

theorem words_word (word rest : Text) (isWord : IsVisibleWord word) (breaks : Breaks rest) :
    words (word ++ rest) = word :: words rest := by
  cases rest with
  | nil =>
    simp [words, piecesWhere, cutWhere_free isBlank word isWord.visible, cutWhere, isWord.written]
  | cons c rest =>
    have blank := breaks c rfl
    rw [words_blank c rest blank]
    simp [words, piecesWhere, cutWhere_append isBlank word rest c blank isWord.visible,
      isWord.written]

theorem words_single (word : Text) (isWord : IsVisibleWord word) : words word = [word] := by
  simpa using words_word word [] isWord breaks_nil

theorem isVisibleWord_of_mem (text word : Text) (member : word ∈ words text) : IsVisibleWord word := by
  induction text using word_induction with
  | empty => simp at member
  | blank c text blank ih => exact ih (words_blank c text blank ▸ member)
  | word first rest isWord breaks ih =>
    rw [words_word first rest isWord breaks] at member
    rcases List.mem_cons.mp member with rfl | later
    · exact isWord
    · exact ih later

theorem words_blanks (gap text : Text) (blank : ∀ c ∈ gap, isBlank c = true) :
    words (gap ++ text) = words text := by
  induction gap with
  | nil => rfl
  | cons c gap ih =>
    rw [List.cons_append, words_blank c _ (blank c List.mem_cons_self),
      ih fun d member => blank d (List.mem_cons_of_mem c member)]

theorem words_append_blanks (text gap : Text) (blank : ∀ c ∈ gap, isBlank c = true) :
    words (text ++ gap) = words text := by
  induction text using word_induction with
  | empty => simpa using words_blanks gap [] blank
  | blank c text seen ih => rw [List.cons_append, words_blank c _ seen, ih, words_blank c text seen]
  | word word rest isWord breaks ih =>
    have behind : Breaks (rest ++ gap) := by
      cases rest with
      | nil => exact fun c head => blank c (List.mem_of_mem_head? head)
      | cons c rest => exact fun d head => breaks d head
    rw [List.append_assoc, words_word word _ isWord behind, ih, words_word word rest isWord breaks]

theorem words_trim (text : Text) : words (trim text) = words text := by
  obtain ⟨lead, trail, whole, before, behind⟩ := trim_parts text
  have same := congrArg words whole
  rwa [words_append_blanks _ _ behind, words_blanks _ _ before, eq_comm] at same

theorem words_trimStart (text : Text) : words (trimStart text) = words text := by
  have same := congrArg words (List.takeWhile_append_dropWhile (p := isBlank) (l := text))
  rwa [words_blanks _ _ fun c member => List.mem_takeWhile_imp member] at same

theorem words_trimEnd (text : Text) : words (trimEnd text) = words text := by
  obtain ⟨trail, whole, blank⟩ := trimEnd_parts text
  have same := congrArg words whole
  rwa [words_append_blanks _ _ blank, eq_comm] at same

/-- A text begins with a blank, or with one of its words. -/
theorem head_words (text : Text) : ∀ c ∈ text.head?,
    isBlank c = true ∨ ∃ word ∈ words text, word.head? = some c := by
  intro c head
  cases text using word_induction with
  | empty => cases head
  | blank d text blank =>
    cases head
    exact Or.inl blank
  | word word rest isWord breaks =>
    rw [words_word word rest isWord breaks]
    obtain ⟨d, later, rfl⟩ := List.exists_cons_of_ne_nil isWord.written
    exact Or.inr ⟨_, List.mem_cons_self, by simpa using head⟩

/-- A visible end of a text is the end of one of its words. -/
theorem mem_words_of_suffix (ending text : Text) (isWord : IsVisibleWord ending) (suffix : ending <:+ text) :
    ∃ word ∈ words text, ending <:+ word := by
  induction text using word_induction with
  | empty => exact absurd (List.suffix_nil.mp suffix) isWord.written
  | blank c text seen ih =>
    rw [words_blank c text seen]
    rcases List.suffix_cons_iff.mp suffix with rfl | later
    · simp [isWord.visible c List.mem_cons_self] at seen
    · exact ih later
  | word word rest own breaks ih =>
    rw [words_word word rest own breaks]
    rcases List.suffix_or_suffix_of_suffix suffix (List.suffix_append word rest) with inside | beyond
    · obtain ⟨later, member, ends⟩ := ih inside
      exact ⟨later, List.mem_cons_of_mem word member, ends⟩
    · cases rest with
      | nil => exact ⟨word, List.mem_cons_self, by simpa using suffix⟩
      | cons c rest =>
        -- The end would reach back over the blank behind the word.
        have blank := breaks c rfl
        simp [isWord.visible c (beyond.subset List.mem_cons_self)] at blank

/-- A text with a word at its end is trimmed at its front only. -/
theorem trim_append_word (text word : Text) (isWord : IsVisibleWord word) :
    trim (text ++ word) = trimStart text ++ word := by
  have front : trimStart (text ++ word) = trimStart text ++ word := by
    rw [trimStart, List.dropWhile_append]
    split
    · next nothing =>
      rw [trimStart, List.isEmpty_iff.mp nothing]
      exact trimStart_of_head word isWord.head
    · rfl
  rw [trim, front]
  refine trimEnd_of_last _ fun c member => isWord.last c ?_
  rw [List.getLast?_append, List.getLast?_eq_some_getLast isWord.written] at member
  rwa [List.getLast?_eq_some_getLast isWord.written]

end Reading

section Splitting

theorem splitWord_blank (c : Char) (text : Text) (blank : isBlank c = true) :
    splitWord (c :: text) = splitWord text := by
  simp [splitWord, trimStart, blank]

theorem splitWord_word (word rest : Text) (isWord : IsVisibleWord word) (breaks : Breaks rest) :
    splitWord (word ++ rest) = (word, trimStart rest) := by
  have start : trimStart (word ++ rest) = word ++ rest := by
    obtain ⟨c, later, rfl⟩ := List.exists_cons_of_ne_nil isWord.written
    exact trimStart_of_head _ fun d head => isWord.head d (by simpa using head)
  have visible : ∀ c ∈ word, (!isBlank c) = true := fun c member => by simp [isWord.visible c member]
  have stops : rest.takeWhile (!isBlank ·) = [] ∧ rest.dropWhile (!isBlank ·) = rest := by
    cases rest with
    | nil => exact ⟨rfl, rfl⟩
    | cons c rest => simp [breaks c rfl]
  rw [splitWord, start, List.takeWhile_append_of_pos visible, List.dropWhile_append_of_pos visible,
    stops.1, stops.2, List.append_nil]

end Splitting

end Text

end HeaderBindings
