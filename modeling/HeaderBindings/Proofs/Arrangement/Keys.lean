import HeaderBindings.Script.Reflow
import HeaderBindings.Token.Lexer
import HeaderBindings.Proofs.Text.Lines
import Mathlib.Data.List.TakeWhile

/-!
Which lines are recognised as a member's or as a mark. A mark is exactly its written form, and a
member's line starts with its key and ends as a signature or as the opening of a body, so that no
line is two of these and none of them begins or ends documentation.
-/

namespace HeaderBindings

namespace Text

theorem trimEnd_eq_nil_iff (text : Text) : trimEnd text = [] ↔ ∀ c ∈ text, isBlank c = true := by
  simp [trimEnd, List.dropWhile_eq_nil_iff]

theorem trimEnd_prefix (text : Text) : trimEnd text <+: text := by
  have suffix := List.dropWhile_suffix isBlank (l := text.reverse)
  rw [← List.reverse_prefix, List.reverse_reverse] at suffix
  exact suffix

/-- Whether a line holds white space only. -/
def isBlankLine (line : Text) : Bool := (trim line).isEmpty

theorem blankLine_iff (line : Text) :
    isBlankLine line = true ↔ ∀ c ∈ line, isBlank c = true := by
  rw [isBlankLine, List.isEmpty_iff, trim, trimEnd_eq_nil_iff]
  constructor
  · intro inside c member
    rw [← List.takeWhile_append_dropWhile (p := isBlank) (l := line)] at member
    rcases List.mem_append.mp member with front | rest
    · exact List.mem_takeWhile_imp front
    · exact inside c rest
  · intro blank c member
    exact blank c ((List.dropWhile_suffix isBlank).subset member)

theorem not_blankLine (line : Text) (c : Char) (member : c ∈ line) (visible : isBlank c = false) :
    isBlankLine line = false := by
  rw [Bool.eq_false_iff]
  intro blank
  have same := (blankLine_iff line).mp blank c member
  rw [visible] at same
  cases same

end Text

namespace Item

section Names

theorem tail_of_nameChar (c : Char) (name : Token.isNameChar c = true) : isNameTail c = true := by
  have ascii : wordRanges =
      (0x30, 0x39) :: (0x41, 0x5A) :: (0x5F, 0x5F) :: (0x61, 0x7A) :: wordRanges.drop 4 := rfl
  have word : isWordChar c = true := by
    simp only [Token.isNameChar, Char.isAlphanum, Bool.or_eq_true, beq_iff_eq] at name
    rw [isWordChar, ascii]
    simp only [inAscending, Bool.and_eq_true, Bool.or_eq_true, decide_eq_true_eq]
    rcases name with (letter | digit) | rfl
    · have cased : c.isUpper = true ∨ c.isLower = true := Bool.or_eq_true_iff.mp letter
      rcases cased with upper | lower
      · have bounds : 'A'.val ≤ c.val ∧ c.val ≤ 'Z'.val := of_decide_eq_true upper
        have low : 0x41 ≤ c.toNat := UInt32.le_iff_toNat_le.mp bounds.1
        have high : c.toNat ≤ 0x5A := UInt32.le_iff_toNat_le.mp bounds.2
        omega
      · have bounds : (decide ('a'.val ≤ c.val) && decide (c.val ≤ 'z'.val)) = true := lower
        rw [Bool.and_eq_true, decide_eq_true_eq, decide_eq_true_eq] at bounds
        have low : 0x61 ≤ c.toNat := UInt32.le_iff_toNat_le.mp bounds.1
        have high : c.toNat ≤ 0x7A := UInt32.le_iff_toNat_le.mp bounds.2
        omega
    · have bounds := Char.isDigit_iff_toNat.mp digit
      have low : 0x30 ≤ c.toNat := bounds.1
      have high : c.toNat ≤ 0x39 := bounds.2
      omega
    · decide
  rw [isNameTail, word, Bool.true_or]

theorem tail_of_head (c : Char) (head : isNameHead c = true) : isNameTail c = true := by
  simp only [isNameHead, Bool.or_eq_true, beq_iff_eq] at head
  rcases head with (letter | rfl) | rfl
  · exact tail_of_nameChar c (by simp [Token.isNameChar, Char.isAlphanum, letter])
  · decide
  · decide

/-- A whole name: a head and a tail of name characters. -/
def isName : Text → Bool
  | [] => false
  | c :: text => isNameHead c && text.all isNameTail

theorem name_inv (text name rest : Text) (found : name? text = some (name, rest)) :
    text = name ++ rest ∧ isName name = true := by
  cases text with
  | nil => cases found
  | cons c text =>
    simp only [name?, Option.ite_none_right_eq_some, Option.some.injEq, Prod.mk.injEq] at found
    obtain ⟨head, rfl, rfl⟩ := found
    refine ⟨by simp, ?_⟩
    simp only [isName, head, Bool.true_and]
    exact List.all_takeWhile

theorem name_append (name rest : Text) (whole : isName name = true)
    (ends : ∀ c ∈ rest.head?, isNameTail c = false) : name? (name ++ rest) = some (name, rest) := by
  cases name with
  | nil => cases whole
  | cons c name =>
    simp only [isName, Bool.and_eq_true, List.all_eq_true] at whole
    have run : (name ++ rest).takeWhile isNameTail = name ∧
        (name ++ rest).dropWhile isNameTail = rest := by
      rw [List.takeWhile_append_of_pos whole.2, List.dropWhile_append_of_pos whole.2]
      cases rest with
      | nil => simp
      | cons d rest =>
        have stop := ends d rfl
        simp [stop]
    simp [name?, whole.1, run]

theorem tail_of_name (name : Text) (whole : isName name = true) (c : Char) (member : c ∈ name) :
    isNameTail c = true := by
  cases name with
  | nil => cases member
  | cons d name =>
    simp only [isName, Bool.and_eq_true, List.all_eq_true] at whole
    rcases List.mem_cons.mp member with rfl | later
    · exact tail_of_head c whole.1
    · exact whole.2 c later

theorem space_of_name (name : Text) (whole : isName name = true) : ' ' ∉ name :=
  fun member => absurd (tail_of_name name whole ' ' member) (by decide)

end Names

section Heads

theorem key_inv (text rest : Text) (key : MemberKey) (found : key? text = some (key, rest)) :
    text = staticPart key.isStatic ++ key.name ++ rest ∧ isName key.name = true := by
  unfold key? at found
  split at found
  · next later static =>
    obtain ⟨⟨name, after⟩, named, same⟩ := Option.map_eq_some_iff.mp found
    simp only [Prod.mk.injEq] at same
    obtain ⟨rfl, rfl⟩ := same
    obtain ⟨rfl, whole⟩ := name_inv later name after named
    rw [(Text.after_eq_some_iff _ _ _).mp static]
    exact ⟨by simp [staticPart], whole⟩
  · obtain ⟨⟨name, after⟩, named, same⟩ := Option.map_eq_some_iff.mp found
    simp only [Prod.mk.injEq] at same
    obtain ⟨rfl, rfl⟩ := same
    obtain ⟨rfl, whole⟩ := name_inv text name after named
    exact ⟨by simp [staticPart], whole⟩

/-- A text that does not go on with a name or a blank. -/
def EndsName (rest : Text) : Prop := ∀ c ∈ rest.head?, isNameTail c = false ∧ c ≠ ' '

-- A name is not taken for `static ` where no blank follows it.
theorem after_static (name rest : Text) (whole : isName name = true) (ends : EndsName rest) :
    Text.after? "static ".toList (name ++ rest) = none := by
  cases found : Text.after? "static ".toList (name ++ rest) with
  | none => rfl
  | some later =>
    have blank := space_of_name name whole
    have letters : "static ".toList.all (fun c => isNameTail c || c == ' ') = true := by decide
    simp only [List.all_eq_true, Bool.or_eq_true, beq_iff_eq] at letters
    rcases List.append_eq_append_iff.mp ((Text.after_eq_some_iff _ _ _).mp found) with
      ⟨part, static, after⟩ | ⟨part, long, _⟩
    · cases part with
      | nil =>
        rw [List.append_nil] at static
        exact absurd (static ▸ by decide : ' ' ∈ name) blank
      | cons c part =>
        -- The rest would begin inside the word, with a letter of it or the blank.
        have other := ends c (by rw [after]; rfl)
        rcases letters c (by rw [static]; simp) with letter | space
        · rw [other.1] at letter
          cases letter
        · exact absurd space other.2
    · exact absurd (long ▸ List.mem_append_left _ (by decide) : ' ' ∈ name) blank

theorem key_append (key : MemberKey) (rest : Text) (whole : isName key.name = true)
    (ends : EndsName rest) :
    key? (staticPart key.isStatic ++ key.name ++ rest) = some (key, rest) := by
  have named := name_append key.name rest whole fun c head => (ends c head).1
  obtain ⟨isStatic, name⟩ := key
  cases isStatic with
  | true =>
    have static : Text.after? "static ".toList (staticPart true ++ name ++ rest) =
        some (name ++ rest) := by
      rw [Text.after_eq_some_iff, List.append_assoc]
      rfl
    rw [key?, static]
    simp [named]
  | false =>
    have plain := after_static name rest whole ends
    rw [key?, staticPart, if_neg Bool.false_ne_true, List.nil_append, plain]
    simp [named]

-- The first character of a key is a letter, an underscore or a dollar sign.
theorem head_of_key (key : MemberKey) (whole : isName key.name = true) (rest : Text) :
    ∃ c text, staticPart key.isStatic ++ key.name ++ rest = c :: text ∧ isNameHead c = true := by
  obtain ⟨isStatic, name⟩ := key
  cases isStatic with
  | true => exact ⟨'s', _, rfl, by decide⟩
  | false =>
    cases name with
    | nil => cases whole
    | cons c name =>
      simp only [isName, Bool.and_eq_true] at whole
      exact ⟨c, _, rfl, whole.1⟩

end Heads

section Marks

def markStart : Text := "  // @veneer-incomplete ".toList

/-- The line that marks a member. -/
def markLine (key : MemberKey) : Text := markStart ++ (staticPart key.isStatic ++ key.name)

theorem markerKey_eq_some_iff (line : Text) (key : MemberKey) :
    markerKey? line = some key ↔ line = markLine key ∧ isName key.name = true := by
  have opened : markerKey? line = some key ↔
      (Text.after? markStart line).bind key? = some (key, []) := by
    rw [markerKey?, show "  // @veneer-incomplete ".toList = markStart from rfl]
    split
    · next own marked => simp [marked]
    · next other => simpa using other key
  rw [opened]
  constructor
  · intro marked
    obtain ⟨after, start, named⟩ := Option.bind_eq_some_iff.mp marked
    obtain ⟨same, whole⟩ := key_inv after [] key named
    rw [List.append_nil] at same
    exact ⟨by rw [(Text.after_eq_some_iff _ _ _).mp start, same, markLine], whole⟩
  · rintro ⟨rfl, whole⟩
    have start : Text.after? markStart (markLine key) =
        some (staticPart key.isStatic ++ key.name ++ []) := by
      rw [Text.after_eq_some_iff, markLine, List.append_nil]
    have ends : EndsName [] := fun c head => by cases head
    rw [start, Option.bind_some, key_append key [] whole ends]

end Marks

section Members

theorem before_append (ending text : Text) : before? ending (text ++ ending) = some text := by
  have reversed : Text.after? ending.reverse (text ++ ending).reverse = some text.reverse := by
    rw [Text.after_eq_some_iff, List.reverse_append]
  rw [before?, reversed, Option.map_some, List.reverse_reverse]

theorem before_inv (ending text rest : Text) (found : before? ending text = some rest) :
    text = rest ++ ending := by
  obtain ⟨back, reversed, rfl⟩ := Option.map_eq_some_iff.mp found
  have same := congrArg List.reverse ((Text.after_eq_some_iff _ _ _).mp reversed)
  simpa using same

/-- The line of a member with its key, its parameters with what follows them, and its end. -/
def memberLine (key : MemberKey) (params ending : Text) : Text :=
  ' ' :: ' ' :: (staticPart key.isStatic ++ key.name ++ '(' :: (params ++ ending))

theorem memberKey_eq_some_iff (ending line : Text) (key : MemberKey) :
    memberKey? ending line = some key ↔ ∃ params, line = memberLine key params ending ∧
      isName key.name = true ∧ closesParams params = true := by
  constructor
  · intro found
    unfold memberKey? at found
    split at found
    · next own rest opened =>
      obtain ⟨after, start, named⟩ := Option.bind_eq_some_iff.mp opened
      obtain ⟨params, ended, closed⟩ := Option.bind_eq_some_iff.mp found
      rw [Option.ite_none_right_eq_some, Option.some.injEq] at closed
      obtain ⟨closes, rfl⟩ := closed
      obtain ⟨same, whole⟩ := key_inv after _ own named
      refine ⟨params, ?_, whole, closes⟩
      rw [(Text.after_eq_some_iff _ _ _).mp start, same, before_inv _ _ _ ended]
      rfl
    · cases found
  · rintro ⟨params, rfl, whole, closes⟩
    have ends : EndsName ('(' :: (params ++ ending)) := by
      intro c head
      cases head
      decide
    have start : (Text.after? "  ".toList (memberLine key params ending)).bind key? =
        some (key, '(' :: (params ++ ending)) := key_append key _ whole ends
    have read : memberKey? ending (memberLine key params ending) =
        (before? ending (params ++ ending)).bind fun params =>
          if closesParams params then some key else none := by
      simp only [memberKey?, start]
    rw [read, before_append, Option.bind_some, if_pos closes]

-- The third character of a member's line, behind two blanks, begins a name.
theorem head_of_member (ending line : Text) (key : MemberKey)
    (found : memberKey? ending line = some key) :
    ∃ c rest, line = ' ' :: ' ' :: c :: rest ∧ isNameHead c = true := by
  obtain ⟨params, rfl, whole, _⟩ := (memberKey_eq_some_iff ending line key).mp found
  obtain ⟨c, text, same, head⟩ := head_of_key key whole ('(' :: (params ++ ending))
  exact ⟨c, text, by rw [← same, memberLine], head⟩

theorem getLast_of_signature (line : Text) (key : MemberKey)
    (found : signatureKey? line = some key) : line.getLast? = some ';' := by
  obtain ⟨params, rfl, _⟩ := (memberKey_eq_some_iff _ line key).mp found
  simp [memberLine, List.getLast?_append, List.getLast?_cons]

theorem getLast_of_implementation (line : Text) (key : MemberKey)
    (found : implementationKey? line = some key) : line.getLast? = some '\x7b' := by
  obtain ⟨params, rfl, _⟩ := (memberKey_eq_some_iff _ line key).mp found
  simp [memberLine, List.getLast?_append, List.getLast?_cons]

theorem signature_of_implementation (line : Text) (key : MemberKey)
    (found : implementationKey? line = some key) : signatureKey? line = none := by
  cases signed : signatureKey? line with
  | none => rfl
  | some other =>
    have last := getLast_of_signature line other signed
    rw [getLast_of_implementation line key found] at last
    cases last

theorem marker_of_member (ending line : Text) (key : MemberKey)
    (found : memberKey? ending line = some key) : markerKey? line = none := by
  cases marked : markerKey? line with
  | none => rfl
  | some other =>
    obtain ⟨c, rest, same, head⟩ := head_of_member ending line key found
    obtain ⟨rfl, _⟩ := (markerKey_eq_some_iff line other).mp marked
    cases same
    exact absurd head (by decide)

theorem signature_of_marker (line : Text) (key : MemberKey)
    (found : markerKey? line = some key) : signatureKey? line = none := by
  cases signed : signatureKey? line with
  | none => rfl
  | some other =>
    rw [marker_of_member _ line other signed] at found
    cases found

/-- A line that is a member's or a mark. -/
def isHead (line : Text) : Bool :=
  (signatureKey? line).isSome || (markerKey? line).isSome || (implementationKey? line).isSome

theorem startsDoc_iff (line : Text) :
    startsDoc line = true ↔ ∃ rest, line = ' ' :: ' ' :: '/' :: '*' :: '*' :: rest := by
  rw [startsDoc, Text.startsWith, Option.isSome_iff_exists]
  exact exists_congr fun rest => Text.after_eq_some_iff _ _ _

theorem doc_of_member (ending line : Text) (key : MemberKey)
    (found : memberKey? ending line = some key) : startsDoc line = false := by
  rw [Bool.eq_false_iff]
  intro starts
  obtain ⟨rest, rfl⟩ := (startsDoc_iff line).mp starts
  obtain ⟨c, text, same, head⟩ := head_of_member ending _ key found
  cases same
  exact absurd head (by decide)

theorem doc_of_marker (line : Text) (key : MemberKey) (found : markerKey? line = some key) :
    startsDoc line = false := by
  rw [Bool.eq_false_iff]
  intro starts
  obtain ⟨rest, same⟩ := (startsDoc_iff line).mp starts
  rw [((markerKey_eq_some_iff line key).mp found).1] at same
  cases same

end Members

section Visible

theorem visible_of_startsDoc (line : Text) (starts : startsDoc line = true) :
    Text.isBlankLine line = false := by
  obtain ⟨rest, rfl⟩ := (startsDoc_iff line).mp starts
  exact Text.not_blankLine _ '/' (by simp) (by decide)

theorem visible_of_endsDoc (line : Text) (ends : endsDoc line = true) :
    Text.isBlankLine line = false := by
  obtain ⟨before, found⟩ := Option.isSome_iff_exists.mp ends
  have same := before_inv _ _ _ found
  exact Text.not_blankLine line '/' ((Text.trimEnd_prefix line).subset (by rw [same]; simp)) (by decide)

theorem visible_of_bodyEnd (line : Text) (ends : isBodyEnd line = true) :
    Text.isBlankLine line = false := by
  rw [isBodyEnd, beq_iff_eq] at ends
  subst ends
  decide

theorem visible_of_member (ending line : Text) (key : MemberKey)
    (found : memberKey? ending line = some key) : Text.isBlankLine line = false := by
  obtain ⟨params, rfl, _⟩ := (memberKey_eq_some_iff ending line key).mp found
  exact Text.not_blankLine _ '(' (by simp [memberLine]) (by decide)

theorem visible_of_marker (line : Text) (key : MemberKey) (found : markerKey? line = some key) :
    Text.isBlankLine line = false := by
  rw [((markerKey_eq_some_iff line key).mp found).1]
  exact Text.not_blankLine _ '@' (List.mem_append_left _ (by decide)) (by decide)

end Visible

end Item

end HeaderBindings
