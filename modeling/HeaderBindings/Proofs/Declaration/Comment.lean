import HeaderBindings.Declaration.Comment
import HeaderBindings.Proofs.Text.Words
import Mathlib.Data.List.Induction
import Mathlib.Tactic.MkIffOfInductiveProp

/-!
The layout of a documentation comment. What a comment says is read word by word: a word that is a tag
opens a section, and any other word goes into the section that is open. Neither the delimiters of the
comment nor the lines that its words stand on matter, as long as a parameter is named on the line of its
tag.
-/

namespace HeaderBindings

namespace DocComment

section Sections

theorem joinWords_joinWords {left right whole : Text} (parts : whole.words = left.words ++ right.words)
    (text : Text) : joinWords (joinWords text left) right = joinWords text whole := by
  rw [joinWords, joinWords, joinWords, parts, List.foldl_append]

theorem appendParam_appendParam {left right whole : Text}
    (parts : whole.words = left.words ++ right.words) (name : Text) (params : List (Text × Text)) :
    appendParam name right (appendParam name left params) = appendParam name whole params := by
  induction params with
  | nil => simp [appendParam, joinWords_joinWords parts]
  | cons entry later ih =>
    by_cases same : entry.1 = name
    · simp [appendParam, same, joinWords_joinWords parts]
    · simp [appendParam, same, ih]

/-- Texts that go into one section one after the other go into it as one text of their words. -/
theorem append_append {left right whole : Text} (parts : whole.words = left.words ++ right.words)
    (doc : DocComment) (part : Section) :
    (doc.append left part).append right part = doc.append whole part := by
  cases part with
  | description => simp [append, joinWords_joinWords parts]
  | returns => simp [append, joinWords_joinWords parts]
  | param name => simp [append, appendParam_appendParam parts]
  | ignored => rfl

theorem appendParam_of_words {left right : Text} (same : left.words = right.words) (name : Text)
    (params : List (Text × Text)) : appendParam name left params = appendParam name right params := by
  induction params with
  | nil => rw [appendParam, appendParam, joinWords, joinWords, same]
  | cons entry later ih => rw [appendParam, appendParam, joinWords, joinWords, same, ih]

theorem append_of_words {left right : Text} (same : left.words = right.words) (doc : DocComment)
    (part : Section) : doc.append left part = doc.append right part := by
  cases part with
  | param name => rw [append, append, appendParam_of_words same]
  | ignored => rfl
  | _ => rw [append, append, joinWords, joinWords, same]

end Sections

section Machine

/-- Where the next word goes. -/
inductive Mode where
  | within (part : Section)
  | naming
  deriving DecidableEq, Repr

/-- The section that is open if no more words follow on a line. -/
def Mode.left : Mode → Section
  | within part => part
  | naming => .ignored

/-- The name of the tag that a word is. -/
def tagOf? : Text → Option Text
  | [] => none
  | c :: name => if isTag c name then some name else none

def opened (tag : Text) : Mode :=
  if tag = "param".toList then .naming
  else if tag = "return".toList || tag = "returns".toList || tag = "result".toList then
    .within .returns
  else if tag = "brief".toList || tag = "abstract".toList || tag = "discussion".toList then
    .within .description
  else .within .ignored

/-- The section of a parameter that is named by a word. -/
def named (word : Text) : Section :=
  let name := word.dropTrailing (· == ':')
  if name.isEmpty then .ignored else .param name

def readWord (state : DocComment × Mode) (word : Text) : DocComment × Mode :=
  match tagOf? word with
  | some tag => (state.1, opened tag)
  | none =>
    match state.2 with
    | .within part => (state.1.append word part, .within part)
    | .naming => (state.1.append [] (named word), .within (named word))

/-- What words say, whatever their layout. -/
def ofWords (words : List Text) : DocComment :=
  (words.foldl readWord ({}, .within .description)).1

/-- The open section has its place in the comment. -/
def Settled (state : DocComment × Mode) : Prop := state.1.append [] state.2.left = state.1

theorem settled_append (doc : DocComment) (text : Text) (part : Section) :
    Settled (doc.append text part, .within part) := append_append (by simp) doc part

theorem settled_opened (doc : DocComment) (tag : Text) : Settled (doc, opened tag) := by
  unfold opened
  split_ifs <;> rfl

theorem settled_readWord (state : DocComment × Mode) (word : Text) :
    Settled (readWord state word) := by
  unfold readWord
  split
  · exact settled_opened _ _
  · split <;> exact settled_append _ _ _

theorem settled_words (words : List Text) (state : DocComment × Mode) (settled : Settled state) :
    Settled (words.foldl readWord state) := by
  induction words generalizing state with
  | nil => exact settled
  | cons word words ih => exact ih _ (settled_readWord state word)

end Machine

section Lines

theorem isTag_blank (c : Char) (text : Text) (blank : isBlank c = true) : isTag c text = false := by
  have sign : c ≠ '@' := fun same => by simp [same, isBlank] at blank
  have backslash : c ≠ '\\' := fun same => by simp [same, isBlank] at blank
  simp [isTag, sign, backslash]

theorem isTag_word (c : Char) (name rest : Text) (breaks : Text.Breaks rest) :
    isTag c (name ++ rest) = isTag c name := by
  have stops : rest.takeWhile Char.isAlphanum = [] := by
    cases rest with
    | nil => rfl
    | cons d rest =>
      have blank := breaks d rfl
      have other : d.isAlphanum = false := by
        rw [Bool.eq_false_iff]
        intro letter
        simp [Text.visible_of_alphanum d letter] at blank
      simp [other]
  have run : (name ++ rest).takeWhile Char.isAlphanum = name.takeWhile Char.isAlphanum := by
    rw [List.takeWhile_append, stops, List.append_nil]
    split
    · next whole => exact ((List.takeWhile_prefix _).eq_of_length whole).symm
    · rfl
  rw [isTag, isTag, run]

theorem cutTags_blank (afterBlank : Bool) (c : Char) (text : Text) (blank : isBlank c = true) :
    cutTags afterBlank (c :: text) = (c :: (cutTags true text).1, (cutTags true text).2) := by
  simp [cutTags, isTag_blank c text blank, blank]

theorem cutTags_breaks (rest : Text) (breaks : Text.Breaks rest) :
    cutTags false rest = cutTags true rest ∧ Text.Breaks (cutTags true rest).1 := by
  cases rest with
  | nil => exact ⟨rfl, Text.breaks_nil⟩
  | cons c rest =>
    have blank := breaks c rfl
    rw [cutTags_blank false c rest blank, cutTags_blank true c rest blank]
    exact ⟨rfl, fun d head => breaks d head⟩

-- No tag begins within a word.
theorem cutTags_within (word rest : Text) (visible : ∀ c ∈ word, isBlank c = false)
    (breaks : Text.Breaks rest) :
    cutTags false (word ++ rest) = (word ++ (cutTags true rest).1, (cutTags true rest).2) := by
  induction word with
  | nil => exact (cutTags_breaks rest breaks).1
  | cons c word ih =>
    have later := ih fun d member => visible d (List.mem_cons_of_mem c member)
    simp [cutTags, visible c List.mem_cons_self, later]

theorem cutTags_word (word rest : Text) (isWord : Text.IsVisibleWord word) (breaks : Text.Breaks rest) :
    cutTags true (word ++ rest) =
      match tagOf? word with
      | some name => ([], (name ++ (cutTags true rest).1) :: (cutTags true rest).2)
      | none => (word ++ (cutTags true rest).1, (cutTags true rest).2) := by
  obtain ⟨c, name, rfl⟩ := List.exists_cons_of_ne_nil isWord.written
  have inner := cutTags_within name rest
    (fun d member => isWord.visible d (List.mem_cons_of_mem c member)) breaks
  by_cases tag : isTag c name = true <;>
    simp [cutTags, isTag_word c name rest breaks, tagOf?, tag, isWord.visible c List.mem_cons_self,
      inner]

/-- A text that is read up to the next tag. -/
def enter (doc : DocComment) : Mode → Text → DocComment × Section
  | .within part, text => (doc.append text part, part)
  | .naming, text =>
    let (word, more) := text.splitWord
    (doc.append more (named word), named word)

theorem enter_nil (state : DocComment × Mode) (settled : Settled state) :
    enter state.1 state.2 [] = (state.1, state.2.left) := by
  obtain ⟨doc, mode⟩ := state
  cases mode with
  | within part => exact Prod.ext settled rfl
  | naming => rfl

theorem enter_blank (doc : DocComment) (mode : Mode) (c : Char) (text : Text)
    (blank : isBlank c = true) : enter doc mode (c :: text) = enter doc mode text := by
  cases mode with
  | within part => rw [enter, enter, append_of_words (Text.words_blank c text blank)]
  | naming => rw [enter, enter, Text.splitWord_blank c text blank]

theorem enter_word (state : DocComment × Mode) (word text : Text) (isWord : Text.IsVisibleWord word)
    (breaks : Text.Breaks text) (plain : tagOf? word = none) :
    enter state.1 state.2 (word ++ text) =
      enter (readWord state word).1 (readWord state word).2 text := by
  obtain ⟨doc, mode⟩ := state
  cases mode with
  | within part =>
    have parts : (word ++ text).words = word.words ++ text.words := by
      rw [Text.words_word word text isWord breaks, Text.words_single word isWord]
      rfl
    simp [readWord, plain, enter, append_append parts]
  | naming =>
    have parts : text.trimStart.words = Text.words [] ++ text.words := by
      rw [Text.words_trimStart]
      rfl
    simp [readWord, plain, enter, Text.splitWord_word word text isWord breaks, append_append parts]

theorem readTag_word (name text : Text) (isWord : Text.IsVisibleWord name) (breaks : Text.Breaks text)
    (state : DocComment × Section) :
    readTag state (name ++ text) = enter state.1 (opened name) text := by
  have trimmed (part : Section) : state.1.append text.trimStart part = state.1.append text part :=
    append_of_words (Text.words_trimStart text) state.1 part
  have again : text.trimStart.splitWord = text.splitWord := by
    rw [Text.splitWord, Text.trimStart_of_head _ (Text.head_trimStart text), ← Text.splitWord]
  rw [readTag, openSection, Text.splitWord_word name text isWord breaks, opened]
  dsimp only
  rw [again]
  by_cases param : name = "param".toList
  · rw [if_pos param, if_pos param]
    rfl
  · rw [if_neg param, if_neg param]
    split
    · exact Prod.ext (trimmed .returns) rfl
    · split
      · exact Prod.ext (trimmed .description) rfl
      · rfl

theorem tag_isWord (word name : Text) (isWord : Text.IsVisibleWord word) (alone : word ≠ "@".toList)
    (tag : tagOf? word = some name) : Text.IsVisibleWord name := by
  cases word with
  | nil => cases tag
  | cons c word =>
    rw [tagOf?, Option.ite_none_right_eq_some, Option.some.injEq] at tag
    obtain ⟨isTag, rfl⟩ := tag
    refine ⟨?_, fun d member => isWord.visible d (List.mem_cons_of_mem c member)⟩
    rintro rfl
    have mark : c = '@' := by
      simpa [DocComment.isTag, commands] using isTag
    exact alone (by rw [mark]; rfl)

/-- The state behind words as it is kept between lines. -/
def close (state : DocComment × Mode) : DocComment × Section := (state.1, state.2.left)

theorem enter_words (text : Text) (alone : "@".toList ∉ text.words) (state : DocComment × Mode)
    (settled : Settled state) :
    (cutTags true text).2.foldl readTag (enter state.1 state.2 (cutTags true text).1) =
      close (text.words.foldl readWord state) := by
  induction text using Text.word_induction generalizing state with
  | empty => exact enter_nil state settled
  | blank c text blank ih =>
    rw [Text.words_blank c text blank] at alone ⊢
    rw [cutTags_blank true c text blank, enter_blank _ _ c _ blank]
    exact ih alone state settled
  | word word rest isWord breaks ih =>
    rw [Text.words_word word rest isWord breaks, List.mem_cons, not_or] at alone
    rw [Text.words_word word rest isWord breaks, List.foldl_cons, cutTags_word word rest isWord breaks,
      ← ih alone.2 _ (settled_readWord state word)]
    have behind := (cutTags_breaks rest breaks).2
    cases tag : tagOf? word with
    | none => rw [enter_word state word _ isWord behind tag]
    | some name =>
      have isName := tag_isWord word name isWord (Ne.symm alone.1) tag
      have read : readWord state word = (state.1, opened name) := by simp [readWord, tag]
      rw [List.foldl_cons, enter_nil state settled, readTag_word name _ isName behind, read]

/-- A line is read word by word. -/
theorem readLine_words (line : Text) (alone : "@".toList ∉ line.words) (doc : DocComment)
    (part : Section) (settled : Settled (doc, .within part)) :
    readLine (doc, part) line = close (line.words.foldl readWord (doc, .within part)) :=
  enter_words line alone (doc, .within part) settled

/-- A word that the name of a parameter follows. -/
def IsParamTag (word : Text) : Prop := word = "@param".toList ∨ word = "\\param".toList

instance (word : Text) : Decidable (IsParamTag word) := inferInstanceAs (Decidable (_ ∨ _))

theorem isParamTag_of_naming (state : DocComment × Mode) (word : Text)
    (naming : (readWord state word).2 = .naming) : IsParamTag word := by
  unfold readWord at naming
  split at naming
  · next tag found =>
    have param : tag = "param".toList := by
      unfold opened at naming
      split_ifs at naming
      assumption
    cases word with
    | nil => cases found
    | cons c word =>
      rw [tagOf?, Option.ite_none_right_eq_some, Option.some.injEq] at found
      obtain ⟨isTag, rfl⟩ := found
      rw [DocComment.isTag, Bool.or_eq_true, Bool.and_eq_true, beq_iff_eq, beq_iff_eq] at isTag
      rcases isTag with rfl | ⟨rfl, _⟩
      · exact Or.inl (by rw [param]; rfl)
      · exact Or.inr (by rw [param]; rfl)
  · split at naming <;> cases naming

theorem last_of_naming (words : List Text) (doc : DocComment) (part : Section)
    (naming : (words.foldl readWord (doc, .within part)).2 = .naming) :
    ∃ word ∈ words.getLast?, IsParamTag word := by
  rcases List.eq_nil_or_concat words with rfl | ⟨before, word, rfl⟩
  · cases naming
  · rw [List.concat_eq_append, List.foldl_append] at naming
    exact ⟨word, by simp, isParamTag_of_naming _ word naming⟩

/-- No words follow a line that ends with the tag of a parameter. -/
def NamesOnLine (lines : List Text) : Prop :=
  lines.Pairwise fun line later => (∃ word ∈ line.words.getLast?, IsParamTag word) → later.words = []

instance (lines : List Text) : Decidable (NamesOnLine lines) :=
  inferInstanceAs (Decidable (lines.Pairwise _))

/-- Lines are read word by word, wherever they are broken but behind the tag of a parameter. -/
theorem readLines_words (lines : List Text) (alone : "@".toList ∉ lines.flatMap Text.words)
    (breaks : NamesOnLine lines) (doc : DocComment) (part : Section)
    (settled : Settled (doc, .within part)) :
    (lines.foldl readLine (doc, part)).1 =
      ((lines.flatMap Text.words).foldl readWord (doc, .within part)).1 := by
  induction lines generalizing doc part with
  | nil => rfl
  | cons line lines ih =>
    rw [List.flatMap_cons, List.mem_append, not_or] at alone
    obtain ⟨first, breaks⟩ := List.pairwise_cons.mp breaks
    rw [List.foldl_cons, readLine_words line alone.1 doc part settled, List.flatMap_cons,
      List.foldl_append]
    have kept := settled_words line.words _ settled
    have named := last_of_naming line.words doc part
    generalize line.words.foldl readWord (doc, .within part) = state at kept named ⊢
    obtain ⟨doc', mode⟩ := state
    cases mode with
    | within part' => exact ih alone.2 breaks doc' part' kept
    | naming =>
      -- What is read of a line that ends with the tag is kept, as no words follow.
      have none : lines.flatMap Text.words = [] :=
        List.flatMap_eq_nil_iff.mpr fun later member => first later member (named rfl)
      have rest := ih alone.2 breaks doc' .ignored kept
      rwa [none] at rest ⊢

end Lines

section Layout

/-- A word that no delimiter of a comment is taken for, and that is no tag without a name. -/
@[mk_iff]
structure IsPlain (word : Text) : Prop where
  star : word.head? ≠ some '*'
  slash : word.head? ≠ some '/'
  closing : ¬ "*/".toList <:+ word
  named : word ≠ "@".toList

instance (word : Text) : Decidable (IsPlain word) := decidable_of_iff _ (isPlain_iff word).symm

/-- A line of a comment: what may open the comment, stars, a text, and what may close the comment, with
white space between them. -/
structure LaidLine where
  indent : Text
  opening : Text
  gap : Text
  stars : Nat
  text : Text
  closing : Text
  trail : Text
  deriving DecidableEq, Repr

namespace LaidLine

variable (line : LaidLine)

def body : Text := List.replicate line.stars '*' ++ line.text

def written : Text :=
  line.indent ++ (line.opening ++ (line.gap ++ (line.body ++ line.closing))) ++ line.trail

@[mk_iff]
structure Sound (line : LaidLine) : Prop where
  indent : ∀ c ∈ line.indent, isBlank c = true
  gap : ∀ c ∈ line.gap, isBlank c = true
  trail : ∀ c ∈ line.trail, isBlank c = true
  opening : line.opening = [] ∨ line.opening = "/**".toList ∨ line.opening = "/*!".toList ∨
    line.opening = "///".toList
  closing : line.closing = [] ∨ line.closing = "*/".toList
  unbroken : '\n' ∉ line.written

instance (line : LaidLine) : Decidable line.Sound := decidable_of_iff _ (sound_iff line).symm

end LaidLine

/-- Plain words begin with no mark that is stripped. -/
theorem head_plain (text : Text) (plain : ∀ word ∈ text.words, IsPlain word) :
    text.head? ≠ some '*' ∧ text.head? ≠ some '/' := by
  constructor <;> intro head <;> rcases Text.head_words text _ head with blank | ⟨word, member, same⟩
  · simp [isBlank] at blank
  · exact (plain word member).star same
  · simp [isBlank] at blank
  · exact (plain word member).slash same

variable (line : LaidLine)

/-- Trimmed, a line's stars and text are the stars and a text of the same words. -/
theorem trim_body : ∃ text, line.body.trim = List.replicate line.stars '*' ++ text ∧
    text.words = line.text.words ∧ text.trim = line.text.trim := by
  cases stars : line.stars with
  | zero =>
    refine ⟨line.text.trim, ?_, Text.words_trim _, Text.trim_trim _⟩
    simp [LaidLine.body, stars]
  | succ more =>
    have isWord : Text.IsVisibleWord (List.replicate (more + 1) '*') := by
      refine ⟨by simp, fun c member => ?_⟩
      rw [(List.mem_replicate.mp member).2]
      rfl
    refine ⟨line.text.trimEnd, ?_, Text.words_trimEnd _, Text.trim_trimEnd _⟩
    rw [LaidLine.body, stars, Text.trim_append_visible _ _ isWord.written isWord.last,
      Text.trimStart_of_head _ isWord.head]

theorem unstarred (plain : ∀ word ∈ line.text.words, IsPlain word) :
    Text.trim (line.body.trim.dropWhile (· == '*')) = line.text.trim := by
  obtain ⟨text, body, words, trimmed⟩ := trim_body line
  have head := (head_plain text (words ▸ plain)).1
  have stops : text.dropWhile (· == '*') = text := by
    cases text with
    | nil => rfl
    | cons c text => simpa using head
  rw [body, List.dropWhile_append_of_pos (by simp), stops, trimmed]

theorem not_closed (plain : ∀ word ∈ line.text.words, IsPlain word) :
    ¬ "*/".toList <:+ line.body.trim := by
  obtain ⟨text, body, words, -⟩ := trim_body line
  rw [← words] at plain
  rw [body]
  intro suffix
  have isWord : Text.IsVisibleWord "*/".toList := ⟨by decide, by decide⟩
  rcases List.suffix_or_suffix_of_suffix suffix (List.suffix_append _ text) with inside | beyond
  · obtain ⟨word, member, ends⟩ := Text.mem_words_of_suffix _ text isWord inside
    exact (plain word member).closing ends
  · -- The text is a part of the mark, and as no word begins like a mark, nothing at all.
    have none : text = [] := by
      have head := head_plain text plain
      rcases List.suffix_cons_iff.mp beyond with rfl | later
      · exact absurd rfl head.1
      · rcases List.suffix_cons_iff.mp later with rfl | later
        · exact absurd rfl head.2
        · exact List.suffix_nil.mp later
    rw [none, List.append_nil] at suffix
    have slash : '/' ∈ List.replicate line.stars '*' := suffix.subset (by decide)
    cases (List.mem_replicate.mp slash).2

/-- The closing mark is stripped, and nothing is taken for it. -/
theorem unclosed (sound : line.Sound) (plain : ∀ word ∈ line.text.words, IsPlain word) :
    Text.trim (match (Text.trim (line.body ++ line.closing)).reverse with
      | '/' :: '*' :: rest => rest.reverse
      | _ => Text.trim (line.body ++ line.closing)) = line.body.trim := by
  rcases sound.closing with none | closed
  · rw [none, List.append_nil]
    split
    · next rest reversed =>
      refine absurd ⟨rest.reverse, ?_⟩ (not_closed line plain)
      rw [← List.reverse_reverse line.body.trim, reversed]
      simp
    · exact Text.trim_trim _
  · rw [closed, Text.trim_append_word _ _ ⟨by decide, by decide⟩]
    simp [Text.trim_trimStart]

theorem head_body (sound : line.Sound) (plain : ∀ word ∈ line.text.words, IsPlain word) :
    (Text.trim (line.body ++ line.closing)).head? ≠ some '/' := by
  have inner : line.body.trim.head? ≠ some '/' := by
    obtain ⟨text, body, words, -⟩ := trim_body line
    rw [body]
    cases line.stars with
    | zero => exact (head_plain text (words ▸ plain)).2
    | succ more => simp [List.replicate_succ]
  rcases sound.closing with none | closed
  · rwa [none, List.append_nil]
  · rw [closed, Text.trim_append_word _ _ ⟨by decide, by decide⟩]
    have front := (Text.trim_front line.body.trimStart (Text.head_trimStart line.body)).2
    rw [Text.trim_trimStart] at front
    cases start : line.body.trimStart with
    | nil => decide
    | cons c rest => simpa [start, front] using inner

/-- The opening mark is stripped, and nothing is taken for it. -/
theorem unopened (sound : line.Sound) (plain : ∀ word ∈ line.text.words, IsPlain word) :
    Text.trim ((openings.findSome? fun opening => Text.after? opening (Text.trim line.written)).getD
      (Text.trim line.written)) = Text.trim (line.body ++ line.closing) := by
  have core : Text.trim line.written =
      Text.trim (line.opening ++ (line.gap ++ (line.body ++ line.closing))) :=
    Text.trim_indented _ _ _ sound.indent sound.trail
  have inner := Text.trim_blank_append line.gap (line.body ++ line.closing) sound.gap
  -- What is left behind a mark is trimmed again.
  have stripped (mark : Text) (isWord : Text.IsVisibleWord mark) (own : line.opening = mark)
      (first : ∀ rest, openings.findSome? (fun opening => Text.after? opening (mark ++ rest)) = some rest) :
      Text.trim ((openings.findSome? fun opening => Text.after? opening (Text.trim line.written)).getD
        (Text.trim line.written)) = Text.trim (line.body ++ line.closing) := by
    rw [core, own, Text.trim_append_visible mark _ isWord.written isWord.last,
      Text.trimStart_of_head mark isWord.head, first, Option.getD_some, Text.trim_trimEnd, inner]
  rcases sound.opening with none | own | own | own
  · have other := head_body line sound plain
    have nothing : openings.findSome? (fun opening =>
        Text.after? opening (Text.trim (line.body ++ line.closing))) = Option.none := by
      simp [openings, Text.after_of_head, other]
    rw [core, none, List.nil_append, inner, nothing, Option.getD_none, Text.trim_trim]
  · exact stripped _ ⟨by decide, by decide⟩ own fun rest => rfl
  · exact stripped _ ⟨by decide, by decide⟩ own fun rest => rfl
  · exact stripped _ ⟨by decide, by decide⟩ own fun rest => rfl

/-- A line is cleaned of everything but its text. -/
theorem cleanLine_written (sound : line.Sound) (plain : ∀ word ∈ line.text.words, IsPlain word) :
    cleanLine line.written = line.text.trim := by
  rw [← unstarred line plain, ← unclosed line sound plain, ← unopened line sound plain]
  rfl

end Layout

section Blocks

-- A carriage return that a line ends with is white space.
theorem cleanLine_dropReturn (line : Text) : cleanLine (Text.dropReturn line) = cleanLine line := by
  rcases Text.dropReturn_cases line with same | ended
  · rw [same]
  · have trimmed : Text.trim line = Text.trim (Text.dropReturn line) := by
      rw [ended, Text.trim_append_blank _ _ (by decide), Text.dropReturn_append]
    rw [cleanLine, cleanLine, trimmed]

theorem clean_linesOf (pieces : List Text) :
    ((Text.linesOf pieces).map cleanLine).filter (!·.isEmpty) =
      (pieces.map cleanLine).filter (!·.isEmpty) := by
  fun_induction Text.linesOf pieces with
  | case1 => rfl
  | case2 last empty =>
    rw [List.isEmpty_iff.mp empty]
    rfl
  | case3 last written => rfl
  | case4 piece rest other ih =>
    rw [List.map_cons, List.map_cons, cleanLine_dropReturn, List.filter_cons, List.filter_cons, ih]

/-- Lines of a comment that words stand on, each parameter named on the line of its tag. -/
structure Lays (words : List Text) (laid : List LaidLine) : Prop where
  sound : ∀ line ∈ laid, line.Sound
  words : laid.flatMap (·.text.words) = words
  breaks : NamesOnLine (laid.map (·.text))

def block (laid : List LaidLine) : Text := Text.join ['\n'] (laid.map LaidLine.written)

theorem clean_block (laid : List LaidLine) (sound : ∀ line ∈ laid, line.Sound)
    (plain : ∀ line ∈ laid, ∀ word ∈ line.text.words, IsPlain word) :
    ((block laid).lines.map cleanLine).filter (!·.isEmpty) =
      (laid.map (·.text.trim)).filter (!·.isEmpty) := by
  have cleaned : (laid.map LaidLine.written).map cleanLine = laid.map (·.text.trim) := by
    rw [List.map_map]
    refine List.map_congr_left fun line member => ?_
    rw [Function.comp_apply, cleanLine_written line (sound line member) (plain line member)]
  by_cases none : laid = []
  · have empty : (block []).lines = [] := rfl
    simp [none, empty]
  · have pieces := Text.pieces_join (laid.map LaidLine.written) (by simpa using none) fun text member => by
      obtain ⟨line, known, rfl⟩ := List.mem_map.mp member
      exact (sound line known).unbroken
    rw [block, Text.lines, pieces, clean_linesOf, cleaned]

/-- A comment says what its words say. -/
theorem parse_block (words : List Text) (plain : ∀ word ∈ words, IsPlain word) (laid : List LaidLine)
    (lays : Lays words laid) : parse (block laid) = ofWords words := by
  have own : ∀ line ∈ laid, ∀ word ∈ line.text.words, IsPlain word := fun line member word here =>
    plain word (lays.words ▸ List.mem_flatMap.mpr ⟨line, member, here⟩)
  -- Trimming keeps the words of a line, and a line that is left out has none.
  have kept : ((laid.map (·.text.trim)).filter (!·.isEmpty)).flatMap Text.words = words := by
    rw [← lays.words]
    clear lays own
    induction laid with
    | nil => rfl
    | cons line laid ih =>
      rw [List.flatMap_cons, ← Text.words_trim line.text, List.map_cons, List.filter_cons]
      split
      · rw [List.flatMap_cons, ih]
      · next empty => simpa [show line.text.trim = [] by simpa using empty] using ih
  have breaks : NamesOnLine ((laid.map (·.text.trim)).filter (!·.isEmpty)) := by
    refine List.Pairwise.filter _ (List.pairwise_map.mpr ?_)
    simpa [Text.words_trim] using List.pairwise_map.mp lays.breaks
  have alone : "@".toList ∉ ((laid.map (·.text.trim)).filter (!·.isEmpty)).flatMap Text.words := by
    rw [kept]
    exact fun member => (plain _ member).named rfl
  rw [parse, clean_block laid lays.sound own, ofWords, ← kept]
  exact readLines_words _ alone breaks {} .description rfl

/-- Comments of the same words say the same, however they are laid out. -/
theorem parse_layout (words : List Text) (plain : ∀ word ∈ words, IsPlain word)
    (left right : List LaidLine) (leftLays : Lays words left) (rightLays : Lays words right) :
    parse (block left) = parse (block right) := by
  rw [parse_block words plain left leftLays, parse_block words plain right rightLays]

def inlineSum : List LaidLine :=
  [⟨[], "/**".toList, " ".toList, 0, "Adds. @param x one @return sum ".toList, "*/".toList, []⟩]

def brokenSum : List LaidLine :=
  [⟨[], "/*!".toList, [], 0, " Adds.".toList, [], []⟩,
   ⟨" ".toList, [], [], 1, [], [], []⟩,
   ⟨" ".toList, [], [], 1, " @param x".toList, [], []⟩,
   ⟨" ".toList, [], [], 2, "  one @return".toList, [], []⟩,
   ⟨"  ".toList, [], [], 0, "sum".toList, [], "\r".toList⟩,
   ⟨" ".toList, [], [], 0, [], "*/".toList, []⟩]

theorem parse_layout_sum :
    let words := ["Adds.".toList, "@param".toList, "x".toList, "one".toList, "@return".toList,
      "sum".toList]
    (∀ word ∈ words, IsPlain word) ∧ Lays words inlineSum ∧ Lays words brokenSum ∧
      parse (block inlineSum) = parse (block brokenSum) := by
  intro words
  have plain : ∀ word ∈ words, IsPlain word := by decide
  have inlined : Lays words inlineSum :=
    { sound := by decide
      words := by decide
      breaks := by decide }
  have broken : Lays words brokenSum :=
    { sound := by decide
      words := by decide
      breaks := by decide }
  exact ⟨plain, inlined, broken, parse_layout words plain inlineSum brokenSum inlined broken⟩

end Blocks

end DocComment

end HeaderBindings
