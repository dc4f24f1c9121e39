import HeaderBindings.Proofs.Text.Trimming
import HeaderBindings.Proofs.Token.Seams
import Mathlib.Data.List.Forall2

/-!
The comments of a text, and the text with white space in their place. A line is cut into code,
comments that end on it, and a comment that runs on behind it; the marks of a comment inside a string
literal are code.
-/

namespace HeaderBindings

/-- A stretch of a line: code, a comment that ends on the line, or one that runs on. White space and
string literals are code. -/
inductive Stretch where
  | code (text : Text)
  | comment (text : Text)
  | opened (text : Text)
  deriving DecidableEq, Repr

namespace Text

/-- Whether a comment is documentation. -/
def isDoc (comment : Text) : Bool :=
  ["///".toList, "/**".toList, "/*!".toList].any fun mark => mark.isPrefixOf comment

/-- White space as wide as a text, with its carriage returns. -/
def whiten (text : Text) : Text := text.map fun c => if c = '\r' then c else ' '

end Text

namespace Stretch

open Text

def text : Stretch → Text
  | code text | comment text | opened text => text

/-- The stretch that a line starts with, and the rest of the line. An unclosed string literal is code
up to the end of the line. -/
def first (c : Char) (line : Text) : Stretch × Text :=
  if c = '"' then
    match Token.closedString? line with
    | some cut => (code (c :: cut.1), cut.2)
    | none => (code (c :: line), [])
  else if c = '/' then
    match line with
    | '/' :: body => (comment ('/' :: '/' :: body), [])
    | '*' :: body => match cutAt? ['*', '/'] body with
      | some (body, rest) => (comment ('/' :: '*' :: (body ++ ['*', '/'])), rest)
      | none => (opened ('/' :: '*' :: body), [])
    | line => (code ['/'], line)
  else (code [c], line)

/-- Whether a stretch is code that can be seen. -/
def isVisibleCode : Stretch → Bool
  | code text => text.any (!isBlank ·)
  | _ => false

def opened? : Stretch → Option Text
  | opened text => some text
  | _ => none

/-- A stretch with white space for a plain comment, if such comments are to go; whether the comment
that runs on is to go is said apart. -/
def bareAs (here running : Bool) : Stretch → Text
  | code text => text
  | comment text => if here && !isDoc text then whiten text else text
  | opened text => if running && !isDoc text then whiten text else text

/-- A stretch with more text behind it. -/
def widen (trail : Text) : Stretch → Stretch
  | code text => code (text ++ trail)
  | comment text => comment (text ++ trail)
  | opened text => opened (text ++ trail)

theorem text_widen (trail : Text) (stretch : Stretch) :
    (stretch.widen trail).text = stretch.text ++ trail := by cases stretch <;> rfl

theorem bareAs_cases (here running : Bool) (stretch : Stretch) :
    stretch.bareAs here running = stretch.text ∨
      stretch.bareAs here running = whiten stretch.text := by
  cases stretch with
  | code text => exact Or.inl rfl
  | comment text | opened text =>
    simp only [bareAs, Stretch.text]
    split
    · exact Or.inr rfl
    · exact Or.inl rfl

/-- A stretch with the rest of its line behind it. -/
inductive Begins : Stretch → Text → Prop where
  | plain {c : Char} {rest : Text} (quote : c ≠ '"')
      (stroke : c = '/' → ∀ d ∈ rest.head?, d ≠ '/' ∧ d ≠ '*') : Begins (code [c]) rest
  | string {body rest : Text} (closed : Token.closedString? body = some (body, [])) :
      Begins (code ('"' :: body)) rest
  | broken {body : Text} (unclosed : Token.closedString? body = none) :
      Begins (code ('"' :: body)) []
  | line {body : Text} : Begins (comment ('/' :: '/' :: body)) []
  | block {body rest : Text}
      (closes : cutAt? ['*', '/'] (body ++ ['*', '/'] ++ rest) = some (body, rest)) :
      Begins (comment ('/' :: '*' :: (body ++ ['*', '/']))) rest
  | opened {body : Text} (runs : cutAt? ['*', '/'] body = none) :
      Begins (opened ('/' :: '*' :: body)) []

theorem begins_first (c : Char) (line : Text) :
    c :: line = (first c line).1.text ++ (first c line).2 ∧
      Begins (first c line).1 (first c line).2 := by
  unfold first
  split
  · next quote =>
    subst quote
    cases closed : Token.closedString? line with
    | none => exact ⟨(List.append_nil _).symm, .broken closed⟩
    | some cut =>
      obtain ⟨whole, again⟩ := Token.closedString_spec line cut closed
      exact ⟨by simp [text, ← whole], .string again⟩
  · next quote =>
    split
    · next stroke =>
      subst stroke
      split
      · exact ⟨by simp [text], .line⟩
      · next body =>
        rcases Token.cutAt_none_or ['*', '/'] body with runs | ⟨inner, rest, rfl, closes⟩
        · rw [runs]
          exact ⟨by simp [text], .opened runs⟩
        · rw [closes]
          exact ⟨by simp [text], .block closes⟩
      · next line noLine noBlock =>
        refine ⟨rfl, .plain quote fun _ d head => ?_⟩
        obtain ⟨tail, rfl⟩ := List.head?_eq_some_iff.mp head
        exact ⟨fun same => noLine tail (by rw [same]), fun same => noBlock tail (by rw [same])⟩
    · next other => exact ⟨rfl, .plain quote fun same => absurd same other⟩

theorem first_of_begins {stretch : Stretch} {rest : Text} (begins : Begins stretch rest) :
    ∃ c later, stretch.text = c :: later ∧ first c (later ++ rest) = (stretch, rest) := by
  cases begins with
  | @plain c rest quote stroke =>
    refine ⟨c, [], rfl, ?_⟩
    by_cases same : c = '/'
    · subst same
      cases rest with
      | nil => rfl
      | cons d rest =>
        obtain ⟨line, block⟩ := stroke rfl d rfl
        simp [first, line, block]
    · simp [first, quote, same]
  | string closed =>
    refine ⟨'"', _, rfl, ?_⟩
    have whole := Token.closedString_append _ rest _ closed
    simp only [List.nil_append] at whole
    simp [first, whole]
  | broken unclosed => exact ⟨'"', _, rfl, by simp [first, unclosed]⟩
  | line => exact ⟨'/', _, rfl, by simp [first]⟩
  | block closes =>
    refine ⟨'/', _, rfl, ?_⟩
    simp only [List.append_assoc, List.cons_append, List.nil_append] at closes
    simp [first, closes]
  | opened runs => exact ⟨'/', _, rfl, by simp [first, runs]⟩

theorem Begins.length_pos {stretch : Stretch} {rest : Text} (begins : Begins stretch rest) :
    0 < stretch.text.length := by
  obtain ⟨c, later, whole, _⟩ := first_of_begins begins
  simp [whole]

theorem length_first (c : Char) (line : Text) : (first c line).2.length ≤ line.length := by
  obtain ⟨whole, begins⟩ := begins_first c line
  have taken := begins.length_pos
  have sizes := congrArg List.length whole
  simp only [List.length_cons, List.length_append] at sizes
  omega

end Stretch

namespace Text

/-- The stretches of a line. -/
def stretches : Text → List Stretch
  | [] => []
  | c :: line => (Stretch.first c line).1 :: stretches (Stretch.first c line).2
termination_by line => line.length
decreasing_by
  have shorter := Stretch.length_first c line
  simp
  omega

/-- Whether code can be seen on a line. -/
def isCoded (line : Text) : Bool := line.stretches.any Stretch.isVisibleCode

/-- The comment that opens on a line and runs on behind it. -/
def opened? (line : Text) : Option Text := line.stretches.findSome? Stretch.opened?

/-- A line with white space for its plain comments, as far as they are to go. -/
def bareAs (here running : Bool) (line : Text) : Text :=
  line.stretches.flatMap (·.bareAs here running)

/-- A line with white space for its plain comments. -/
def bare (line : Text) : Text := line.bareAs true true

/-- Whether code can be seen behind an open comment on the line where it ends. -/
def closesOnCode : List Text → Bool
  | [] => false
  | line :: lines => match cutAt? ['*', '/'] line with
    | some (_, rest) => isCoded rest
    | none => closesOnCode lines

/-- Whether the comment that runs on behind a line is to go: it is plain and has code on its first line
or on its last one. -/
def running? (below : List Text) (line : Text) : Option Bool :=
  line.opened?.map fun comment => (line.isCoded || closesOnCode below) && !comment.isDoc

/-- A line, or the rest of one behind a comment, without the comments that share it with code. -/
def bareRest (below : List Text) (line : Text) : Text :=
  line.bareAs line.isCoded (line.isCoded || closesOnCode below)

/-- Lines without the plain comments that share a line with code. It is said whether a comment is open
before the first line, and whether it is to go. -/
def bareLines (open? : Option Bool) : List Text → List Text
  | [] => []
  | line :: below =>
    match open? with
    | none => bareRest below line :: bareLines (running? below line) below
    | some goes => match cutAt? ['*', '/'] line with
      | none => (if goes then whiten line else line) :: bareLines (some goes) below
      | some (body, rest) =>
        let comment := body ++ ['*', '/']
        ((if goes then whiten comment else comment) ++ bareRest below rest) ::
          bareLines (running? below rest) below

/-- A text without the plain comments that share a line with code: white space stands in their place,
and the lines stay as they are. -/
def uncommented (content : Text) : Text := join ['\n'] (bareLines none content.pieces)

open Stretch

/-- A line is empty, or one stretch and a line. -/
theorem stretch_induction {motive : Text → Prop} (nil : motive [])
    (stretch : ∀ stretch rest, Begins stretch rest → motive rest → motive (stretch.text ++ rest))
    (line : Text) : motive line := by
  match line with
  | [] => exact nil
  | c :: line =>
    obtain ⟨whole, begins⟩ := begins_first c line
    have shorter := Stretch.length_first c line
    rw [whole]
    exact stretch _ _ begins (stretch_induction nil stretch (Stretch.first c line).2)
termination_by line.length

theorem stretches_begins {stretch : Stretch} {rest : Text} (begins : Begins stretch rest) :
    stretches (stretch.text ++ rest) = stretch :: stretches rest := by
  obtain ⟨c, later, whole, read⟩ := first_of_begins begins
  rw [whole, List.cons_append, stretches, read]

section Bare

variable (here running : Bool) (line : Text)

@[simp] theorem stretches_nil : stretches [] = [] := by rw [stretches]

-- A stretch that takes a whole line.
theorem stretches_alone {stretch : Stretch} (begins : Begins stretch []) :
    stretches stretch.text = [stretch] := by
  have whole := stretches_begins begins
  rwa [List.append_nil, stretches_nil] at whole

@[simp] theorem bareAs_nil : bareAs here running [] = [] := by simp [bareAs]

theorem bareAs_begins {stretch : Stretch} {rest : Text} (begins : Begins stretch rest) :
    bareAs here running (stretch.text ++ rest) =
      stretch.bareAs here running ++ bareAs here running rest := by
  simp [bareAs, stretches_begins begins]

theorem isCoded_begins {stretch : Stretch} {rest : Text} (begins : Begins stretch rest) :
    isCoded (stretch.text ++ rest) = (stretch.isVisibleCode || isCoded rest) := by
  simp [isCoded, stretches_begins begins]

theorem opened_begins {stretch : Stretch} {rest : Text} (begins : Begins stretch rest) :
    opened? (stretch.text ++ rest) = stretch.opened?.or (opened? rest) := by
  rw [opened?, stretches_begins begins, List.findSome?_cons]
  cases found : stretch.opened? <;> simp [opened?]

/-- Characters that neither begin a comment nor a string. -/
def IsFree (text : Text) : Prop := '/' ∉ text ∧ '"' ∉ text

theorem free_of_blank (text : Text) (blank : ∀ c ∈ text, isBlank c = true) : IsFree text :=
  ⟨fun member => absurd (blank _ member) (by decide),
    fun member => absurd (blank _ member) (by decide)⟩

theorem stretches_free (front rest : Text) (free : IsFree front) :
    stretches (front ++ rest) = front.map (fun c => code [c]) ++ stretches rest := by
  induction front with
  | nil => rfl
  | cons c front ih =>
    obtain ⟨stroke, quote⟩ := free
    rw [List.mem_cons, not_or] at stroke quote
    have begins : Begins (code [c]) (front ++ rest) :=
      .plain (fun same => quote.1 same.symm) fun same => absurd same.symm stroke.1
    have whole := stretches_begins begins
    rw [ih ⟨stroke.2, quote.2⟩] at whole
    exact whole

theorem bareAs_free (front rest : Text) (free : IsFree front) :
    bareAs here running (front ++ rest) = front ++ bareAs here running rest := by
  rw [bareAs, stretches_free front rest free, List.flatMap_append, List.flatMap_map]
  have kept : front.flatMap (fun c => (code [c]).bareAs here running) = front := by
    simp [Stretch.bareAs]
  rw [kept]
  rfl

theorem isCoded_free (front rest : Text) (free : IsFree front) :
    isCoded (front ++ rest) = (front.any (!isBlank ·) || isCoded rest) := by
  rw [isCoded, stretches_free front rest free, List.any_append, List.any_map]
  congr 2
  funext c
  simp [isVisibleCode]

theorem opened_free (front rest : Text) (free : IsFree front) :
    opened? (front ++ rest) = opened? rest := by
  rw [opened?, stretches_free front rest free, List.findSome?_append, List.findSome?_map]
  have none : front.findSome? (fun c => (code [c]).opened?) = none := by
    simp [Stretch.opened?]
  simp [Function.comp_def, none, opened?]

-- A line without a slash has no comment.
theorem bareAs_plain (plain : '/' ∉ line) : bareAs here running line = line := by
  induction line using stretch_induction with
  | nil => simp
  | stretch stretch rest begins ih =>
    rw [List.mem_append, not_or] at plain
    rw [bareAs_begins _ _ begins, ih plain.2]
    cases begins with
    | plain | string | broken => rfl
    | line | block | opened => exact absurd List.mem_cons_self plain.1

/-- Every character stays or is covered by a blank. -/
theorem bareAs_covers :
    List.Forall₂ (fun c d => d = c ∨ d = ' ') line (bareAs here running line) := by
  have same (text : Text) : List.Forall₂ (fun c d => d = c ∨ d = ' ') text text :=
    List.forall₂_same.mpr fun c _ => Or.inl rfl
  have covered (text : Text) : List.Forall₂ (fun c d => d = c ∨ d = ' ') text (whiten text) := by
    rw [whiten, List.forall₂_map_right_iff, List.forall₂_same]
    intro c _
    by_cases feed : c = '\r' <;> simp [feed]
  induction line using stretch_induction with
  | nil => simp
  | stretch stretch rest begins ih =>
    rw [bareAs_begins _ _ begins]
    refine List.rel_append ?_ ih
    rcases stretch.bareAs_cases here running with stays | goes
    · exact stays ▸ same _
    · exact goes ▸ covered _

theorem mem_bareAs (c : Char) (member : c ∈ bareAs here running line) : c ∈ line ∨ c = ' ' := by
  obtain ⟨index, bound, rfl⟩ := List.getElem_of_mem member
  have covers := bareAs_covers here running line
  have before : index < line.length := covers.length_eq ▸ bound
  rcases covers.get before bound with same | blank
  · exact Or.inl (List.mem_of_getElem same.symm)
  · exact Or.inr blank

/-- A word in front of a line without comments is in front of the line. -/
theorem prefix_of_bareAs (word : Text) (solid : ' ' ∉ word)
    (front : word <+: bareAs here running line) : word <+: line := by
  have covers := bareAs_covers here running line
  generalize bareAs here running line = other at covers front
  induction covers generalizing word with
  | nil => exact front
  | @cons c d line other covered _ ih =>
    cases word with
    | nil => exact List.nil_prefix
    | cons e word =>
      rw [List.mem_cons, not_or] at solid
      obtain ⟨rfl, inner⟩ := List.cons_prefix_cons.mp front
      have same : e = c := covered.resolve_right fun blank => solid.1 blank.symm
      exact same ▸ List.cons_prefix_cons.mpr ⟨rfl, ih word solid.2 inner⟩

theorem prefix_bareAs_iff (word : Text) (free : IsFree word) (solid : ' ' ∉ word) :
    word <+: bareAs here running line ↔ word <+: line := by
  refine ⟨prefix_of_bareAs here running line word solid, ?_⟩
  rintro ⟨rest, rfl⟩
  rw [bareAs_free _ _ word rest free]
  exact List.prefix_append _ _

end Bare

section Trailing

variable (line trail : Text)

theorem whiten_append : whiten (line ++ trail) = whiten line ++ whiten trail := List.map_append

theorem gap_whiten : ∀ c ∈ whiten line, Token.isGap c = true := by
  intro c member
  obtain ⟨d, _, rfl⟩ := List.mem_map.mp member
  split
  · next feed => exact feed ▸ by decide
  · decide

theorem blank_whiten : ∀ c ∈ whiten line, isBlank c = true := by
  intro c member
  obtain ⟨d, _, rfl⟩ := List.mem_map.mp member
  split
  · next feed => exact feed ▸ by decide
  · decide

/-- A word in front of a text stands in its first part, if the second one begins with a character that
is not in the word. -/
theorem prefix_append_iff (word : Text) (apart : ∀ c ∈ trail.head?, c ∉ word) :
    word <+: line ++ trail ↔ word <+: line := by
  refine ⟨?_, fun front => front.trans (List.prefix_append _ _)⟩
  rintro ⟨rest, whole⟩
  rcases List.append_eq_append_iff.mp whole with ⟨more, rfl, _⟩ | ⟨more, beyond, behind⟩
  · exact List.prefix_append _ _
  · cases more with
    | nil => exact ⟨[], by simpa using beyond⟩
    | cons c more =>
      subst behind
      exact absurd (by simp [beyond]) (apart c rfl)

theorem isDoc_append (blank : ∀ c ∈ trail, isBlank c = true) : isDoc (line ++ trail) = isDoc line := by
  have visible : ∀ mark ∈ ["///".toList, "/**".toList, "/*!".toList],
      ∀ c ∈ mark, isBlank c = false := by
    decide
  rw [isDoc, isDoc, Bool.eq_iff_iff, List.any_eq_true, List.any_eq_true]
  refine exists_congr fun mark => and_congr_right fun known => ?_
  rw [List.isPrefixOf_iff_prefix, List.isPrefixOf_iff_prefix]
  refine prefix_append_iff line trail mark fun c head member => ?_
  have seen := visible mark known c member
  simp [blank c (List.mem_of_mem_head? head)] at seen

theorem cutAt_eq_none_iff (pattern text : Text) :
    cutAt? pattern text = none ↔ ¬ pattern <:+: text := by
  induction text with
  | nil => rw [cutAt?, Option.map_eq_none_iff, after_eq_none_iff, List.prefix_nil, List.infix_nil]
  | cons c text ih =>
    rw [cutAt?, List.infix_cons_iff, not_or, ← ih, ← after_eq_none_iff]
    cases after? pattern (c :: text) <;> simp

/-- A pattern is found at the same place behind characters that it does not begin with. -/
theorem cutAt_lead (lead : Text) (c : Char) (pattern : Text) (outside : c ∉ lead) :
    cutAt? (c :: pattern) (lead ++ line) =
      (cutAt? (c :: pattern) line).map fun cut => (lead ++ cut.1, cut.2) := by
  induction lead with
  | nil => simp
  | cons d lead ih =>
    rw [List.mem_cons, not_or] at outside
    rw [List.cons_append, cutAt?, ih outside.2]
    cases found : cutAt? (c :: pattern) line <;> simp [after?, outside.1]

/-- A pattern is not found in a longer text either, if its last character does not stand in what is
added. -/
theorem cutAt_none_append (front : Text) (c : Char) (missing : cutAt? (front ++ [c]) line = none)
    (outside : c ∉ trail) : cutAt? (front ++ [c]) (line ++ trail) = none := by
  rw [cutAt_eq_none_iff] at missing ⊢
  rintro ⟨before, behind, whole⟩
  rcases List.append_eq_append_iff.mp whole with ⟨more, rfl, _⟩ | ⟨more, beyond, rfl⟩
  · exact missing ⟨before, more, rfl⟩
  · rcases List.eq_nil_or_concat more with rfl | ⟨inner, d, rfl⟩
    · exact missing ⟨before, [], by simpa using beyond⟩
    · rw [List.concat_eq_append, ← List.append_assoc, ← List.append_assoc] at beyond
      obtain ⟨_, same⟩ := List.append_inj' beyond rfl
      cases same
      simp at outside

theorem closedString_none_append (unclosed : Token.closedString? line = none) (free : '"' ∉ trail) :
    Token.closedString? (line ++ trail) = none := by
  have nothing (text : Text) (free : '"' ∉ text) : Token.closedString? text = none := by
    rw [Option.eq_none_iff_forall_ne_some]
    intro cut closed
    have last := List.mem_of_getLast? (Token.closedString_last text cut closed)
    exact free ((Token.closedString_spec text cut closed).1 ▸ List.mem_append_left _ last)
  fun_induction Token.closedString? line with
  | case1 => exact nothing trail free
  | case2 | case4 => cases unclosed
  | case3 c other => exact nothing (c :: trail) (by simp [Ne.symm other, free])
  | case5 text => simp [Token.closedString?]
  | case6 d text other quote ih =>
    simp [Token.closedString?, other, ih (Option.map_eq_none_iff.mp unclosed)]
  | case7 c d text quote backslash ih =>
    have later := ih (Option.map_eq_none_iff.mp unclosed)
    rw [List.cons_append] at later
    simp [Token.closedString?, quote, backslash, later]

/-- White space behind a stretch and its rest stays behind them, or belongs to the stretch if it takes
the whole line. -/
theorem begins_trail {stretch : Stretch} {rest : Text} (begins : Begins stretch rest)
    (blank : ∀ c ∈ trail, isBlank c = true) :
    Begins stretch (rest ++ trail) ∨ (rest = [] ∧ Begins (stretch.widen trail) []) := by
  obtain ⟨stroke, quote⟩ := free_of_blank trail blank
  cases begins with
  | @plain c rest other apart =>
    refine Or.inl (.plain other fun same d head => ?_)
    cases rest with
    | nil =>
      have white := blank d (List.mem_of_mem_head? head)
      constructor <;> rintro rfl <;> exact absurd white (by decide)
    | cons e rest => exact apart same d head
  | string closed => exact Or.inl (.string closed)
  | block closes => exact Or.inl (.block (cutAt_append _ _ _ _ _ closes))
  | broken unclosed => exact Or.inr ⟨rfl, .broken (closedString_none_append _ trail unclosed quote)⟩
  | line => exact Or.inr ⟨rfl, .line⟩
  | opened runs => exact Or.inr ⟨rfl, .opened (cutAt_none_append _ trail ['*'] '/' runs stroke)⟩

/-- One text is another one with white space behind it. -/
def Trails (text wide : Text) : Prop := ∃ gap, (∀ c ∈ gap, isBlank c = true) ∧ wide = text ++ gap

theorem trails_widen (here running : Bool) (stretch : Stretch) (blank : ∀ c ∈ trail, isBlank c = true) :
    Trails (stretch.bareAs here running) ((stretch.widen trail).bareAs here running) := by
  have covered (goes : Bool) (text : Text) :
      Trails (if goes then whiten text else text)
        (if goes then whiten (text ++ trail) else text ++ trail) := by
    cases goes with
    | false => exact ⟨trail, blank, rfl⟩
    | true => exact ⟨whiten trail, blank_whiten trail, whiten_append _ _⟩
  cases stretch with
  | code text => exact ⟨trail, blank, rfl⟩
  | comment text | opened text =>
    simp only [Stretch.widen, Stretch.bareAs, isDoc_append _ _ blank]
    exact covered _ _

theorem opened_widen (stretch : Stretch) :
    (stretch.widen trail).opened?.isSome = stretch.opened?.isSome := by cases stretch <;> rfl

/-- White space behind a line stays white space behind it. -/
theorem bareAs_trail (here running : Bool) (blank : ∀ c ∈ trail, isBlank c = true) :
    Trails (bareAs here running line) (bareAs here running (line ++ trail)) := by
  induction line using stretch_induction with
  | nil =>
    have kept := bareAs_free here running trail [] (free_of_blank trail blank)
    rw [List.append_nil] at kept
    exact ⟨trail, blank, by simpa using kept⟩
  | stretch stretch rest begins ih =>
    rw [bareAs_begins _ _ begins]
    rcases begins_trail trail begins blank with more | ⟨rfl, wider⟩
    · obtain ⟨gap, white, whole⟩ := ih
      rw [List.append_assoc, bareAs_begins _ _ more, whole]
      exact ⟨gap, white, (List.append_assoc _ _ _).symm⟩
    · have whole := bareAs_begins here running wider
      rw [List.append_nil, Stretch.text_widen] at whole
      rw [List.append_nil, whole, bareAs_nil, List.append_nil, List.append_nil]
      exact trails_widen trail here running stretch blank

theorem opened_trail (blank : ∀ c ∈ trail, isBlank c = true) :
    (opened? (line ++ trail)).isSome = (opened? line).isSome := by
  induction line using stretch_induction with
  | nil =>
    have shut := opened_free trail [] (free_of_blank trail blank)
    rw [List.append_nil] at shut
    rw [List.nil_append, shut]
  | stretch stretch rest begins ih =>
    rw [opened_begins begins]
    rcases begins_trail trail begins blank with more | ⟨rfl, wider⟩
    · rw [List.append_assoc, opened_begins more, Option.isSome_or, Option.isSome_or, ih]
    · have whole := opened_begins wider
      rw [List.append_nil, Stretch.text_widen] at whole
      rw [List.append_nil, whole, Option.isSome_or, Option.isSome_or, opened_widen]

end Trailing

end Text

end HeaderBindings
