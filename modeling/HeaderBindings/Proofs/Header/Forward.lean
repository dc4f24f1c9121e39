import HeaderBindings.Proofs.Header.Insertion
import HeaderBindings.Proofs.Token.Rendering
import Mathlib.Data.List.Forall2

/-!
Forward declarations of protocols between the declarations of a header. One that stands on a single
line changes nothing but the numbers of the lines below it. One that is broken over lines is taken for
a protocol with a body, and everything up to the next end of a block is skipped.
-/

namespace HeaderBindings

namespace Token

/-- The tokens of a forward declaration of protocols. -/
def forward (names : List Text) : List Token :=
  .directive "@protocol".toList :: ((names.map .identifier).intersperse .comma ++ [.semicolon])

theorem blank_of_gap (c : Char) (gap : isGap c = true) : isBlank c = true := by
  simp only [isGap, Bool.or_eq_true, beq_iff_eq] at gap
  rcases gap with (((rfl | rfl) | rfl) | rfl) | rfl <;> decide

/-- Behind its first token, a text without blanks at its front goes on with the others. -/
theorem front_of_prints {token : Token} {tokens : List Token} {text : Text}
    (prints : Prints (token :: tokens) text) (known : token ≠ .unknown)
    (visible : ∀ c ∈ text.head?, isBlank c = false) :
    Spells token token.text ∧ ∃ rest, text = token.text ++ rest := by
  cases prints with
  | @next _ _ gap spelled rest blank spells ends later =>
    have own := text_of_spells spells known
    cases gap with
    | nil => exact ⟨own ▸ spells, rest, by rw [own, List.nil_append]⟩
    | cons c gap =>
      have seen := blank_of_gap c (blank c List.mem_cons_self)
      rw [visible c rfl] at seen
      cases seen

/-- A text without blanks at its end ends with its last token. -/
theorem last_of_prints {tokens : List Token} {token : Token} {text : Text}
    (prints : Prints (tokens ++ [token]) text) (known : token ≠ .unknown)
    (visible : ∀ c ∈ text.getLast?, isBlank c = false) :
    Spells token token.text ∧ ∃ front, text = front ++ token.text := by
  induction tokens generalizing text with
  | nil =>
    cases prints with
    | @next _ _ gap spelled rest blank spells ends later =>
      have own := text_of_spells spells known
      cases later with
      | done trail =>
        rcases List.eq_nil_or_concat rest with rfl | ⟨inner, c, rfl⟩
        · exact ⟨own ▸ spells, gap, by rw [own, List.append_nil]⟩
        · have seen := blank_of_gap c (trail c (by simp))
          rw [visible c (by simp)] at seen
          cases seen
  | cons first tokens ih =>
    cases prints with
    | @next _ _ gap spelled rest blank spells ends later =>
      have inner : ∀ c ∈ rest.getLast?, isBlank c = false := by
        intro c last
        refine visible c ?_
        rw [List.getLast?_append, last]
        rfl
      obtain ⟨own, front, rfl⟩ := ih later inner
      exact ⟨own, gap ++ spelled ++ front, by simp⟩

theorem nil_iff_of_prints {tokens : List Token} {text : Text} (prints : Prints tokens text)
    (visible : ∀ c ∈ text.head?, isBlank c = false) : text = [] ↔ tokens = [] := by
  constructor
  · rintro rfl
    have none := lex_of_prints _ _ prints
    rwa [lex, eq_comm] at none
  · rintro rfl
    cases prints with
    | done blank =>
      cases text with
      | nil => rfl
      | cons c text =>
        have seen := blank_of_gap c (blank c List.mem_cons_self)
        rw [visible c rfl] at seen
        cases seen

/-- The tokens of a list of names. -/
def Listed (token : Token) : Prop := token = .comma ∨ ∃ name, token = .identifier name

theorem listed_of_names (names : List Text) (token : Token)
    (member : token ∈ (names.map Token.identifier).intersperse .comma) : Listed token := by
  induction names with
  | nil => cases member
  | cons name names ih =>
    cases names with
    | nil => exact .inr ⟨name, by simpa using member⟩
    | cons second names =>
      simp only [List.map_cons, List.intersperse, List.mem_cons] at member ih
      rcases member with rfl | rfl | later
      · exact .inr ⟨name, rfl⟩
      · exact .inl rfl
      · exact ih later

/-- No token of a list begins a comment, a preprocessor line or a directive, or ends like a
semicolon. -/
theorem edges_of_listed {token : Token} (listed : Listed token) (spells : Spells token token.text) :
    (∃ c rest, token.text = c :: rest ∧ c ≠ '#' ∧ c ≠ '/' ∧ c ≠ '@') ∧
      token.text.getLast? ≠ some ';' := by
  rcases listed with rfl | ⟨name, rfl⟩
  · exact ⟨⟨',', [], rfl, by decide⟩, by decide⟩
  · obtain ⟨c, rest, rfl, start, chars⟩ := name_of_spells spells
    obtain ⟨-, -, noSign, -, slash, -⟩ := plain_of_nameStart c start
    refine ⟨⟨c, rest, rfl, ?_, slash, noSign⟩, fun last => ?_⟩
    · rintro rfl
      cases start
    · have all : ∀ d ∈ c :: rest, isNameChar d = true := by
        simpa using ⟨nameChar_of_nameStart c start, chars⟩
      have semicolon := all ';' (List.mem_of_getLast? last)
      cases semicolon

end Token

namespace Reader

/-- Lines on which some tokens stand, in a layout that breaks no token. -/
def Lay (groups : List (List Token)) (lines : List Text) : Prop :=
  List.Forall₂ (fun group line => Token.Prints group (Text.trim line)) groups lines

/-- Between declarations, with nothing pending. -/
structure Rests (reader : Reader) : Prop where
  region : reader.region = .outside
  comment : reader.comment = none
  doc : reader.doc = none
  availability : reader.availability = none

instance (reader : Reader) : Decidable reader.Rests :=
  decidable_of_iff (reader.region = .outside ∧ reader.comment = none ∧ reader.doc = none ∧
      reader.availability = none)
    ⟨fun ⟨region, comment, doc, availability⟩ => ⟨region, comment, doc, availability⟩,
      fun rests => ⟨rests.region, rests.comment, rests.doc, rests.availability⟩⟩

variable {reader : Reader}

/-- A line that begins neither a comment nor a preprocessor line is a mark or code. -/
theorem isCode_of_head (c : Char) (rest : Text) (directive : c ≠ '#') (slash : c ≠ '/') :
    c :: rest ∈ nonnullMarks ∨ isCode (c :: rest) = true := by
  by_cases mark : c :: rest ∈ nonnullMarks
  · exact .inl mark
  · have slashes (word : Text) : Text.startsWith ('/' :: word) (c :: rest) = false := by
      rw [← Bool.not_eq_true, Text.startsWith_iff]
      rintro ⟨_, whole⟩
      cases whole
      exact slash rfl
    right
    simp [isCode, directive, slashes, mark]

/-- A line that begins with the directive of a protocol is a forward declaration if a semicolon ends
it, and a protocol with a body otherwise. -/
theorem readLine_protocol (rests : reader.Rests) (number : Nat) (raw : Text) (tokens : List Token)
    (prints : Token.Prints (.directive "@protocol".toList :: tokens) raw.trim) :
    reader.readLine number raw =
      if raw.trim.getLast? = some ';' then (reader, [])
      else ({ reader with region := .skipping }, [.skippedProtocol number]) := by
  obtain ⟨-, rest, whole⟩ := Token.front_of_prints prints (by simp) (Text.head_trim raw)
  have code : isCode raw.trim = true := by
    rw [whole]
    refine (isCode_of_head '@' _ (by decide) (by decide)).resolve_left ?_
    simp [nonnullMarks]
  have tokens' := Token.lex_of_prints _ _ prints
  have directive : firstDirective? raw.trim = some "@protocol".toList := by
    simp [firstDirective?, tokens']
  have notMacro : macroOnly? raw.trim = none := by
    simp [macroOnly?, tokens', macroRun]
  rw [readLine_code reader number raw rests.comment code]
  have resting :
      { reader with doc := none, availability := none, region := .outside } = reader := by
    rw [← rests.region, ← rests.doc, ← rests.availability]
  simp only [codeLine, rests.region, outsideLine, directive, notMacro]
  by_cases ends : raw.trim.getLast? = some ';'
  · simpa [ends] using resting
  · simp [ends]

/-- In a block that is skipped, names, commas and semicolons go by. A line that is the name of a mark
is one. -/
theorem readLine_names (region : reader.region = .skipping) (closed : reader.comment = none)
    (number : Nat) (raw : Text) (token : Token) (tokens : List Token)
    (plain : token = .semicolon ∨ token.Listed) (prints : Token.Prints (token :: tokens) raw.trim) :
    ∃ assumed, reader.readLine number raw = ({ reader with assumeNonnull := assumed }, []) := by
  have known : token ≠ .unknown := by
    rcases plain with rfl | rfl | ⟨name, rfl⟩ <;> simp
  obtain ⟨spells, rest, whole⟩ := Token.front_of_prints prints known (Text.head_trim raw)
  obtain ⟨c, text, spelled, directive, slash, noSign⟩ :
      ∃ c text, token.text = c :: text ∧ c ≠ '#' ∧ c ≠ '/' ∧ c ≠ '@' := by
    rcases plain with rfl | listed
    · exact ⟨';', [], rfl, by decide⟩
    · exact (Token.edges_of_listed listed spells).1
  rw [spelled, List.cons_append] at whole
  rcases isCode_of_head c (text ++ rest) directive slash with mark | code
  · obtain ⟨ruled, marks⟩ := uncommented_mark _ mark
    refine ⟨ruled, ?_⟩
    rw [readLine, peel_of_none _ _ closed, whole, marks]
  · have unended : startsEnd (c :: (text ++ rest)) = false := by
      rw [startsEnd, ← Bool.not_eq_true, Text.startsWith_iff]
      rintro ⟨_, front⟩
      exact noSign (Option.some.inj (congrArg List.head? front)).symm
    have skipped : reader.codeLine number raw.trim = (reader, []) := by
      simp [codeLine, region, whole, unended]
    exact ⟨reader.assumeNonnull, by
      rw [readLine_code reader number raw closed (by rw [whole]; exact code), skipped]⟩

theorem readLines_names {groups : List (List Token)} {lines : List Text} (lay : Lay groups lines)
    (plain : ∀ token ∈ groups.flatten, token = .semicolon ∨ token.Listed)
    (region : reader.region = .skipping) (closed : reader.comment = none) (number : Nat) :
    ∃ assumed, reader.readLines number lines = ({ reader with assumeNonnull := assumed }, []) := by
  induction lay generalizing reader number with
  | nil => exact ⟨reader.assumeNonnull, rfl⟩
  | @cons group line groups lines prints later ih =>
    have below (own : Reader) (region : own.region = .skipping) (closed : own.comment = none) :
        ∃ assumed, own.readLines (number + 1) lines = ({ own with assumeNonnull := assumed }, []) :=
      ih (fun token member => plain token (List.mem_append_right _ member)) region closed (number + 1)
    cases group with
    | nil =>
      have blank := (Token.nil_iff_of_prints prints (Text.head_trim line)).mpr rfl
      have idle := reader.readLine_idle number line closed (by rw [blank]; rfl)
      obtain ⟨assumed, rest⟩ := below reader region closed
      exact ⟨assumed, by simp [readLines, idle, rest]⟩
    | cons token tokens =>
      obtain ⟨now, first⟩ := readLine_names region closed number line token tokens
        (plain token (by simp)) prints
      obtain ⟨assumed, rest⟩ := below { reader with assumeNonnull := now } region closed
      exact ⟨assumed, by simp [readLines, first, rest]⟩

/-- How many of some lines hold any text. -/
def written (lines : List Text) : Nat := lines.countP fun line => !(Text.trim line).isEmpty

theorem written_eq_zero_iff {groups : List (List Token)} {lines : List Text}
    (lay : Lay groups lines) : written lines = 0 ↔ groups.flatten = [] := by
  induction lay with
  | nil => exact ⟨fun _ => rfl, fun _ => rfl⟩
  | @cons group line groups lines prints later ih =>
    have blank := Token.nil_iff_of_prints prints (Text.head_trim line)
    rw [List.flatten_cons, List.append_eq_nil_iff, ← ih, ← blank, written, written, List.countP_cons]
    simp [and_comm]

theorem readLines_blank {groups : List (List Token)} {lines : List Text} (lay : Lay groups lines)
    (empty : groups.flatten = []) (closed : reader.comment = none) (number : Nat) :
    reader.readLines number lines = (reader, []) := by
  induction lay generalizing number with
  | nil => rfl
  | @cons group line groups lines prints later ih =>
    obtain ⟨here, below⟩ := List.append_eq_nil_iff.mp empty
    have blank := (Token.nil_iff_of_prints prints (Text.head_trim line)).mpr here
    have idle := reader.readLine_idle number line closed (by rw [blank]; rfl)
    simp [readLines, idle, ih below]

/-- The first line of a declaration that is broken does not end with the semicolon. -/
theorem last_of_broken {tokens : List Token} {names : List Text} {line : Text}
    (prints : Token.Prints (.directive "@protocol".toList :: tokens) line.trim)
    (front : tokens <+: (names.map Token.identifier).intersperse .comma) :
    line.trim.getLast? ≠ some ';' := by
  have ends (init : List Token) (token : Token)
      (split : .directive "@protocol".toList :: tokens = init ++ [token]) (known : token ≠ .unknown)
      (other : Token.Spells token token.text →
        token.text ≠ [] ∧ token.text.getLast? ≠ some ';') : line.trim.getLast? ≠ some ';' := by
    rw [split] at prints
    obtain ⟨spells, before, text⟩ := Token.last_of_prints prints known (Text.last_trim line)
    obtain ⟨written, last⟩ := other spells
    rwa [text, List.getLast?_append_of_ne_nil _ written]
  rcases List.eq_nil_or_concat tokens with rfl | ⟨init, token, rfl⟩
  · exact ends [] _ rfl (by simp) fun _ => by decide
  · have listed := Token.listed_of_names names token (front.subset (by simp))
    have known : token ≠ .unknown := by
      rcases listed with rfl | ⟨name, rfl⟩ <;> simp
    refine ends (.directive "@protocol".toList :: init) token (by simp) known fun spells => ?_
    obtain ⟨⟨c, rest, spelled, -⟩, last⟩ := Token.edges_of_listed listed spells
    exact ⟨by simp [spelled], last⟩

/-- A forward declaration that stands on one line leaves a reader between declarations as it is; behind
one that is broken over lines it skips what follows. -/
theorem readLines_forward (rests : reader.Rests) (names : List Text) {groups : List (List Token)}
    {lines : List Text} (cut : groups.flatten = Token.forward names) (lay : Lay groups lines)
    (number : Nat) :
    (written lines = 1 → reader.readLines number lines = (reader, [])) ∧
      (written lines ≠ 1 → (reader.readLines number lines).1.region = .skipping) := by
  induction lay generalizing number with
  | nil => cases cut
  | @cons group line groups lines prints later ih =>
    cases group with
    | nil =>
      have blank := (Token.nil_iff_of_prints prints (Text.head_trim line)).mpr rfl
      have idle := reader.readLine_idle number line rests.comment (by rw [blank]; rfl)
      have same : written (line :: lines) = written lines := by simp [written, blank]
      have below := ih cut (number + 1)
      simpa only [same, readLines, idle, List.nil_append] using below
    | cons token tokens =>
      -- The directive is the first token of the declaration.
      obtain ⟨rfl, rest⟩ : token = .directive "@protocol".toList ∧
          tokens ++ groups.flatten =
            (names.map Token.identifier).intersperse .comma ++ [.semicolon] := by
        simpa [Token.forward] using cut
      have first := readLine_protocol rests number line tokens prints
      have counted : written (line :: lines) = written lines + 1 := by
        have seen := Token.nil_iff_of_prints prints (Text.head_trim line)
        simp [written, seen]
      by_cases whole : groups.flatten = []
      · have ends : line.trim.getLast? = some ';' := by
          rw [whole, List.append_nil] at rest
          rw [rest, ← List.cons_append] at prints
          obtain ⟨-, front, text⟩ := Token.last_of_prints prints (by simp) (Text.last_trim line)
          simp [text, Token.text]
        rw [if_pos ends] at first
        have none := (written_eq_zero_iff later).mpr whole
        constructor
        · intro _
          simp [readLines, first, readLines_blank later whole rests.comment]
        · intro more
          omega
      · have other := last_of_broken prints (by
          rcases List.eq_nil_or_concat groups.flatten with nothing | ⟨inner, last, more⟩
          · exact absurd nothing whole
          · rw [more, List.concat_eq_append, ← List.append_assoc] at rest
            exact ⟨inner, (List.append_inj' rest rfl).1⟩)
        rw [if_neg other] at first
        have plain : ∀ token ∈ groups.flatten, token = .semicolon ∨ token.Listed := by
          intro token member
          have known := rest ▸ List.mem_append_right tokens member
          rcases List.mem_append.mp known with listed | semicolon
          · exact .inr (Token.listed_of_names names token listed)
          · exact .inl (List.mem_singleton.mp semicolon)
        let skipping : Reader := { reader with region := .skipping }
        have region : skipping.region = .skipping := rfl
        have closed : skipping.comment = none := rests.comment
        obtain ⟨assumed, below⟩ := readLines_names later plain region closed (number + 1)
        have more : written lines ≠ 0 := fun none => whole ((written_eq_zero_iff later).mp none)
        constructor
        · intro one
          omega
        · intro _
          rw [readLines, first, below]

end Reader

/-- Lines on which a forward declaration of protocols stands, broken between its tokens if at all. -/
def StandsOn (names lines : List Text) : Prop :=
  ∃ groups : List (List Token), groups.flatten = Token.forward names ∧ Reader.Lay groups lines

/-- A warning without the number of its line. -/
def Diagnostic.unplaced (diagnostic : Diagnostic) : Diagnostic := { diagnostic with line := none }

theorem Diagnostic.unplaced_pushed (first count : Nat) (diagnostic : Diagnostic) :
    (diagnostic.pushed first count).unplaced = diagnostic.unplaced := rfl

/-- Between declarations, lines that change nothing of the reader and report nothing can be put in. -/
theorem extractUnits_inserted (path : Text) {before lines behind : List Text}
    (free : ∀ line ∈ before ++ lines ++ behind, '\n' ∉ line) (set : ClassSet)
    (later : List SourceUnit)
    (quiet : (Reader.readLines {} 1 before).1.readLines (1 + before.length) lines =
      ((Reader.readLines {} 1 before).1, [])) :
    let kept := Run.extractUnits set (.ofLines path (before ++ behind) :: later)
    let longer := Run.extractUnits set (.ofLines path (before ++ lines ++ behind) :: later)
    longer.1.classes = kept.1.classes ∧
      longer.1.diagnostics.map Diagnostic.unplaced = kept.1.diagnostics.map Diagnostic.unplaced := by
  obtain ⟨same, above, below, rest, kept, longer⟩ :=
    extractUnits_insertion path free set later quiet rfl fun _ => rfl
  refine ⟨same, ?_⟩
  simp only [longer, kept, SourceUnit.reported, warningsBy_nil, List.map_append, List.map_map,
    List.map_nil, List.append_nil, Function.comp_def, Diagnostic.unplaced_pushed]

/-- A forward declaration of protocols on one line between declarations leaves the classes as they are,
and the warnings but for the numbers of their lines. Behind one that is broken over lines the header is
skipped up to the next end of a block. -/
theorem Run.extractUnits_forward (set : ClassSet) (path : Text) (names : List Text)
    (before lines behind : List Text) (later : List SourceUnit)
    (free : ∀ line ∈ before ++ lines ++ behind, '\n' ∉ line)
    (rests : (Reader.readLines {} 1 before).1.Rests) (stands : StandsOn names lines) :
    let kept := Run.extractUnits set (.ofLines path (before ++ behind) :: later)
    let longer := Run.extractUnits set (.ofLines path (before ++ lines ++ behind) :: later)
    (Reader.written lines = 1 → longer.1.classes = kept.1.classes ∧
        longer.1.diagnostics.map Diagnostic.unplaced = kept.1.diagnostics.map Diagnostic.unplaced) ∧
      (Reader.written lines ≠ 1 →
        (Reader.readLines {} 1 (before ++ lines)).1.region = .skipping) := by
  obtain ⟨groups, cut, lay⟩ := stands
  obtain ⟨single, broken⟩ := Reader.readLines_forward rests names cut lay (1 + before.length)
  refine ⟨fun one => ?_, fun more => ?_⟩
  · exact extractUnits_inserted path free set later (single one)
  · rw [Reader.readLines_append]
    exact broken more

def forwardNames : List Text := ["Shown".toList, "Hidden".toList]

/-- A forward declaration on one line and over two lines, and a class below it. -/
def forwardLine : List Text := ["@protocol Shown, Hidden;".toList]

def brokenForward : List Text := ["@protocol Shown,".toList, "    Hidden;".toList]

def belowForward : List Text :=
  ["@interface Panel : NSObject".toList, "- (void)hide;".toList, "@end".toList]

-- A word ends in front of a character that no name holds.
theorem Token.ends_word (c : Char) (text : Text) (other : isNameChar c = false) :
    ∀ d ∈ (c :: text).head?, isNameChar d = false := by
  rintro _ ⟨⟩
  exact other

theorem standsOn_forwardLine : StandsOn forwardNames forwardLine := by
  refine ⟨[Token.forward forwardNames], by simp, .cons ?_ .nil⟩
  have text : Text.trim "@protocol Shown, Hidden;".toList =
      [] ++ "@protocol".toList ++ ([' '] ++ "Shown".toList ++ ([] ++ [','] ++
        ([' '] ++ "Hidden".toList ++ ([] ++ [';'] ++ [])))) := by decide
  rw [text]
  refine .next (by decide) (.directive (by decide) (by decide)) (Token.ends_word _ _ (by decide)) ?_
  refine .next (by decide) (.identifier (by decide) (by decide)) (Token.ends_word _ _ (by decide)) ?_
  refine .next (by decide) (.mark (by decide)) trivial ?_
  refine .next (by decide) (.identifier (by decide) (by decide)) (Token.ends_word _ _ (by decide)) ?_
  exact .next (by decide) (.mark (by decide)) trivial (.done (by decide))

theorem standsOn_brokenForward : StandsOn forwardNames brokenForward := by
  refine ⟨[[.directive "@protocol".toList, .identifier "Shown".toList, .comma],
    [.identifier "Hidden".toList, .semicolon]], rfl, .cons ?_ (.cons ?_ .nil)⟩
  · have text : Text.trim "@protocol Shown,".toList =
        [] ++ "@protocol".toList ++ ([' '] ++ "Shown".toList ++ ([] ++ [','] ++ [])) := by decide
    rw [text]
    refine .next (by decide) (.directive (by decide) (by decide)) (Token.ends_word _ _ (by decide)) ?_
    refine .next (by decide) (.identifier (by decide) (by decide)) (Token.ends_word _ _ (by decide)) ?_
    exact .next (by decide) (.mark (by decide)) trivial (.done (by decide))
  · have text : Text.trim "    Hidden;".toList = [] ++ "Hidden".toList ++ ([] ++ [';'] ++ []) := by
      decide
    rw [text]
    refine .next (by decide) (.identifier (by decide) (by decide)) (Token.ends_word _ _ (by decide)) ?_
    exact .next (by decide) (.mark (by decide)) trivial (.done (by decide))

theorem extractUnits_forward_panel :
    (∀ line ∈ [] ++ forwardLine ++ belowForward, '\n' ∉ line) ∧ (Reader.readLines {} 1 []).1.Rests ∧
      StandsOn forwardNames forwardLine ∧ Reader.written forwardLine = 1 ∧
      let kept := Run.extractUnits .empty [.ofLines "Panel.h".toList belowForward]
      let longer := Run.extractUnits .empty [.ofLines "Panel.h".toList (forwardLine ++ belowForward)]
      longer.1.classes = kept.1.classes ∧
        longer.1.diagnostics.map Diagnostic.unplaced = kept.1.diagnostics.map Diagnostic.unplaced := by
  have free : ∀ line ∈ [] ++ forwardLine ++ belowForward, '\n' ∉ line := by decide +kernel
  have rests : (Reader.readLines {} 1 []).1.Rests := by decide +kernel
  have one : Reader.written forwardLine = 1 := by decide +kernel
  have same := Run.extractUnits_forward .empty "Panel.h".toList forwardNames [] forwardLine
    belowForward [] free rests standsOn_forwardLine
  exact ⟨free, rests, standsOn_forwardLine, one, same.1 one⟩

/-- Broken over two lines, the forward declaration hides the class below it. -/
theorem broken_forward_hides :
    (Reader.readLines {} 1 []).1.Rests ∧ StandsOn forwardNames brokenForward ∧
      (Run.extractUnits .empty [.ofLines "Panel.h".toList belowForward]).1.classes.map (·.name) =
        ["Panel".toList] ∧
      (Run.extractUnits .empty
        [.ofLines "Panel.h".toList (brokenForward ++ belowForward)]).1.classes = [] :=
  ⟨by decide +kernel, standsOn_brokenForward, by decide +kernel, by decide +kernel⟩

end HeaderBindings
