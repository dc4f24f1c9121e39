import HeaderBindings.Proofs.Header.Sights
import HeaderBindings.Proofs.Header.Twins
import HeaderBindings.Proofs.Header.Refinement

/-!
Documentation and what it is written for. A declaration is documented by the last documentation comment
above it if no other code but macros and section marks stands between the two. The reader keeps one
comment pending. Lines that it passes over without a look, in a block that is skipped or in the middle
of a declaration, leave it pending, so that a declaration below them may take it; a header in which none
does is documented as it is written.
-/

namespace HeaderBindings

/-- What a line of code means for the documentation above it. -/
inductive Role where
  | takes
  | keeps
  | passes
  | drops
  deriving DecidableEq, Repr

namespace Reader

/-- Lines above a block that is skipped. -/
def startsBlock (line : Text) : Bool :=
  (firstDirective? line = some "@protocol".toList && line.getLast? != some ';')
    || firstDirective? line = some "@implementation".toList

end Reader

namespace Region

/-- Lines that start a declaration: a header between declarations, a member in a class. -/
def starts : Region → Text → Bool
  | .outside, line => Reader.firstDirective? line = some "@interface".toList
  | .skipping, _ => false
  | .inClass current, line => decide (current.braceDepth ≤ 0) && Reader.startsMember line

/-- Lines between documentation and what it is written for: macros, and the marks of sections of
members where code is not between declarations. -/
def transparent : Region → Text → Bool
  | .outside, line => (macroOnly? line).isSome
  | _, line => (macroOnly? line).isSome || OpenClass.sectionMarks.contains line

/-- Lines that are passed over: in a block that is skipped and above it, in and above a block of
variables, and behind the first line of a declaration. -/
def passes : Region → Text → Bool
  | .outside, line => Reader.startsBlock line
  | .skipping, _ => true
  | .inClass current, line =>
    decide (current.braceDepth > 0) || (current.joined? line).isSome || line.head? == some '{'

def role (region : Region) (line : Text) : Role :=
  if region.starts line then .takes
  else if region.transparent line then .keeps
  else if region.passes line then .passes
  else .drops

end Region

namespace Reader

variable (reader : Reader)

def withDoc (doc : Option DocComment) : Reader := { reader with doc := doc }

/-- The documentation that is written for what stands below a sight. -/
def docBelow : Sight → Option DocComment
  | .doc doc => some doc
  | .nonnull _ => reader.doc
  | .code _ line => if reader.region.role line = .keeps then reader.doc else none

/-- The reader below a sight, with what is written there pending. -/
def below (sight : Sight) : Reader := (reader.see sight).1.withDoc (reader.docBelow sight)

/-- Taking in sights with the documentation that is written for them pending at each one. -/
def seeWritten (reader : Reader) : List Sight → Reader × List Note
  | [] => (reader, [])
  | sight :: sights =>
    let later := (reader.below sight).seeWritten sights
    (later.1, (reader.see sight).2 ++ later.2)

/-- Whether no line takes documentation that is pending above lines that were passed over. -/
def docsDirect (reader : Reader) (carried : Bool) : List Sight → Bool
  | [] => true
  | .doc doc :: sights => (reader.see (.doc doc)).1.docsDirect false sights
  | .nonnull assumed :: sights => (reader.see (.nonnull assumed)).1.docsDirect carried sights
  | .code number line :: sights =>
    let next := (reader.codeLine number line).1
    match reader.region.role line with
    | .takes => !carried && next.docsDirect false sights
    | .keeps => next.docsDirect carried sights
    | .passes => next.docsDirect (carried || reader.doc.isSome) sights
    | .drops => next.docsDirect false sights

/-! ## One line of code -/

theorem macroOnly_of_first {c : Char} {text rest : Text} {token : Token}
    (read : Token.first c text = (some token, rest)) (other : ∀ name, token ≠ .identifier name) :
    macroOnly? (c :: text) = none := by
  have tokens : lex (c :: text) = token :: lex rest := by
    rw [lex, read]
    rfl
  have run : macroRun (token :: lex rest) = ⟨none, token :: lex rest⟩ := by
    cases token with
    | identifier name => exact absurd rfl (other name)
    | _ => simp [macroRun]
  simp [macroOnly?, tokens, run]

/-- The characters that tell lines of a class apart. -/
def classMarks : List Char := ['@', '-', '+', '<', '{']

/-- A line that holds nothing but macros starts with none of them. -/
theorem head_of_macroOnly (line : Text) (alone : (macroOnly? line).isSome = true) :
    ∀ c ∈ line.head?, c ∉ classMarks := by
  rintro c head mark
  obtain ⟨text, rfl⟩ := List.head?_eq_some_iff.mp head
  have other {token : Token} {rest : Text} (read : Token.first c text = (some token, rest))
      (apart : ∀ name, token ≠ .identifier name) : False := by
    rw [macroOnly_of_first read apart] at alone
    cases alone
  simp only [classMarks, List.mem_cons, List.not_mem_nil, or_false] at mark
  rcases mark with rfl | rfl | rfl | rfl | rfl
  · have read : Token.first '@' text = Token.atSign text := rfl
    unfold Token.atSign at read
    split at read
    · split at read
      · exact other read (by simp)
      · exact other read (by simp)
    · exact other read (by simp)
  · exact @other .minus text rfl (by simp)
  · exact @other .plus text rfl (by simp)
  · exact @other .less text rfl (by simp)
  · exact @other .leftBrace text rfl (by simp)

theorem plain_of_transparent (current : OpenClass) (line : Text)
    (transparent : (Region.inClass current).transparent line = true) :
    startsMember line = false ∧ startsEnd line = false ∧ line.head? ≠ some '<' ∧
      line.head? ≠ some '{' := by
  rcases Bool.or_eq_true_iff.mp transparent with alone | mark
  · have front (word : Text) (known : word.head?.any classMarks.contains = true) :
        ¬ word <+: line := by
      rintro ⟨rest, rfl⟩
      obtain ⟨c, head, mark⟩ := (Option.any_eq_true _ _).mp known
      refine head_of_macroOnly _ alone c ?_ (List.contains_iff_mem.mp mark)
      rw [List.head?_append, head]
      rfl
    have first (c : Char) (known : c ∈ classMarks) : line.head? ≠ some c := by
      intro head
      exact head_of_macroOnly line alone c head known
    refine ⟨?_, ?_, first '<' (by decide), first '{' (by decide)⟩
    · rw [← Bool.not_eq_true, startsMember_iff]
      rintro ⟨word, known, starts⟩
      have marks : ∀ word ∈ memberStarts, word.head?.any classMarks.contains = true := by decide
      exact front word (marks word known) starts
    · rw [startsEnd, ← Bool.not_eq_true, Text.startsWith_iff]
      exact front _ (by decide)
  · have marks : ∀ mark ∈ OpenClass.sectionMarks, startsMember mark = false ∧ startsEnd mark = false ∧
        mark.head? ≠ some '<' ∧ mark.head? ≠ some '{' := by decide
    exact marks line (List.contains_iff_mem.mp mark)

/-- Between members, a line that does not start one is read in the same way whatever is pending. -/
theorem freshLine_withDoc (doc : Option DocComment) (current : OpenClass) (number : Nat) (line : Text)
    (other : startsMember line = false) :
    (reader.withDoc doc).freshLine current number line =
      ((reader.freshLine current number line).1.withDoc
          (if (Region.inClass current).transparent line || line.head? == some '{' then doc else none),
        (reader.freshLine current number line).2) := by
  by_cases ends : startsEnd line = true
  · have dense : (Region.inClass current).transparent line = false := by
      rw [← Bool.not_eq_true]
      intro transparent
      rw [(plain_of_transparent current line transparent).2.1] at ends
      cases ends
    have brace : (line.head? == some '{') = false := by
      obtain ⟨rest, rfl⟩ := (Text.startsWith_iff _ _).mp ends
      rfl
    simp [freshLine, ends, dense, brace, withDoc]
  · by_cases brace : line.head? = some '{'
    · simp [freshLine, ends, other, brace, withDoc, inside]
    · have same : (line = "@optional".toList || line = "@required".toList || (macroOnly? line).isSome) =
          (Region.inClass current).transparent line := by
        have mark := OpenClass.mem_sectionMarks line
        have meaning : (Region.inClass current).transparent line =
            ((macroOnly? line).isSome || OpenClass.sectionMarks.contains line) := rfl
        rw [meaning, Bool.or_comm, Bool.eq_iff_iff, Bool.or_eq_true, Bool.or_eq_true, Bool.or_eq_true,
          List.contains_iff_mem, mark]
        simp only [decide_eq_true_eq]
      have away : (line.head? == some '{') = false := by simpa using brace
      simp only [freshLine, ends, other, brace, same, away, Bool.or_false]
      by_cases transparent : (Region.inClass current).transparent line = true
      · simp [transparent, withDoc, inside]
      · simp [transparent, withDoc, inside]

theorem outsideLine_withDoc (doc : Option DocComment) (number : Nat) (line : Text)
    (other : Region.role .outside line ≠ .takes) :
    (reader.withDoc doc).outsideLine number line =
      ((reader.outsideLine number line).1.withDoc
          (if Region.role .outside line = .drops then none else doc),
        (reader.outsideLine number line).2) := by
  have apart : firstDirective? line ≠ some "@interface".toList := by
    intro found
    exact other (by simp [Region.role, Region.starts, found])
  have role : Region.role .outside line = if (macroOnly? line).isSome then .keeps
      else if startsBlock line then .passes else .drops := by
    simp only [Region.role, Region.starts, apart]
    rfl
  simp only [outsideLine, apart, if_false]
  rw [role]
  by_cases body : (decide (firstDirective? line = some "@protocol".toList) &&
      line.getLast? != some ';') = true
  · have block : startsBlock line = true := Bool.or_eq_true_iff.mpr (.inl body)
    simp only [body, block, if_true]
    cases macroOnly? line <;> rfl
  by_cases implementation : firstDirective? line = some "@implementation".toList
  · have block : startsBlock line = true :=
      Bool.or_eq_true_iff.mpr (.inr (decide_eq_true implementation))
    simp only [implementation, block, if_true]
    cases macroOnly? line <;> rfl
  have block : startsBlock line = false :=
    Bool.or_eq_false_iff.mpr ⟨Bool.eq_false_iff.mpr body, decide_eq_false implementation⟩
  simp only [body, implementation, block]
  cases macroOnly? line <;> rfl

theorem classLine_withDoc (doc : Option DocComment) (current : OpenClass) (number : Nat) (line : Text)
    (other : (Region.inClass current).role line ≠ .takes) :
    (reader.withDoc doc).classLine current number line =
      ((reader.classLine current number line).1.withDoc
          (if (Region.inClass current).role line = .drops then none else doc),
        (reader.classLine current number line).2) := by
  by_cases deep : current.braceDepth > 0
  · have kept : (Region.inClass current).role line ≠ .drops := by
      unfold Region.role
      split
      · simp
      · split <;> simp [Region.passes, deep]
    simp only [classLine, if_pos deep, if_neg kept]
    rfl
  have member : startsMember line = false := by
    rw [← Bool.not_eq_true]
    intro starts
    exact other (by simp [Region.role, Region.starts, starts, Int.not_lt.mp deep])
  have role : (Region.inClass current).role line =
      if (Region.inClass current).transparent line then .keeps
      else if (current.joined? line).isSome || line.head? == some '{' then .passes else .drops := by
    simp only [Region.role, Region.starts, Region.passes, member, deep]
    simp
  -- A line that is joined to what is pending leaves documentation where it is.
  have joins (text : Text) (joined : current.joined? line = some text) :
      (Region.inClass current).role line ≠ .drops := by
    rw [role, joined]
    split <;> simp
  have fresh (own : OpenClass) (apart : current.joined? line = none) :
      (reader.withDoc doc).freshLine own number line =
        ((reader.freshLine own number line).1.withDoc
            (if (Region.inClass current).role line = .drops then none else doc),
          (reader.freshLine own number line).2) := by
    have same : (Region.inClass own).transparent line = (Region.inClass current).transparent line := rfl
    rw [reader.freshLine_withDoc doc own number line member, role, apart, same]
    cases (Region.inClass current).transparent line <;> cases line.head? == some '{' <;> rfl
  simp only [classLine, if_neg deep]
  cases pending : current.pending with
  | nothing => exact fresh current (by simp [OpenClass.joined?, pending])
  | header text =>
    by_cases list : line.head? = some '<'
    · have joined := current.joined_header deep pending list
      simp only [list, if_true, if_neg (joins text joined)]
      rfl
    · simp only [list, if_false]
      exact fresh _ (by simp [OpenClass.joined?, pending, list])
  | member held =>
    simp only [memberLine, member, Bool.false_or]
    by_cases ends : startsEnd line = true
    · have apart : current.joined? line = none := by simp [OpenClass.joined?, pending, ends]
      simp only [ends, if_true, fresh _ apart]
      rfl
    · have inner : ¬ (startsMember line || startsEnd line) = true := by
        rwa [member, Bool.false_or]
      have joined := current.joined_member deep pending inner
      simp only [ends, if_neg (joins _ joined)]
      rfl

/-- A line that does not take documentation is read in the same way whatever is pending, and keeps or
drops it. -/
theorem codeLine_withDoc (doc : Option DocComment) (number : Nat) (line : Text)
    (other : reader.region.role line ≠ .takes) :
    (reader.withDoc doc).codeLine number line =
      ((reader.codeLine number line).1.withDoc
          (if reader.region.role line = .drops then none else doc),
        (reader.codeLine number line).2) := by
  have same : (reader.withDoc doc).region = reader.region := rfl
  simp only [codeLine, same]
  cases region : reader.region with
  | outside => exact reader.outsideLine_withDoc doc number line (region ▸ other)
  | inClass current => exact reader.classLine_withDoc doc current number line (region ▸ other)
  | skipping =>
    have kept : Region.role .skipping line ≠ .drops := by
      unfold Region.role
      split
      · simp
      · split <;> simp [Region.passes]
    rw [if_neg kept]
    dsimp only
    split <;> rfl

/-- A line that does not take documentation keeps or drops what is pending. -/
theorem doc_of_codeLine (number : Nat) (line : Text) (other : reader.region.role line ≠ .takes) :
    (reader.codeLine number line).1.doc =
      if reader.region.role line = .drops then none else reader.doc :=
  congrArg (fun read => read.1.doc) (reader.codeLine_withDoc reader.doc number line other)

/-- A line that takes documentation leaves none. -/
theorem doc_of_takes (number : Nat) (line : Text) (takes : reader.region.role line = .takes) :
    (reader.codeLine number line).1.doc = none := by
  have starts : reader.region.starts line = true := by
    unfold Region.role at takes
    split at takes
    · assumption
    · split at takes
      · cases takes
      · split at takes <;> cases takes
  cases region : reader.region with
  | skipping =>
    rw [region] at starts
    cases starts
  | outside =>
    rw [region] at starts
    have found : firstDirective? line = some "@interface".toList := of_decide_eq_true starts
    simp only [codeLine, region, outsideLine, if_pos found, openClass]
    cases ClassHeader.parse line <;> rfl
  | inClass current =>
    rw [region] at starts
    obtain ⟨flat, member⟩ := Bool.and_eq_true_iff.mp starts
    obtain ⟨-, -, ends, list⟩ := code_of_startsMember line member
    have fresh (own : OpenClass) : (reader.freshLine own number line).1.doc = none := by
      simp [freshLine, ends, member, inside]
    have deep : ¬ current.braceDepth > 0 := Int.not_lt.mpr (of_decide_eq_true flat)
    simp only [codeLine, region, classLine, if_neg deep]
    cases pending : current.pending with
    | nothing => exact fresh current
    | header text =>
      simp only [list, if_false]
      exact fresh _
    | member held =>
      simp only [memberLine, member, Bool.true_or, if_true]
      exact fresh _

/-! ## All lines -/

/-- If no line takes documentation from above lines that were passed over, each takes what is written for
it. -/
theorem seeAll_direct (written : Option DocComment) (carried : Bool) (sights : List Sight)
    (pending : carried = false → reader.doc = written)
    (direct : reader.docsDirect carried sights = true) :
    ∃ doc, (reader.withDoc written).seeWritten sights =
      ((reader.seeAll sights).1.withDoc doc, (reader.seeAll sights).2) := by
  induction sights generalizing reader written carried with
  | nil => exact ⟨written, rfl⟩
  | cons sight sights ih =>
    cases sight with
    | doc doc =>
      exact ih { reader with doc := some doc } (some doc) false (fun _ => rfl) direct
    | nonnull assumed =>
      exact ih { reader with assumeNonnull := assumed } written carried pending direct
    | code number line =>
      -- Whatever is pending, the line leads to the same reader with the documentation below it.
      have next (written' : Option DocComment) (carried' : Bool)
          (goesOn : (reader.withDoc written).docBelow (.code number line) = written')
          (first : ((reader.withDoc written).codeLine number line).1.withDoc written' =
              (reader.codeLine number line).1.withDoc written' ∧
            ((reader.withDoc written).codeLine number line).2 = (reader.codeLine number line).2)
          (now : carried' = false → (reader.codeLine number line).1.doc = written')
          (later : (reader.codeLine number line).1.docsDirect carried' sights = true) :
          ∃ doc, (reader.withDoc written).seeWritten (.code number line :: sights) =
            ((reader.seeAll (.code number line :: sights)).1.withDoc doc,
              (reader.seeAll (.code number line :: sights)).2) := by
        obtain ⟨doc, rest⟩ := ih _ written' carried' now later
        exact ⟨doc, by simp only [seeWritten, seeAll, below, see, goesOn, first, rest]⟩
      have written' : (reader.withDoc written).docBelow (.code number line) =
          if reader.region.role line = .keeps then written else none := rfl
      have moved (other : reader.region.role line ≠ .takes) (written' : Option DocComment) :
          ((reader.withDoc written).codeLine number line).1.withDoc written' =
              (reader.codeLine number line).1.withDoc written' ∧
            ((reader.withDoc written).codeLine number line).2 = (reader.codeLine number line).2 := by
        rw [reader.codeLine_withDoc written number line other]
        exact ⟨rfl, rfl⟩
      have left (other : reader.region.role line ≠ .takes) := reader.doc_of_codeLine number line other
      cases role : reader.region.role line with
      | takes =>
        simp only [docsDirect, role, Bool.and_eq_true, Bool.not_eq_true'] at direct
        obtain ⟨above, later⟩ := direct
        have same : reader.withDoc written = reader := by
          rw [← pending above]
          rfl
        exact next none false (by simp [written', role]) (by rw [same]; exact ⟨rfl, rfl⟩)
          (fun _ => reader.doc_of_takes number line role) later
      | keeps =>
        simp only [docsDirect, role] at direct
        rw [role] at moved left
        refine next written carried (by simp [written', role]) (moved (by simp) _) (fun above => ?_)
          direct
        exact (left (by simp)).trans (pending above)
      | passes =>
        simp only [docsDirect, role] at direct
        rw [role] at moved left
        refine next none _ (by simp [written', role]) (moved (by simp) _) (fun above => ?_) direct
        have none := (Bool.or_eq_false_iff.mp above).2
        exact (left (by simp)).trans (Option.isNone_iff_eq_none.mp (by simpa using none))
      | drops =>
        simp only [docsDirect, role] at direct
        rw [role] at moved left
        exact next none false (by simp [written', role]) (moved (by simp) _) (fun _ => left (by simp))
          direct

/-! ## What is written for a line -/

/-- Nothing but macros and section marks stands among the code of sights, and no documentation. -/
def Keeps (reader : Reader) : List Sight → Prop
  | [] => True
  | .doc _ :: _ => False
  | .nonnull assumed :: sights => (reader.below (.nonnull assumed)).Keeps sights
  | .code number line :: sights =>
    reader.region.role line = .keeps ∧ (reader.below (.code number line)).Keeps sights

/-- What is written for the line below some sights is the last documentation among them, with nothing
but macros and section marks behind it. -/
theorem doc_of_seeWritten (doc : DocComment) (sights : List Sight) :
    (reader.seeWritten sights).1.doc = some doc ↔
      (reader.doc = some doc ∧ reader.Keeps sights) ∨
        ∃ front behind, sights = front ++ .doc doc :: behind ∧
          ((reader.seeWritten front).1.withDoc (some doc)).Keeps behind := by
  induction sights generalizing reader with
  | nil => simp [seeWritten, Keeps]
  | cons sight sights ih =>
    have here : (reader.below sight).doc = some doc ∧ (reader.below sight).Keeps sights ↔
        (reader.doc = some doc ∧ reader.Keeps (sight :: sights)) ∨
          (sight = .doc doc ∧ (reader.withDoc (some doc)).Keeps sights) := by
      cases sight with
      | doc own =>
        have doc' : (reader.below (.doc own)).doc = some own := rfl
        by_cases same : own = doc
        · subst same
          simp only [doc', Keeps, and_false, false_or, true_and]
          rfl
        · simp [doc', Keeps, same]
      | nonnull assumed => simp [Keeps, below, docBelow, withDoc]
      | code number line =>
        by_cases keeps : reader.region.role line = .keeps
        · simp [Keeps, below, docBelow, withDoc, keeps]
        · simp [Keeps, below, docBelow, withDoc, keeps]
    have later := ih (reader.below sight)
    constructor
    · intro found
      rcases later.mp found with own | ⟨front, behind, rfl, keeps⟩
      · rcases here.mp own with above | ⟨rfl, keeps⟩
        · exact .inl above
        · exact .inr ⟨[], sights, rfl, keeps⟩
      · exact .inr ⟨sight :: front, behind, rfl, keeps⟩
    · rintro (above | ⟨front, behind, split, keeps⟩)
      · exact later.mpr (.inl (here.mpr (.inl above)))
      · cases front with
        | nil =>
          cases split
          exact later.mpr (.inl (here.mpr (.inr ⟨rfl, keeps⟩)))
        | cons first front =>
          cases split
          exact later.mpr (.inr ⟨front, behind, rfl, keeps⟩)

end Reader

/-! ## Whole headers -/

namespace SourceUnit

variable (unit : SourceUnit)

/-- The notes on a header in which each declaration takes the documentation that is written for it. -/
def writtenNotes : List Note :=
  let seen := Reader.seeWritten {} (sightsOf none 1 unit.content.pieces).1
  seen.2 ++ seen.1.finish

/-- No declaration takes documentation from above lines that were passed over. -/
def DocsDirect : Prop :=
  Reader.docsDirect {} false (sightsOf none 1 unit.content.pieces).1 = true

instance : Decidable unit.DocsDirect := inferInstanceAs (Decidable (_ = true))

theorem notes_written (direct : unit.DocsDirect) : notesOf unit.content = unit.writtenNotes := by
  obtain ⟨doc, seen⟩ := Reader.seeAll_direct {} none false _ (fun _ => rfl) direct
  have start : Reader.withDoc {} none = {} := rfl
  rw [start] at seen
  rw [notesOf_sights, writtenNotes, seen]
  rfl

end SourceUnit

/-- The classes of headers in which each declaration takes the documentation that is written for it. -/
def Run.writtenUnits (set : ClassSet) (units : List SourceUnit) : ClassSet :=
  units.foldl (fun set unit => set.recordAll (unit.writtenNotes.map unit.finding)) set

/-- Classes and members are documented by what is written for them, in headers in which no documentation
stays pending over lines that are passed over until a declaration takes it. -/
theorem Run.extractUnits_documented (set : ClassSet) (units : List SourceUnit)
    (direct : ∀ unit ∈ units, unit.DocsDirect) :
    (Run.extractUnits set units).1 = Run.writtenUnits set units := by
  induction units generalizing set with
  | nil => rfl
  | cons unit units ih =>
    have here := unit.notes_written (direct unit List.mem_cons_self)
    have later := ih (set.recordAll unit.findings) fun unit member =>
      direct unit (List.mem_cons_of_mem _ member)
    rw [extractUnits_cons, writtenUnits, List.foldl_cons, ← here]
    exact later

/-- Documentation for a class and for a member, with a macro and a section mark in between, and
documentation for something else above a member. -/
def notedHeader : SourceUnit where
  path := "Panel.h".toList
  content :=
    ["@protocol Mover".toList,
     "- (void)move;".toList,
     "@end".toList,
     "/** A panel. */".toList,
     "API_AVAILABLE(macos(12))".toList,
     "@interface Panel : NSObject".toList,
     "/// Hides it.".toList,
     "@optional".toList,
     "".toList,
     "- (void)hide;".toList,
     "/** Not for a member. */".toList,
     "typedef int Size;".toList,
     "- (void)show;".toList,
     "@end".toList].flatMap (· ++ ['\n'])

theorem extractUnits_documented_panel :
    (∀ unit ∈ [notedHeader], unit.DocsDirect) ∧
      (Run.extractUnits .empty [notedHeader]).1 = Run.writtenUnits .empty [notedHeader] := by
  have direct : ∀ unit ∈ [notedHeader], unit.DocsDirect := by decide +kernel
  exact ⟨direct, Run.extractUnits_documented .empty [notedHeader] direct⟩

/-- Documentation in front of a protocol, and a class below it. -/
def notedProtocol : SourceUnit where
  path := "Panel.h".toList
  content :=
    "/** Moves. */\n@protocol Mover\n- (void)move;\n@end\n@interface Panel : NSObject\n@end\n".toList

/-- The class takes what is written for the protocol. -/
theorem doc_of_protocol_taken :
    (Run.extractUnits .empty [notedProtocol]).1.classes.map (·.doc) = ["Moves.".toList] ∧
      (Run.writtenUnits .empty [notedProtocol]).classes.map (·.doc) = [[]] := by
  decide +kernel

end HeaderBindings
