import HeaderBindings.Proofs.Header.Insertion
import HeaderBindings.Proofs.Header.Wrapping

/-!
Members that cannot be read are contained. Such a member on one line is reported at that line, and the
reader goes on below it as if the line were not there; only a protocol list can no longer follow the
header of the class.
-/

namespace HeaderBindings

/-- A declaration that starts like a member, is complete, and cannot be read for a reason. -/
inductive Malformed (assumeNonnull : Bool) (declaration : Text) (fault : DeclarationError) : Prop where
  | property (starts : "@property".toList <+: declaration) (complete : ';' ∈ declaration)
      (fails : Property.parse assumeNonnull declaration = .error fault)
  | method (starts : declaration.head? = some '-' ∨ declaration.head? = some '+')
      (complete : ';' ∈ declaration) (fails : Method.parse declaration = .error fault)

namespace Malformed

variable {assumeNonnull : Bool} {declaration : Text} {fault : DeclarationError}

theorem complete (malformed : Malformed assumeNonnull declaration fault) : ';' ∈ declaration := by
  cases malformed with
  | property starts complete fails => exact complete
  | method starts complete fails => exact complete

theorem startsMember (malformed : Malformed assumeNonnull declaration fault) :
    Reader.startsMember declaration = true := by
  cases malformed with
  | property starts complete fails =>
    exact (Reader.startsMember_iff declaration).mpr ⟨_, by simp [Reader.memberStarts], starts⟩
  | method starts complete fails =>
    rcases starts with minus | plus
    · simp [Reader.startsMember, minus]
    · simp [Reader.startsMember, plus]

/-- The class does without the member. -/
theorem addMember (malformed : Malformed assumeNonnull declaration fault) (current : OpenClass)
    (number : Nat) (doc : DocComment) :
    current.addMember assumeNonnull ⟨declaration, number, doc⟩ =
      ({ current with pending := .nothing }, [.rejected number fault.message]) := by
  cases malformed with
  | property starts complete fails =>
    have property := (Text.startsWith_iff _ _).mpr starts
    simp only [OpenClass.addMember, property, if_true, fails]
  | method starts complete fails =>
    have property : Text.startsWith "@property".toList declaration = false := by
      rw [← Bool.not_eq_true, Text.startsWith_iff]
      rintro ⟨rest, rfl⟩
      simp at starts
    simp only [OpenClass.addMember, property, Bool.false_eq_true, if_false, fails]

end Malformed

namespace Sight

def code? : Sight → Option Text
  | .code _ line => some line
  | _ => none

theorem code_renumber (change : Nat → Nat) (sight : Sight) : (sight.renumber change).code? = sight.code? := by
  cases sight <;> rfl

end Sight

/-- The first line of code among some lines that no comment is open above. -/
def nextCode? (lines : List Text) : Option Text := (sightsOf none 0 lines).1.findSome? Sight.code?

theorem nextCode_eq (number : Nat) (lines : List Text) :
    nextCode? lines = (sightsOf none number lines).1.findSome? Sight.code? := by
  have shifted := sightsOf_shift number none 0 lines
  rw [Nat.zero_add] at shifted
  rw [shifted, List.findSome?_map]
  exact congrArg (List.findSome? · _) (funext fun sight => (sight.code_renumber _).symm)

namespace Reader

/-- A reader in the body of a class with nothing pending: no block of variables, no comment, no
documentation, no member, and no header whose protocol list the next line of code goes on with. -/
structure BetweenMembers (reader : Reader) (current : OpenClass) (behind : List Text) : Prop where
  region : reader.region = .inClass current
  depth : current.braceDepth ≤ 0
  comment : reader.comment = none
  doc : reader.doc = none
  member : ∀ member, current.pending ≠ .member member
  header : ∀ header, current.pending = .header header → ∀ line ∈ nextCode? behind, line.head? ≠ some '<'

/-- The reader when the header of its class is complete. -/
def settle (reader : Reader) (current : OpenClass) : Reader :=
  { reader with region := .inClass { current with pending := .nothing } }

variable {reader : Reader} {current : OpenClass}

/-! ## The line of the member -/

theorem BetweenMembers.awaits {behind : List Text} (between : reader.BetweenMembers current behind) :
    reader.AwaitsMember current where
  region := between.region
  depth := between.depth
  pending := between.member
  comment := by simp [between.comment]

theorem readLine_malformed {behind : List Text} (between : reader.BetweenMembers current behind)
    (number : Nat) (raw : Text) (fault : DeclarationError)
    (malformed : Malformed reader.assumeNonnull raw.trim fault) :
    reader.readLine number raw = (reader.settle current, [.rejected number fault.message]) := by
  have undocumented : { reader with doc := none } = reader := by rw [← between.doc]
  rw [reader.readLine_startsMember number raw current between.awaits malformed.startsMember,
    reader.closeRun_of_none between.comment, undocumented,
    OpenClass.holdMember_complete _ _ _ _ malformed.complete, malformed.addMember]
  rfl

/-! ## The lines below it -/

-- A header that is complete is dropped by the next line of code.
theorem codeLine_settle (region : reader.region = .inClass current) (depth : current.braceDepth ≤ 0)
    (member : ∀ member, current.pending ≠ .member member) (number : Nat) (line : Text)
    (header : ∀ header, current.pending = .header header → line.head? ≠ some '<') :
    (reader.settle current).codeLine number line = reader.codeLine number line := by
  have shallow : ¬ current.braceDepth > 0 := by omega
  have settled : (reader.settle current).codeLine number line =
      reader.freshLine { current with pending := .nothing } number line := by
    simp only [codeLine, settle, classLine, if_neg shallow, freshLine, inside]
  rw [settled, codeLine, region]
  simp only [classLine, if_neg shallow]
  cases pending : current.pending with
  | nothing =>
    have same : { current with pending := .nothing } = current := by rw [← pending]
    rw [same]
  | header text => simp only [if_neg (header text pending)]
  | member text => exact absurd pending (member text)

-- Documentation and marks of regions leave the header pending; the next code drops it.
theorem seeAll_settle (sights : List Sight) (region : reader.region = .inClass current)
    (depth : current.braceDepth ≤ 0) (member : ∀ member, current.pending ≠ .member member)
    (header : ∀ header, current.pending = .header header →
      ∀ line ∈ sights.findSome? Sight.code?, line.head? ≠ some '<') :
    ((reader.settle current).seeAll sights).2 ++ ((reader.settle current).seeAll sights).1.finish =
      (reader.seeAll sights).2 ++ (reader.seeAll sights).1.finish := by
  induction sights generalizing reader with
  | nil =>
    cases pending : current.pending with
    | nothing => simp [seeAll, settle, finish, region, pending]
    | header text => simp [seeAll, settle, finish, region, pending]
    | member text => exact absurd pending (member text)
  | cons sight sights ih =>
    cases sight with
    | doc doc => exact @ih { reader with doc := some doc } region header
    | nonnull assumed => exact @ih { reader with assumeNonnull := assumed } region header
    | code number line =>
      have same := codeLine_settle region depth member number line
        fun text pending => header text pending line rfl
      simp only [seeAll, see, same]

theorem following_settle {behind : List Text} (between : reader.BetweenMembers current behind)
    (number : Nat) :
    (reader.settle current).following number behind = reader.following number behind := by
  have closed : (reader.settle current).comment = none := between.comment
  simp only [following, readLines_eq, closed, between.comment, finish_inComment]
  refine seeAll_settle _ between.region between.depth between.member fun text pending => ?_
  rw [← nextCode_eq]
  exact between.header text pending

end Reader

/-- A member that cannot be read is contained. Put on a line of its own into the body of a class, where
nothing is pending, it leaves the classes as they are, those of its header and of the others; there is
one more warning, at that line and about it, and the others are the same but for lines that have moved
down by one. -/
theorem Run.extractUnits_contained (set : ClassSet) (path : Text) (before behind : List Text) (raw : Text)
    (later : List SourceUnit) (current : OpenClass) (fault : DeclarationError)
    (free : ∀ line ∈ before ++ [raw] ++ behind, '\n' ∉ line)
    (between : (Reader.readLines {} 1 before).1.BetweenMembers current behind)
    (malformed : Malformed (Reader.readLines {} 1 before).1.assumeNonnull raw.trim fault) :
    let kept := Run.extractUnits set (.ofLines path (before ++ behind) :: later)
    let longer := Run.extractUnits set (.ofLines path (before ++ [raw] ++ behind) :: later)
    let warning : Diagnostic :=
      { message := fault.message
        path := some path
        line := some (before.length + 1)
        help := some ("in `".toList ++ raw.trim ++ ['`']) }
    longer.1.classes = kept.1.classes ∧
      ∃ above below rest, kept.1.diagnostics = above ++ below ++ rest ∧
        longer.1.diagnostics =
          above ++ [warning] ++ below.map (Diagnostic.pushed before.length 1) ++ rest := by
  intro kept longer warning
  have reads : (Reader.readLines {} 1 before).1.readLines (1 + before.length) [raw] =
      ((Reader.readLines {} 1 before).1.settle current,
        [.rejected (1 + before.length) fault.message]) := by
    simp only [Reader.readLines, Reader.readLine_malformed between _ raw fault malformed]
    rfl
  have quoted : (SourceUnit.ofLines path (before ++ [raw] ++ behind)).line? (before.length + 1) =
      some (Text.dropTrailing (· == '\r') raw) := by
    rw [SourceUnit.line_ofLines path _ free (by simp)]
    simp
  have trimmed := Text.trim_dropTrailing (· == '\r') (by
    intro c returned
    rw [beq_iff_eq.mp returned]
    decide) raw
  have reported : (SourceUnit.ofLines path (before ++ [raw] ++ behind)).reported
      [.rejected (1 + before.length) fault.message] = [warning] := by
    rw [SourceUnit.reported, warningsBy_rejected, List.map_singleton, Nat.add_comm,
      SourceUnit.diagnostic, quoted]
    simp only [Option.map_some, trimmed, warning]
    rfl
  obtain ⟨same, above, below, rest, unchanged, longer⟩ :=
    extractUnits_insertion path free set later reads rfl (Reader.following_settle between)
  rw [reported] at longer
  exact ⟨same, above, below, rest, unchanged, longer⟩

/-- The line of a class, a member that cannot be read, and what stands below both. -/
def panelLine : Text := "@interface Panel : NSObject".toList

def brokenMember : Text := "  - void broken;".toList

def belowMember : List Text := ["- (void)hide;".toList, "@property (nonatomic ;".toList]

/-- The class below its line. -/
def linedPanel : OpenClass where
  decl := { name := "Panel".toList, superclass := some "NSObject".toList }
  line := 1
  pending := .header panelLine

theorem between_linedPanel :
    (Reader.readLines {} 1 [panelLine]).1.BetweenMembers linedPanel belowMember where
  region := by decide +kernel
  depth := by decide
  comment := by decide +kernel
  doc := by decide +kernel
  member := by simp [linedPanel]
  header := by
    have next : nextCode? belowMember = some "- (void)hide;".toList := by decide +kernel
    rw [next]
    rintro header - line ⟨⟩
    decide

theorem extractUnits_contained_panel :
    (∀ line ∈ [panelLine] ++ [brokenMember] ++ belowMember, '\n' ∉ line) ∧
      (Reader.readLines {} 1 [panelLine]).1.BetweenMembers linedPanel belowMember ∧
      Malformed (Reader.readLines {} 1 [panelLine]).1.assumeNonnull brokenMember.trim
        (.member "- void broken;".toList .noReturnType) ∧
      let kept := Run.extractUnits .empty [.ofLines "Panel.h".toList ([panelLine] ++ belowMember)]
      let longer := Run.extractUnits .empty
        [.ofLines "Panel.h".toList ([panelLine] ++ [brokenMember] ++ belowMember)]
      longer.1.classes = kept.1.classes ∧
        ∃ above below rest, kept.1.diagnostics = above ++ below ++ rest ∧
          longer.1.diagnostics = above ++
            [{ message := "malformed signature `- void broken;`: missing return type".toList
               path := some "Panel.h".toList
               line := some 2
               help := some "in `- void broken;`".toList }]
            ++ below.map (Diagnostic.pushed 1 1) ++ rest := by
  have free : ∀ line ∈ [panelLine] ++ [brokenMember] ++ belowMember, '\n' ∉ line := by decide +kernel
  have malformed : Malformed (Reader.readLines {} 1 [panelLine]).1.assumeNonnull brokenMember.trim
      (.member "- void broken;".toList .noReturnType) :=
    .method (by decide) (by decide) (by decide +kernel)
  exact ⟨free, between_linedPanel, malformed, Run.extractUnits_contained .empty "Panel.h".toList
    [panelLine] belowMember brokenMember [] linedPanel _ free between_linedPanel malformed⟩

-- A protocol list gets lost if such a member comes between it and its header.
example :
    let kept := Run.extractUnits .empty
      [.ofLines "Panel.h".toList [panelLine, "    <Shown>".toList, "@end".toList]]
    let longer := Run.extractUnits .empty
      [.ofLines "Panel.h".toList [panelLine, brokenMember, "    <Shown>".toList, "@end".toList]]
    kept.1.classes.map (·.protocols) = [["Shown".toList]] ∧ longer.1.classes.map (·.protocols) = [[]] := by
  decide +kernel

end HeaderBindings
