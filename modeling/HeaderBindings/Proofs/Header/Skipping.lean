import HeaderBindings.Proofs.Header.Variation

/-!
Text that is skipped: the body of a protocol, of an implementation or below a header that cannot be
read, and the inside of a block of variables. Other lines in its place leave what is extracted as it
was but for documentation, and the warnings as they were.
-/

namespace HeaderBindings

/-! ## Comments that are over at the end of a line -/

/-- Nothing is open but a run of `///` lines, which the next line goes on with or ends. -/
def OpenComment.IsRun (comment : Option OpenComment) : Prop := ∀ own ∈ comment, own.ofSlashes = true

instance (comment : Option OpenComment) : Decidable (OpenComment.IsRun comment) :=
  inferInstanceAs (Decidable (∀ _ ∈ _, _))

/-- Comments below which the same code is seen. -/
def OpenComment.Level (comment other : Option OpenComment) : Prop :=
  other = comment ∨ OpenComment.IsRun comment ∧ OpenComment.IsRun other

namespace Look

/-- Looks that differ in documentation at most. -/
structure Level (look other : Look) : Prop where
  nonnull : other.nonnull = look.nonnull
  remainder : other.remainder = look.remainder
  comment : OpenComment.Level look.comment other.comment

theorem Level.trans {look other third : Look} (first : look.Level other) (second : look.Level third) :
    other.Level third where
  nonnull := second.nonnull.trans first.nonnull.symm
  remainder := second.remainder.trans first.remainder.symm
  comment := by
    rcases first.comment with same | ⟨run, run'⟩ <;> rcases second.comment with same' | ⟨own, own'⟩
    · exact .inl (same'.trans same.symm)
    · exact .inr ⟨same ▸ own, own'⟩
    · exact .inr ⟨run', same' ▸ run⟩
    · exact .inr ⟨run', own'⟩

theorem level_of_run (comment : Option OpenComment) (run : OpenComment.IsRun comment) (line : Text) :
    (of none line).Level (of comment line) := by
  cases comment with
  | none => exact ⟨rfl, rfl, .inl rfl⟩
  | some comment =>
    have slashes := run comment rfl
    by_cases more : ['/', '/', '/'] <+: line
    · obtain ⟨body, rfl⟩ := more
      have opens : of none (['/', '/', '/'] ++ body) = ⟨none, none, some ⟨body, true, true⟩, .nothing⟩ :=
        of_eq fun other closed => by
          rw [other.peel_of_none _ closed]
          rfl
      have goesOn : of (some comment) (['/', '/', '/'] ++ body) =
          ⟨none, none, some (comment.addLine body), .nothing⟩ :=
        of_eq fun other opened => by
          simp only [Reader.peel, opened, slashes, if_true]
          rfl
      rw [opens, goesOn]
      refine ⟨rfl, rfl, .inr ⟨?_, ?_⟩⟩
      · rintro _ ⟨⟩
        rfl
      · rintro _ ⟨⟩
        exact slashes
    · have plain : Text.startsWith ['/', '/', '/'] line = false := by
        rwa [← Bool.not_eq_true, Text.startsWith_iff]
      obtain ⟨look, does⟩ := Reader.exists_look line none
      obtain ⟨doc, closes⟩ := Reader.closeComment_eq comment
      have ends : of (some comment) line = { look with doc := look.doc.or doc } :=
        of_eq fun other opened => by
          have closed : other.closeRun = other.closeComment comment := by
            simp [Reader.closeRun, opened, slashes]
          rw [other.peel_closeRun line plain, closed, closes, does _ rfl]
          simp [Reader.after, Option.or_assoc]
      rw [of_eq does, ends]
      exact ⟨rfl, rfl, .inl rfl⟩

theorem level_of {comment other : Option OpenComment} (level : OpenComment.Level comment other)
    (line : Text) : (of comment line).Level (of other line) := by
  rcases level with rfl | ⟨run, run'⟩
  · exact ⟨rfl, rfl, .inl rfl⟩
  · exact (level_of_run comment run line).trans (level_of_run other run' line)

end Look

/-- The variation in which documentation does not count and lines have their numbers. -/
def Variation.bare (known : Nat → Prop) : Variation := ⟨id, false, known⟩

section Level

variable {known : Nat → Prop} {comment other : Option OpenComment}

theorem Look.marks_level {look other : Look} (level : look.Level other) :
    SightsVaried (.bare known) look.marks other.marks := by
  have docs (doc doc' : Option DocComment) :
      SightsVaried (.bare known) (doc.toList.map .doc) (doc'.toList.map .doc) := by
    cases doc with
    | none => cases doc' with
      | none => exact .nil
      | some doc' => exact .fresh doc' rfl .nil
    | some doc => cases doc' with
      | none => exact .gone doc rfl .nil
      | some doc' => exact .gone doc rfl (.fresh doc' rfl .nil)
  rw [marks, marks, level.nonnull]
  refine (docs look.doc other.doc).append ?_
  cases look.nonnull with
  | none => exact .nil
  | some assumed => exact .cons (.nonnull assumed) (fun _ none => by cases none) .nil

/-- Below level comments, a line shows the same but for documentation. -/
theorem sightsOfLine_level (level : OpenComment.Level comment other) {number : Nat}
    (own : known number) (raw : Text) :
    SightsVaried (.bare known) (sightsOfLine comment number raw).1 (sightsOfLine other number raw).1 ∧
      OpenComment.Level (sightsOfLine comment number raw).2 (sightsOfLine other number raw).2 := by
  fun_induction sightsOfLine comment number raw generalizing other with
  | case1 comment raw look =>
    rename_i left
    have looks := Look.level_of level raw.trim
    have left' := looks.remainder.trans left
    rw [sightsOfLine_eq other]
    simp only [left']
    exact ⟨Look.marks_level looks, looks.comment⟩
  | case2 comment raw look line =>
    rename_i left
    have looks := Look.level_of level raw.trim
    have left' := looks.remainder.trans left
    have code : SightsVaried (.bare known) [.code number line] [.code number line] :=
      .cons (.code number line) (by rintro _ ⟨⟩; exact own) .nil
    rw [sightsOfLine_eq other]
    simp only [left']
    exact ⟨(Look.marks_level looks).append code, looks.comment⟩
  | case3 comment raw look rest left later =>
    rename_i ih
    have looks := Look.level_of level raw.trim
    have left' := looks.remainder.trans left
    obtain ⟨below, ends⟩ := ih looks.comment
    rw [sightsOfLine_eq other]
    simp only [left']
    exact ⟨(Look.marks_level looks).append below, ends⟩

theorem sightsOf_level (level : OpenComment.Level comment other) (number : Nat) (lines : List Text)
    (own : ∀ n, number ≤ n → known n) :
    SightsVaried (.bare known) (sightsOf comment number lines).1 (sightsOf other number lines).1 := by
  induction lines generalizing comment other number with
  | nil => exact .nil
  | cons line lines ih =>
    obtain ⟨first, ends⟩ := sightsOfLine_level level (own number (Nat.le_refl _)) line
    exact first.append (ih ends (number + 1) fun n later => own n (by omega))

end Level

/-! ## What stands in skipped text -/

def Sight.line? : Sight → Option Text
  | .code _ line => some line
  | _ => none

/-- The lines of code among sights. -/
def codeOf (sights : List Sight) : List Text := sights.filterMap Sight.line?

/-- The depth of braces in front of lines, between them and behind them is positive. -/
def DeepThrough (depth : Int) : List Text → Prop
  | [] => depth > 0
  | line :: lines => depth > 0 ∧ DeepThrough (depth + OpenClass.braceBalance line) lines

instance DeepThrough.decide (depth : Int) : (lines : List Text) → Decidable (DeepThrough depth lines)
  | [] => inferInstanceAs (Decidable (depth > 0))
  | line :: lines =>
    have := DeepThrough.decide (depth + OpenClass.braceBalance line) lines
    inferInstanceAs (Decidable (_ ∧ _))

def depthBehind (depth : Int) (lines : List Text) : Int :=
  lines.foldl (fun depth line => depth + OpenClass.braceBalance line) depth

theorem DeepThrough.behind {depth : Int} {lines : List Text} (deep : DeepThrough depth lines) :
    depthBehind depth lines > 0 := by
  induction lines generalizing depth with
  | nil =>
    have here : depth > 0 := deep
    simpa [depthBehind] using here
  | cons line lines ih => exact ih deep.2

/-- Lines of code are skipped in a region: none ends the block, or the block of variables stays open
up to the line behind them, which closes it. -/
def Region.Skips : Region → (inside behind : List Text) → Prop
  | .outside, _, _ => False
  | .skipping, inside, _ => ∀ line ∈ inside, Reader.startsEnd line = false
  | .inClass current, inside, behind =>
    DeepThrough current.braceDepth inside ∧
      ∀ line ∈ behind.head?, depthBehind current.braceDepth inside + OpenClass.braceBalance line ≤ 0

instance Region.decideSkips : (region : Region) → (inside behind : List Text) →
    Decidable (region.Skips inside behind)
  | .outside, _, _ => inferInstanceAs (Decidable False)
  | .skipping, _, _ => inferInstanceAs (Decidable (∀ _ ∈ _, _))
  | .inClass _, _, _ => inferInstanceAs (Decidable (_ ∧ ∀ _ ∈ _, _))

/-- Whether null is ruled out behind sights. -/
def assumedBehind (assumed : Bool) : List Sight → Bool
  | [] => assumed
  | .nonnull now :: sights => assumedBehind now sights
  | _ :: sights => assumedBehind assumed sights

/-- The reader skips the code on some lines above others. No comment runs on into those, and null is
ruled out behind the lines if it is in front of them. -/
structure Reader.Skips (reader : Reader) (number : Nat) (inside behind : List Text) : Prop where
  code : reader.region.Skips (codeOf (sightsOf reader.comment number inside).1)
    (codeOf (sightsOf (sightsOf reader.comment number inside).2 (number + inside.length) behind).1)
  closed : behind ≠ [] → OpenComment.IsRun (sightsOf reader.comment number inside).2
  assumed : assumedBehind reader.assumeNonnull (sightsOf reader.comment number inside).1 =
    reader.assumeNonnull

namespace Reader

variable (reader : Reader)

instance (number : Nat) (inside behind : List Text) : Decidable (reader.Skips number inside behind) :=
  decidable_of_iff
    (reader.region.Skips (codeOf (sightsOf reader.comment number inside).1)
        (codeOf (sightsOf (sightsOf reader.comment number inside).2 (number + inside.length) behind).1) ∧
      (behind ≠ [] → OpenComment.IsRun (sightsOf reader.comment number inside).2) ∧
      assumedBehind reader.assumeNonnull (sightsOf reader.comment number inside).1 =
        reader.assumeNonnull)
    ⟨fun ⟨code, closed, assumed⟩ => ⟨code, closed, assumed⟩,
      fun skips => ⟨skips.code, skips.closed, skips.assumed⟩⟩

/-- In a block that is skipped, sights leave documentation at most. -/
theorem seeAll_skipping (sights : List Sight) (region : reader.region = .skipping)
    (quiet : ∀ line ∈ codeOf sights, startsEnd line = false) :
    ∃ doc, reader.seeAll sights =
      ({ reader with doc := doc, assumeNonnull := assumedBehind reader.assumeNonnull sights }, []) := by
  induction sights generalizing reader with
  | nil => exact ⟨reader.doc, rfl⟩
  | cons sight sights ih =>
    cases sight with
    | doc doc => exact ih { reader with doc := some doc } region quiet
    | nonnull assumed => exact ih { reader with assumeNonnull := assumed } region quiet
    | code number line =>
      have skipped : reader.see (.code number line) = (reader, []) := by
        simp [see, codeLine, region, quiet line List.mem_cons_self]
      obtain ⟨doc, later⟩ := ih reader region fun line member => quiet line (List.mem_cons_of_mem _ member)
      exact ⟨doc, by rw [seeAll, skipped, later]; rfl⟩

/-- A line inside a block of variables leaves nothing but another depth of braces. -/
theorem see_deep (current : OpenClass) (region : reader.region = .inClass current)
    (deep : current.braceDepth > 0) (number : Nat) (line : Text) :
    reader.see (.code number line) =
      ({ reader with
          region := .inClass
            { current with braceDepth := current.braceDepth + OpenClass.braceBalance line } }, []) := by
  simp [see, codeLine, region, classLine, deep, inside]

/-- In a block of variables, sights leave documentation and the depth of braces at most. -/
theorem seeAll_deep (sights : List Sight) (current : OpenClass)
    (region : reader.region = .inClass current)
    (deep : DeepThrough current.braceDepth (codeOf sights)) :
    ∃ doc, reader.seeAll sights =
      ({ reader with
          doc := doc
          assumeNonnull := assumedBehind reader.assumeNonnull sights
          region := .inClass
            { current with braceDepth := depthBehind current.braceDepth (codeOf sights) } }, []) := by
  induction sights generalizing reader current with
  | nil => exact ⟨reader.doc, by simp [seeAll, assumedBehind, codeOf, depthBehind, ← region]⟩
  | cons sight sights ih =>
    cases sight with
    | doc doc => exact ih { reader with doc := some doc } current region deep
    | nonnull assumed => exact ih { reader with assumeNonnull := assumed } current region deep
    | code number line =>
      obtain ⟨here, below⟩ := deep
      obtain ⟨doc, later⟩ := ih
        { reader with
          region := .inClass
            { current with braceDepth := current.braceDepth + OpenClass.braceBalance line } }
        { current with braceDepth := current.braceDepth + OpenClass.braceBalance line } rfl below
      refine ⟨doc, ?_⟩
      rw [seeAll, reader.see_deep current region here, later]
      simp [assumedBehind, codeOf, Sight.line?, depthBehind]

/-- The reader in a class outside blocks of variables. -/
def flat (current : OpenClass) : Reader :=
  { reader with region := .inClass { current with braceDepth := 0 } }

/-- A block of variables that is not closed leaves nothing more to report. -/
theorem finish_flat (current : OpenClass) (region : reader.region = .inClass current) :
    reader.finish = (reader.flat current).finish := by
  have added (member : PendingMember) :
      { current with braceDepth := 0 }.addMember reader.assumeNonnull member =
        ({ (current.addMember reader.assumeNonnull member).1 with braceDepth := 0 },
          (current.addMember reader.assumeNonnull member).2) := by
    simp only [OpenClass.addMember]
    split <;> split <;> rfl
  simp only [finish, region, flat]
  split
  · rw [added]
  · rfl

variable {reader} {other : Reader} {v : Variation}

/-- The same sights below the insides of blocks of variables lead to the same report, however deep the
braces are there, if the first line of code closes the block. -/
theorem seeAll_closing {sights others : List Sight} (same : SightsVaried v sights others)
    (current current' : OpenClass) (region : reader.region = .inClass current)
    (region' : other.region = .inClass current')
    (varied : (reader.flat current).Varied v (other.flat current'))
    (deep : current.braceDepth > 0) (deep' : current'.braceDepth > 0)
    (closes : ∀ line ∈ (codeOf sights).head?, current.braceDepth + OpenClass.braceBalance line ≤ 0)
    (closes' : ∀ line ∈ (codeOf others).head?,
      current'.braceDepth + OpenClass.braceBalance line ≤ 0) :
    NotesVaried v ((reader.seeAll sights).2 ++ (reader.seeAll sights).1.finish)
      ((other.seeAll others).2 ++ (other.seeAll others).1.finish) := by
  induction same generalizing reader other with
  | nil =>
    simp only [seeAll, List.nil_append, reader.finish_flat current region,
      other.finish_flat current' region']
    exact finish_varied varied
  | @cons sights others sight known later ih =>
    cases sight with
    | doc doc =>
      exact @ih { reader with doc := some doc } { other with doc := some doc } region region'
        ⟨varied.assumeNonnull, fun _ => rfl, varied.availability, varied.region⟩
        closes closes'
    | nonnull assumed =>
      exact @ih { reader with assumeNonnull := assumed } { other with assumeNonnull := assumed }
        region region'
        ⟨rfl, varied.doc, varied.availability, varied.region⟩ closes closes'
    | code number line =>
      have ends := closes line rfl
      have ends' := closes' line rfl
      have regions : Region.Varied v (.inClass { current with braceDepth := 0 })
          (.inClass { current' with braceDepth := 0 }) := varied.region
      have next : StepVaried v (reader.see (.code number line))
          (other.see (.code (v.number number) line)) := by
        rw [see_deep _ current region deep, see_deep _ current' region' deep']
        cases regions with
        | inClass flat =>
          refine ⟨⟨varied.assumeNonnull, varied.doc, varied.availability,
            .inClass ⟨flat.decl, flat.line, flat.known, flat.pending, ?_⟩⟩, .nil⟩
          dsimp only
          omega
      have rest := seeAll_varied next.reader later
      have whole := next.notes.append (rest.notes.append (finish_varied rest.reader))
      simpa only [seeAll, Sight.renumber, List.append_assoc] using whole
  | gone doc undocumented later ih =>
    have counts : v.documented ≠ true := by simp [undocumented]
    exact @ih { reader with doc := some doc } other region region'
      ⟨varied.assumeNonnull, fun seen => absurd seen counts, varied.availability, varied.region⟩
      closes closes'
  | fresh doc undocumented later ih =>
    have counts : v.documented ≠ true := by simp [undocumented]
    exact @ih reader { other with doc := some doc } region region'
      ⟨varied.assumeNonnull, fun seen => absurd seen counts, varied.availability, varied.region⟩
      closes closes'

/-- Behind lines that are skipped, the same lines lead to the same report, but for documentation. -/
theorem readLines_skipped {known : Nat → Prop} (reader : Reader) (number : Nat)
    (inside inside' behind : List Text) (same : inside'.length = inside.length)
    (skips : reader.Skips number inside behind) (skips' : reader.Skips number inside' behind)
    (self : reader.Varied (.bare known) reader)
    (later : ∀ n, number + inside.length ≤ n → known n) :
    NotesVaried (.bare known)
      ((reader.readLines number (inside ++ behind)).2 ++
        (reader.readLines number (inside ++ behind)).1.finish)
      ((reader.readLines number (inside' ++ behind)).2 ++
        (reader.readLines number (inside' ++ behind)).1.finish) := by
  have level : behind = [] ∨ OpenComment.Level (sightsOf reader.comment number inside).2
      (sightsOf reader.comment number inside').2 := by
    by_cases none : behind = []
    · exact .inl none
    · exact .inr (.inr ⟨skips.closed none, skips'.closed none⟩)
  have below : SightsVaried (.bare known)
      (sightsOf (sightsOf reader.comment number inside).2 (number + inside.length) behind).1
      (sightsOf (sightsOf reader.comment number inside').2 (number + inside.length) behind).1 := by
    rcases level with rfl | level
    · exact .nil
    · exact sightsOf_level level _ behind later
  have uncounted (doc doc' : Option DocComment) : (Variation.bare known).documented = true → doc' = doc :=
    fun counts => by cases counts
  obtain ⟨code, -, assumed⟩ := skips
  obtain ⟨code', -, assumed'⟩ := skips'
  simp only [readLines_eq, sightsOf_append, seeAll_append, finish_inComment]
  rw [same] at code' ⊢
  cases region : reader.region with
  | outside =>
    rw [region] at code
    exact code.elim
  | skipping =>
    rw [region] at code code'
    obtain ⟨doc, seen⟩ := reader.seeAll_skipping _ region code
    obtain ⟨doc', seen'⟩ := reader.seeAll_skipping _ region code'
    rw [seen, seen', assumed, assumed']
    have next : Reader.Varied (.bare known) { reader with doc := doc } { reader with doc := doc' } :=
      ⟨rfl, uncounted doc doc', rfl, self.region⟩
    have rest := seeAll_varied next below
    exact rest.notes.append (finish_varied rest.reader)
  | inClass current =>
    rw [region] at code code'
    obtain ⟨doc, seen⟩ := reader.seeAll_deep _ current region code.1
    obtain ⟨doc', seen'⟩ := reader.seeAll_deep _ current region code'.1
    rw [seen, seen', assumed, assumed']
    refine seeAll_closing below _ _ rfl rfl ?_ ?_ ?_ code.2 code'.2
    · have regions := self.region
      rw [region] at regions
      cases regions with
      | inClass classes =>
        exact ⟨rfl, uncounted doc doc', rfl,
          .inClass ⟨classes.decl, classes.line, classes.known, classes.pending, rfl⟩⟩
    · exact code.1.behind
    · exact code'.1.behind

end Reader

/-! ## Whole headers -/

/-- The lines around replaced ones are quoted as before. -/
theorem SourceUnit.line_replaced (path : Text) {before inside inside' behind : List Text}
    (free : ∀ line ∈ before ++ inside ++ inside' ++ behind, '\n' ∉ line) (written : before ≠ [])
    (same : inside'.length = inside.length) (number : Nat)
    (around : number ≤ before.length ∨ before.length + inside.length < number) :
    (SourceUnit.ofLines path (before ++ inside' ++ behind)).line? number =
      (SourceUnit.ofLines path (before ++ inside ++ behind)).line? number := by
  cases number with
  | zero => rfl
  | succ index =>
    rw [line_ofLines _ _ (fun line member => free line (by grind)) (by simp [written]),
      line_ofLines _ _ (fun line member => free line (by grind)) (by simp [written])]
    congr 1
    rcases around with front | back
    · have inner : index < before.length := by omega
      simp [List.getElem?_append_left, inner]
    · have outer : before.length + inside.length ≤ index := by omega
      rw [List.getElem?_append_right (by simpa [same] using outer),
        List.getElem?_append_right (by simpa using outer)]
      simp [same]

/-- Other lines in the place of lines that are skipped leave the classes as they are but for
documentation, and the warnings as they are. -/
theorem Run.extractUnits_skipped (set : ClassSet) (path : Text)
    (before inside inside' behind : List Text) (later : List SourceUnit)
    (free : ∀ line ∈ before ++ inside ++ inside' ++ behind, '\n' ∉ line)
    (same : inside'.length = inside.length)
    (skips : (Reader.readLines {} 1 before).1.Skips (before.length + 1) inside behind)
    (skips' : (Reader.readLines {} 1 before).1.Skips (before.length + 1) inside' behind) :
    let kept := Run.extractUnits set (.ofLines path (before ++ inside ++ behind) :: later)
    let changed := Run.extractUnits set (.ofLines path (before ++ inside' ++ behind) :: later)
    changed.1.classes.map ClassDecl.undocumented = kept.1.classes.map ClassDecl.undocumented ∧
      changed.1.diagnostics = kept.1.diagnostics := by
  have written : before ≠ [] := by
    rintro rfl
    exact skips.code
  have free₁ : ∀ line ∈ before ++ inside ++ behind, '\n' ∉ line :=
    fun line member => free line (by grind)
  have free₂ : ∀ line ∈ before ++ inside' ++ behind, '\n' ∉ line :=
    fun line member => free line (by grind)
  -- Lines of the part that is skipped are never reported.
  let known (number : Nat) : Prop := number ≤ before.length ∨ before.length + inside.length < number
  have first := Reader.readLines_varied (v := .bare known) Reader.start_varied rfl 1 0 rfl before
    fun number _ front => .inl (by omega)
  have rest := Reader.readLines_skipped _ (before.length + 1) inside inside' behind same
    skips skips' first.reader fun number back => .inr (by omega)
  have notes : NotesVaried (.bare known)
      (notesOf (SourceUnit.ofLines path (before ++ inside ++ behind)).content)
      (notesOf (SourceUnit.ofLines path (before ++ inside' ++ behind)).content) := by
    rw [SourceUnit.notesOf_ofLines _ _ free₁, SourceUnit.notesOf_ofLines _ _ free₂]
    have whole := first.notes.append rest
    simpa only [List.append_assoc, Reader.readLines_append, Nat.add_comm 1] using whole
  have start : set.Varied false id set := .refl false set
  have sets : (set.recordAll (SourceUnit.ofLines path (before ++ inside ++ behind)).findings).Varied
      false id (set.recordAll (SourceUnit.ofLines path (before ++ inside' ++ behind)).findings) :=
    ClassSet.recordAll_varied (v := .bare known) start notes ?_
  · have all := ClassSet.extractUnits_varied sets later
    have diagnostics := all.diagnostics
    rw [List.map_id, List.map_id] at diagnostics
    simp only [extractUnits_cons]
    exact ⟨all.bare, diagnostics⟩
  · intro number message own
    have quoted := SourceUnit.line_replaced path free written same number own
    exact congrArg (fun line => ({ Diagnostic.atLine message path number with
      help := line.map fun text => "in `".toList ++ Text.trim text ++ ['`'] } : Diagnostic)) quoted

/-- A header of which some lines are exchanged for others. -/
structure Exchange where
  before : List Text
  inside : List Text
  inside' : List Text
  behind : List Text

namespace Exchange

variable (exchange : Exchange)

def kept : SourceUnit :=
  .ofLines "Panel.h".toList (exchange.before ++ exchange.inside ++ exchange.behind)

def changed : SourceUnit :=
  .ofLines "Panel.h".toList (exchange.before ++ exchange.inside' ++ exchange.behind)

/-- As many lines are skipped before the exchange as after it. -/
def IsSkipped : Prop :=
  (∀ line ∈ exchange.before ++ exchange.inside ++ exchange.inside' ++ exchange.behind, '\n' ∉ line) ∧
    exchange.inside'.length = exchange.inside.length ∧
    (Reader.readLines {} 1 exchange.before).1.Skips (exchange.before.length + 1) exchange.inside
      exchange.behind ∧
    (Reader.readLines {} 1 exchange.before).1.Skips (exchange.before.length + 1) exchange.inside'
      exchange.behind

instance : Decidable exchange.IsSkipped := inferInstanceAs (Decidable (_ ∧ _ ∧ _ ∧ _))

/-- Nothing but documentation is read off the exchange. -/
def IsUnnoticed : Prop :=
  (Run.extractUnits .empty [exchange.changed]).1.classes.map ClassDecl.undocumented =
      (Run.extractUnits .empty [exchange.kept]).1.classes.map ClassDecl.undocumented ∧
    (Run.extractUnits .empty [exchange.changed]).1.diagnostics =
      (Run.extractUnits .empty [exchange.kept]).1.diagnostics

end Exchange

def protocolLine : List Text := ["@protocol Moving".toList]

def belowProtocol : List Text :=
  ["@end".toList, "@interface Panel : NSObject".toList, "@property (copy) NSString *title;".toList,
   "@end".toList]

/-- The body of a protocol, and something else in its place. -/
def inProtocol : Exchange where
  before := protocolLine
  inside := ["/// Moves.".toList, "- (void)move;".toList, []]
  inside' :=
    ["@interface Lost : NSObject \x7b".toList, "/* @end".toList, "*/ @property int size;".toList]
  behind := belowProtocol

/-- The inside of a block of variables: braces may be opened and closed in it. -/
def inVariables : Exchange where
  before := ["/// A panel.".toList, "@interface Panel : NSObject \x7b".toList]
  inside := ["  struct \x7b int x, y; \x7d _place;".toList, "  int _size;".toList]
  inside' := ["@interface Lost : NSObject".toList, "- (void)lost;".toList]
  behind := ["\x7d".toList, "- (void)move:(int)x;".toList, "- hide".toList, "@end".toList]

/-- What stands below a header that cannot be read. -/
def inMalformed : Exchange where
  before := ["@interface Panel (Moving".toList]
  inside := ["- (void)move;".toList, "@property int size;".toList]
  inside' := ["@implementation Lost \x7b".toList, "- lost".toList]
  behind := ["@end".toList, "@interface Box : NSObject".toList, "- (void)open;".toList]

theorem extractUnits_skipped_exchanges :
    (inProtocol.IsSkipped ∧ inProtocol.IsUnnoticed) ∧
      (inVariables.IsSkipped ∧ inVariables.IsUnnoticed) ∧
      (inMalformed.IsSkipped ∧ inMalformed.IsUnnoticed) := by
  have skipped : inProtocol.IsSkipped ∧ inVariables.IsSkipped ∧ inMalformed.IsSkipped := by
    decide +kernel
  have unnoticed (exchange : Exchange) (skipped : exchange.IsSkipped) : exchange.IsUnnoticed := by
    obtain ⟨free, same, skips, skips'⟩ := skipped
    exact Run.extractUnits_skipped .empty "Panel.h".toList exchange.before exchange.inside
      exchange.inside' exchange.behind [] free same skips skips'
  obtain ⟨protocol, block, malformed⟩ := skipped
  exact ⟨⟨protocol, unnoticed _ protocol⟩, ⟨block, unnoticed _ block⟩,
    ⟨malformed, unnoticed _ malformed⟩⟩

/-- Where the lines that are replaced rule null out from there on, that shows, even if the lines in
their place say nothing of null. -/
theorem mark_in_protocol_shows :
    let reader := (Reader.readLines {} 1 protocolLine).1
    let marks := ["NS_ASSUME_NONNULL_BEGIN".toList]
    reader.region = .skipping ∧ codeOf (sightsOf reader.comment 2 marks).1 = [] ∧
      (sightsOf reader.comment 2 marks).2 = none ∧ reader.Skips 2 [[]] belowProtocol ∧
      sightsOf reader.comment 2 [[]] = ([], none) ∧
      (Run.extractUnits .empty
          [.ofLines "Panel.h".toList (protocolLine ++ [[]] ++ belowProtocol)]).1.classes.map
            ClassDecl.undocumented ≠
        (Run.extractUnits .empty
          [.ofLines "Panel.h".toList (protocolLine ++ marks ++ belowProtocol)]).1.classes.map
            ClassDecl.undocumented := by
  decide +kernel

end HeaderBindings
