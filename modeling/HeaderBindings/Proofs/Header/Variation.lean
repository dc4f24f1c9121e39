import HeaderBindings.Proofs.Header.Gathering
import HeaderBindings.Proofs.Header.Numbering
import HeaderBindings.Proofs.Header.Sights
import HeaderBindings.Proofs.Header.Refinement

/-!
Readings that differ in the numbers of their lines, or in documentation. Two readers of which one has
other line numbers, and perhaps other documentation, stay so as they take in the same sights, and what
they report differs in the same way.
-/

namespace HeaderBindings

/-! ## Declarations without documentation -/

def Parameter.undocumented (param : Parameter) : Parameter := { param with doc := [] }

def Method.undocumented (method : Method) : Method :=
  { method with doc := [], returnDoc := [], params := method.params.map Parameter.undocumented }

def Property.undocumented (property : Property) : Property := { property with doc := [] }

def ClassDecl.undocumented (decl : ClassDecl) : ClassDecl :=
  { decl with
    doc := []
    properties := decl.properties.map Property.undocumented
    methods := decl.methods.map Method.undocumented }

theorem Method.undocumented_withDoc (method : Method) (doc : DocComment) :
    (method.withDoc doc).undocumented = method.undocumented := by
  have same (param : Parameter) : (describe doc param).undocumented = param.undocumented := by
    unfold describe
    split <;> rfl
  simp [undocumented, withDoc, same]

theorem Property.undocumented_withDoc (property : Property) (doc : DocComment) :
    (property.withDoc doc).undocumented = property.undocumented := rfl

theorem ClassDecl.undocumented_addProperty (decl : ClassDecl) (property : Property) :
    (decl.addProperty property).undocumented = decl.undocumented.addProperty property.undocumented := by
  simp [undocumented, addProperty]

theorem ClassDecl.undocumented_addMethod (decl : ClassDecl) (method : Method) :
    (decl.addMethod method).undocumented = decl.undocumented.addMethod method.undocumented := by
  simp [undocumented, addMethod]

theorem ClassDecl.undocumented_merge (earlier later : ClassDecl) :
    (earlier.merge later).undocumented = earlier.undocumented.merge later.undocumented := by
  simp [undocumented, merge]

/-- What two readings of a header may differ in: the numbers of lines, and documentation if it does not
count. Lines that are reported are known. -/
structure Variation where
  number : Nat → Nat
  documented : Bool
  known : Nat → Prop

/-! ## What a reader holds, and what it reports -/

/-- Classes that differ in documentation at most. -/
structure Variation.Decls (v : Variation) (decl other : ClassDecl) : Prop where
  bare : other.undocumented = decl.undocumented
  whole : v.documented = true → other = decl

namespace Variation.Decls

variable {v : Variation} {decl other : ClassDecl} {doc doc' : DocComment}

theorem name (decls : v.Decls decl other) : other.name = decl.name := by
  have bare := congrArg ClassDecl.name decls.bare
  exact bare

theorem addProperty (decls : v.Decls decl other) (docs : v.documented = true → doc' = doc)
    (property : Property) :
    v.Decls (decl.addProperty (property.withDoc doc)) (other.addProperty (property.withDoc doc')) where
  bare := by simp only [ClassDecl.undocumented_addProperty, decls.bare, Property.undocumented_withDoc]
  whole counts := by rw [decls.whole counts, docs counts]

theorem addMethod (decls : v.Decls decl other) (docs : v.documented = true → doc' = doc)
    (method : Method) :
    v.Decls (decl.addMethod (method.withDoc doc)) (other.addMethod (method.withDoc doc')) where
  bare := by simp only [ClassDecl.undocumented_addMethod, decls.bare, Method.undocumented_withDoc]
  whole counts := by rw [decls.whole counts, docs counts]

theorem continued (decls : v.Decls decl other) (protocols : List Text) (availability : Option Text) :
    v.Decls { decl.conform protocols with availability := decl.availability.or availability }
      { other.conform protocols with availability := other.availability.or availability } where
  bare := by
    have bare (own : ClassDecl) :
        ({ own.conform protocols with availability := own.availability.or availability }
            : ClassDecl).undocumented =
          { own.undocumented.conform protocols with
            availability := own.undocumented.availability.or availability } := rfl
    rw [bare, bare, decls.bare]
  whole counts := by rw [decls.whole counts]

end Variation.Decls

inductive Pending.Varied (v : Variation) : Pending → Pending → Prop where
  | nothing : Varied v .nothing .nothing
  | header (text : Text) : Varied v (.header text) (.header text)
  | member {line : Nat} {doc doc' : DocComment} (text : Text) (known : v.known line)
      (docs : v.documented = true → doc' = doc) :
      Varied v (.member ⟨text, line, doc⟩) (.member ⟨text, v.number line, doc'⟩)

/-- Only whether a block of variables is open shows of the depth of braces. -/
structure OpenClass.Varied (v : Variation) (current other : OpenClass) : Prop where
  decl : v.Decls current.decl other.decl
  line : other.line = v.number current.line
  known : v.known current.line
  pending : current.pending.Varied v other.pending
  depth : max other.braceDepth 0 = max current.braceDepth 0

inductive Region.Varied (v : Variation) : Region → Region → Prop where
  | outside : Varied v .outside .outside
  | skipping : Varied v .skipping .skipping
  | inClass {current other : OpenClass} (classes : current.Varied v other) :
      Varied v (.inClass current) (.inClass other)

/-- Open comments are not compared. -/
structure Reader.Varied (v : Variation) (reader other : Reader) : Prop where
  assumeNonnull : other.assumeNonnull = reader.assumeNonnull
  doc : v.documented = true → other.doc = reader.doc
  availability : other.availability = reader.availability
  region : reader.region.Varied v other.region

/-- A warning's line and text. -/
def Note.warning? : Note → Option (Nat × Text)
  | .rejected line message => some (line, message)
  | _ => none

def warningsBy (notes : List Note) : List (Nat × Text) := notes.filterMap Note.warning?

@[simp] theorem warningsBy_nil : warningsBy [] = [] := rfl

@[simp] theorem warningsBy_rejected (number : Nat) (message : Text) :
    warningsBy [.rejected number message] = [(number, message)] := rfl

theorem warningsBy_append (notes later : List Note) :
    warningsBy (notes ++ later) = warningsBy notes ++ warningsBy later := List.filterMap_append

/-- Notes that declare classes which differ in documentation at most, and warn of the same in the same
known lines. -/
structure NotesVaried (v : Variation) (notes other : List Note) : Prop where
  bare : (declaredBy other).map ClassDecl.undocumented = (declaredBy notes).map ClassDecl.undocumented
  whole : v.documented = true → declaredBy other = declaredBy notes
  warnings : warningsBy other = (warningsBy notes).map (Prod.map v.number id)
  known : ∀ warning ∈ warningsBy notes, v.known warning.1

namespace NotesVaried

variable {v : Variation} {notes other later later' : List Note} {decl decl' : ClassDecl}

/-- Progress is not compared. -/
theorem progress (event event' : Event) : NotesVaried v [.progress event] [.progress event'] :=
  ⟨rfl, fun _ => rfl, rfl, fun _ member => by cases member⟩

theorem nil : NotesVaried v [] [] := ⟨rfl, fun _ => rfl, rfl, fun _ member => by cases member⟩

theorem append (first : NotesVaried v notes other) (second : NotesVaried v later later') :
    NotesVaried v (notes ++ later) (other ++ later') where
  bare := by simp only [declaredBy_append, List.map_append, first.bare, second.bare]
  whole counts := by
    simp only [declaredBy_append, first.whole counts, second.whole counts]
  warnings := by simp only [warningsBy_append, List.map_append, first.warnings, second.warnings]
  known warning member := by
    rw [warningsBy_append, List.mem_append] at member
    exact member.elim (first.known warning) (second.known warning)

theorem rejected {line : Nat} (known : v.known line) (message : Text) :
    NotesVaried v [.rejected line message] [.rejected (v.number line) message] where
  bare := rfl
  whole _ := rfl
  warnings := rfl
  known warning member := by
    rw [List.mem_singleton.mp member]
    exact known

theorem declared (decls : v.Decls decl decl') : NotesVaried v [.declared decl] [.declared decl'] where
  bare := congrArg (fun bare => [bare]) decls.bare
  whole counts := congrArg (fun whole => [whole]) (decls.whole counts)
  warnings := rfl
  known _ member := by cases member

end NotesVaried

/-! ## One sight -/

namespace OpenClass

/-- Classes with their notes that vary. -/
structure StepVaried (v : Variation) (step other : OpenClass × List Note) : Prop where
  current : step.1.Varied v other.1
  notes : NotesVaried v step.2 other.2

variable {v : Variation} {current other : OpenClass} {line : Nat} {doc doc' : DocComment}

theorem Varied.settle (varied : current.Varied v other) :
    { current with pending := .nothing }.Varied v { other with pending := .nothing } :=
  ⟨varied.decl, varied.line, varied.known, .nothing, varied.depth⟩

/-- Only whether a block of variables is open shows. -/
theorem Varied.deep (varied : current.Varied v other) :
    other.braceDepth > 0 ↔ current.braceDepth > 0 := by
  have := varied.depth
  omega

theorem addMember_varied (varied : current.Varied v other) (assumeNonnull : Bool) (text : Text)
    (known : v.known line) (docs : v.documented = true → doc' = doc) :
    StepVaried v (current.addMember assumeNonnull ⟨text, line, doc⟩)
      (other.addMember assumeNonnull ⟨text, v.number line, doc'⟩) := by
  simp only [addMember]
  split
  · cases Property.parse assumeNonnull text with
    | ok property =>
      exact ⟨⟨varied.decl.addProperty docs property, varied.line, varied.known, .nothing,
        varied.depth⟩, .nil⟩
    | error fault => exact ⟨varied.settle, .rejected known _⟩
  · cases Method.parse text with
    | ok method =>
      exact ⟨⟨varied.decl.addMethod docs method, varied.line, varied.known, .nothing,
        varied.depth⟩, .nil⟩
    | error fault => exact ⟨varied.settle, .rejected known _⟩

theorem holdMember_varied (varied : current.Varied v other) (assumeNonnull : Bool) (text last : Text)
    (known : v.known line) (docs : v.documented = true → doc' = doc) :
    StepVaried v (current.holdMember assumeNonnull ⟨text, line, doc⟩ last)
      (other.holdMember assumeNonnull ⟨text, v.number line, doc'⟩ last) := by
  simp only [holdMember]
  split
  · exact addMember_varied varied assumeNonnull text known docs
  · exact ⟨⟨varied.decl, varied.line, varied.known, .member text known docs, varied.depth⟩, .nil⟩

theorem continueHeader_varied (varied : current.Varied v other) (header : Text) {number : Nat}
    (known : v.known number) (last : Text) :
    StepVaried v (current.continueHeader header number last)
      (other.continueHeader header (v.number number) last) := by
  simp only [continueHeader]
  cases ClassHeader.parse (header ++ ' ' :: last) with
  | ok parsed =>
    exact ⟨⟨varied.decl.continued parsed.protocols parsed.availability, varied.line, varied.known,
      .header _, rfl⟩, .nil⟩
  | error fault => exact ⟨⟨varied.decl, varied.line, varied.known, .nothing, rfl⟩, .rejected known _⟩

end OpenClass

namespace Reader

/-- Readers with their notes that vary. -/
structure StepVaried (v : Variation) (step other : Reader × List Note) : Prop where
  reader : step.1.Varied v other.1
  notes : NotesVaried v step.2 other.2

variable {v : Variation} {reader other : Reader} {current current' : OpenClass} {number : Nat}

theorem Varied.inside (varied : reader.Varied v other) {step step' : OpenClass × List Note}
    (steps : OpenClass.StepVaried v step step') : StepVaried v (reader.inside step) (other.inside step') :=
  ⟨⟨varied.assumeNonnull, varied.doc, varied.availability, .inClass steps.current⟩, steps.notes⟩

theorem Varied.withoutDoc (varied : reader.Varied v other) :
    { reader with doc := none }.Varied v { other with doc := none } :=
  ⟨varied.assumeNonnull, fun _ => rfl, varied.availability, varied.region⟩

theorem freshLine_varied (varied : reader.Varied v other) (classes : current.Varied v current')
    (known : v.known number) (line : Text) :
    StepVaried v (reader.freshLine current number line)
      (other.freshLine current' (v.number number) line) := by
  have held : OpenClass.StepVaried v
      (current.holdMember reader.assumeNonnull ⟨line, number, reader.doc.getD {}⟩ line)
      (current'.holdMember other.assumeNonnull ⟨line, v.number number, other.doc.getD {}⟩ line) := by
    rw [varied.assumeNonnull]
    exact OpenClass.holdMember_varied classes _ line line known fun counts => by
      rw [varied.doc counts]
  simp only [freshLine]
  split
  · exact ⟨⟨varied.assumeNonnull, fun _ => rfl, varied.availability, .outside⟩,
      (NotesVaried.progress _ _).append (.declared classes.decl)⟩
  split
  · exact varied.withoutDoc.inside held
  split
  · exact varied.inside
      ⟨⟨classes.decl, classes.line, classes.known, classes.pending, rfl⟩, .nil⟩
  split
  · exact varied.inside ⟨classes, .nil⟩
  · exact varied.withoutDoc.inside ⟨classes, .nil⟩

theorem classLine_varied (varied : reader.Varied v other) (classes : current.Varied v current')
    (known : v.known number) (line : Text) :
    StepVaried v (reader.classLine current number line)
      (other.classLine current' (v.number number) line) := by
  unfold classLine
  by_cases deep : current.braceDepth > 0
  · have deep' := classes.deep.mpr deep
    rw [if_pos deep, if_pos deep']
    refine varied.inside ⟨⟨classes.decl, classes.line, classes.known, classes.pending, ?_⟩, .nil⟩
    have := classes.depth
    dsimp only
    omega
  rw [if_neg deep, if_neg fun deep' => deep (classes.deep.mp deep')]
  have pending := classes.pending
  generalize current.pending = before at pending
  generalize current'.pending = after at pending
  cases pending with
  | nothing => exact freshLine_varied varied classes known line
  | header text =>
    dsimp only
    split
    · exact varied.inside (OpenClass.continueHeader_varied classes text known line)
    · exact freshLine_varied varied classes.settle known line
  | member text start docs =>
    simp only [memberLine, varied.assumeNonnull]
    split
    · have flushed := OpenClass.addMember_varied classes reader.assumeNonnull text start docs
      have next := freshLine_varied varied flushed.current known line
      exact ⟨next.reader, flushed.notes.append next.notes⟩
    · exact varied.inside (OpenClass.holdMember_varied classes _ _ line start docs)

theorem openClass_varied (varied : reader.Varied v other) (known : v.known number) (line : Text) :
    StepVaried v (reader.openClass number line) (other.openClass (v.number number) line) := by
  simp only [openClass]
  cases ClassHeader.parse line with
  | ok header =>
    refine ⟨⟨varied.assumeNonnull, fun _ => rfl, rfl, .inClass ⟨⟨?_, ?_⟩, rfl, known, .header line,
      rfl⟩⟩, .progress _ _⟩
    · simp only [OpenClass.ofHeader, varied.availability]
      rfl
    · intro counts
      simp only [OpenClass.ofHeader, varied.availability, varied.doc counts]
  | error fault =>
    exact ⟨⟨varied.assumeNonnull, fun _ => rfl, rfl, .skipping⟩, .rejected known _⟩

theorem outsideLine_varied (varied : reader.Varied v other) (known : v.known number) (line : Text) :
    StepVaried v (reader.outsideLine number line) (other.outsideLine (v.number number) line) := by
  simp only [outsideLine]
  split
  · exact openClass_varied varied known line
  split
  · exact ⟨⟨varied.assumeNonnull, varied.doc, varied.availability, .skipping⟩, .progress _ _⟩
  split
  · exact ⟨⟨varied.assumeNonnull, varied.doc, varied.availability, .skipping⟩, .nil⟩
  split
  · exact ⟨⟨varied.assumeNonnull, varied.doc, by simp [varied.availability], varied.region⟩, .nil⟩
  · exact ⟨⟨varied.assumeNonnull, fun _ => rfl, rfl, varied.region⟩, .nil⟩

theorem codeLine_varied (varied : reader.Varied v other) (known : v.known number) (line : Text) :
    StepVaried v (reader.codeLine number line) (other.codeLine (v.number number) line) := by
  have regions := varied.region
  simp only [codeLine]
  generalize here : reader.region = region at regions
  generalize there : other.region = region' at regions
  cases regions with
  | outside => exact outsideLine_varied varied known line
  | skipping =>
    dsimp only
    split
    · exact ⟨⟨varied.assumeNonnull, varied.doc, varied.availability, .outside⟩, .nil⟩
    · exact ⟨varied, .nil⟩
  | inClass classes => exact classLine_varied varied classes known line

end Reader

/-! ## All sights -/

/-- The same sights under other line numbers, and with other documentation if it does not count. -/
inductive SightsVaried (v : Variation) : List Sight → List Sight → Prop where
  | nil : SightsVaried v [] []
  | cons {sights others : List Sight} (sight : Sight) (known : ∀ number ∈ sight.number?, v.known number)
      (later : SightsVaried v sights others) :
      SightsVaried v (sight :: sights) (sight.renumber v.number :: others)
  | gone {sights others : List Sight} (doc : DocComment) (undocumented : v.documented = false)
      (later : SightsVaried v sights others) : SightsVaried v (.doc doc :: sights) others
  | fresh {sights others : List Sight} (doc : DocComment) (undocumented : v.documented = false)
      (later : SightsVaried v sights others) : SightsVaried v sights (.doc doc :: others)

namespace SightsVaried

variable {v : Variation} {sights others sights' others' : List Sight}

theorem renumbered (sights : List Sight)
    (known : ∀ sight ∈ sights, ∀ number ∈ sight.number?, v.known number) :
    SightsVaried v sights (sights.map (Sight.renumber v.number)) := by
  induction sights with
  | nil => exact .nil
  | cons sight sights ih =>
    exact .cons sight (known sight List.mem_cons_self)
      (ih fun sight member => known sight (List.mem_cons_of_mem _ member))

theorem append (first : SightsVaried v sights others) (second : SightsVaried v sights' others') :
    SightsVaried v (sights ++ sights') (others ++ others') := by
  induction first with
  | nil => exact second
  | cons sight known later ih => exact .cons sight known ih
  | gone doc undocumented later ih => exact .gone doc undocumented ih
  | fresh doc undocumented later ih => exact .fresh doc undocumented ih

end SightsVaried

namespace Reader

variable {v : Variation} {reader other : Reader}

theorem seeAll_varied {sights others : List Sight} (varied : reader.Varied v other)
    (same : SightsVaried v sights others) :
    StepVaried v (reader.seeAll sights) (other.seeAll others) := by
  induction same generalizing reader other with
  | nil => exact ⟨varied, .nil⟩
  | @cons sights others sight known later ih =>
    have first : StepVaried v (reader.see sight) (other.see (sight.renumber v.number)) := by
      cases sight with
      | doc doc =>
        exact ⟨⟨varied.assumeNonnull, fun _ => rfl, varied.availability, varied.region⟩, .nil⟩
      | nonnull assumed => exact ⟨⟨rfl, varied.doc, varied.availability, varied.region⟩, .nil⟩
      | code number line => exact codeLine_varied varied (known number rfl) line
    have rest := ih first.reader
    exact ⟨rest.reader, first.notes.append rest.notes⟩
  | gone doc undocumented later ih =>
    have counts : v.documented ≠ true := by simp [undocumented]
    exact ih ⟨varied.assumeNonnull, fun seen => absurd seen counts, varied.availability,
      varied.region⟩
  | fresh doc undocumented later ih =>
    have counts : v.documented ≠ true := by simp [undocumented]
    exact ih ⟨varied.assumeNonnull, fun seen => absurd seen counts, varied.availability,
      varied.region⟩

theorem finish_varied (varied : reader.Varied v other) : NotesVaried v reader.finish other.finish := by
  have regions := varied.region
  unfold finish
  generalize reader.region = region at regions
  generalize other.region = region' at regions
  cases regions with
  | outside => exact .nil
  | skipping => exact .nil
  | @inClass current current' classes =>
    -- What is pending is flushed, and the class is declared with a warning at its first line.
    have closing {step step' : OpenClass × List Note} (steps : OpenClass.StepVaried v step step') :
        NotesVaried v (step.2 ++ [.declared step.1.decl, .unclosed step.1.decl current.line])
          (step'.2 ++ [.declared step'.1.decl, .unclosed step'.1.decl current'.line]) := by
      simp only [Note.unclosed, classes.line, steps.current.decl.name]
      exact steps.notes.append
        ((NotesVaried.declared steps.current.decl).append (.rejected classes.known _))
    have pending := classes.pending
    dsimp only
    generalize current.pending = before at pending
    generalize current'.pending = after at pending
    cases pending with
    | nothing => exact closing ⟨classes, .nil⟩
    | header text => exact closing ⟨classes, .nil⟩
    | member text known docs =>
      simp only [varied.assumeNonnull]
      exact closing (OpenClass.addMember_varied classes _ text known docs)

/-- The same lines are read alike under higher numbers. Lines elsewhere may keep theirs. -/
theorem readLines_renumbered (varied : reader.Varied v other) (same : other.comment = reader.comment)
    (number shift : Nat) (lines : List Text)
    (shifts : ∀ n, number ≤ n → n < number + lines.length → v.number n = n + shift)
    (known : ∀ n, number ≤ n → n < number + lines.length → v.known n) :
    StepVaried v (reader.readLines number lines) (other.readLines (number + shift) lines) := by
  have within (sight : Sight) (seen : sight ∈ (sightsOf reader.comment number lines).1) :
      ∀ own ∈ sight.number?, number ≤ own ∧ own < number + lines.length :=
    number_of_sightsOf _ _ _ sight seen
  have moved : (sightsOf reader.comment number lines).1.map (Sight.renumber v.number) =
      (sightsOf reader.comment number lines).1.map (Sight.renumber (· + shift)) := by
    refine List.map_congr_left fun sight seen => ?_
    cases sight with
    | doc doc => rfl
    | nonnull assumed => rfl
    | code own line =>
      obtain ⟨low, high⟩ := within _ seen own rfl
      exact congrArg (Sight.code · line) (shifts own low high)
  have sights := SightsVaried.renumbered (v := v) (sightsOf reader.comment number lines).1
    fun sight seen own code => known own (within sight seen own code).1 (within sight seen own code).2
  rw [moved] at sights
  have seen := seeAll_varied varied sights
  rw [readLines_eq, readLines_eq, same, sightsOf_shift]
  exact ⟨⟨seen.reader.assumeNonnull, seen.reader.doc, seen.reader.availability, seen.reader.region⟩,
    seen.notes⟩

theorem readLines_varied (varied : reader.Varied v other) (same : other.comment = reader.comment)
    (number shift : Nat) (shifts : v.number = (· + shift)) (lines : List Text)
    (known : ∀ n, number ≤ n → n < number + lines.length → v.known n) :
    StepVaried v (reader.readLines number lines) (other.readLines (number + shift) lines) :=
  readLines_renumbered varied same number shift lines (fun n _ _ => congrFun shifts n) known

theorem start_varied : Reader.Varied v {} {} := ⟨rfl, fun _ => rfl, rfl, .outside⟩

end Reader

/-! ## What a class set makes of it -/

namespace ClassSet

theorem bare_insertInto (decl : ClassDecl) (classes : List ClassDecl) :
    (insertInto decl classes).map ClassDecl.undocumented =
      insertInto decl.undocumented (classes.map ClassDecl.undocumented) := by
  have kept (own : ClassDecl) : own.undocumented.name = own.name := rfl
  induction classes with
  | nil => rfl
  | cons known classes ih =>
    simp only [insertInto, List.map_cons, kept]
    split
    · rw [List.map_cons, ClassDecl.undocumented_merge]
    · rw [List.map_cons, ih]

theorem bare_foldl (decls : List ClassDecl) (classes : List ClassDecl) :
    (decls.foldl (fun classes decl => insertInto decl classes) classes).map ClassDecl.undocumented =
      (decls.map ClassDecl.undocumented).foldl (fun classes decl => insertInto decl classes)
        (classes.map ClassDecl.undocumented) := by
  induction decls generalizing classes with
  | nil => rfl
  | cons decl decls ih => simp only [List.foldl_cons, List.map_cons, ih, bare_insertInto]

theorem recordAll_diagnostics (set : ClassSet) (unit : SourceUnit) (notes : List Note) :
    (set.recordAll (notes.map unit.finding)).diagnostics =
      set.diagnostics ++
        (warningsBy notes).map fun warning => unit.diagnostic warning.1 warning.2 := by
  induction notes generalizing set with
  | nil => exact (List.append_nil _).symm
  | cons note notes ih =>
    cases note with
    | declared decl => exact ih (set.insert decl)
    | progress event => exact ih set
    | rejected line message =>
      refine (ih (set.warn (unit.diagnostic line message))).trans ?_
      simp [warn, warningsBy, Note.warning?]

/-- Class sets whose classes differ in documentation at most, and whose warnings say the same in
places that need not be the same. -/
structure Varied (documented : Bool) (place : Diagnostic → Diagnostic) (set other : ClassSet) :
    Prop where
  bare : other.classes.map ClassDecl.undocumented = set.classes.map ClassDecl.undocumented
  whole : documented = true → other.classes = set.classes
  diagnostics : other.diagnostics.map place = set.diagnostics.map place

variable {v : Variation} {place : Diagnostic → Diagnostic} {set other : ClassSet}

theorem Varied.refl (documented : Bool) (set : ClassSet) : set.Varied documented place set :=
  ⟨rfl, fun _ => rfl, rfl⟩

theorem recordAll_varied (sets : set.Varied v.documented place other) {unit unit' : SourceUnit}
    {notes notes' : List Note} (varied : NotesVaried v notes notes')
    (placed : ∀ number message, v.known number →
      place (unit'.diagnostic (v.number number) message) = place (unit.diagnostic number message)) :
    (set.recordAll (notes.map unit.finding)).Varied v.documented place
      (other.recordAll (notes'.map unit'.finding)) where
  bare := by
    rw [(other.recordAll_notes unit' notes').1, (set.recordAll_notes unit notes).1, bare_foldl,
      bare_foldl, varied.bare, sets.bare]
  whole counts := by
    rw [(other.recordAll_notes unit' notes').1, (set.recordAll_notes unit notes).1,
      varied.whole counts, sets.whole counts]
  diagnostics := by
    rw [recordAll_diagnostics, recordAll_diagnostics, List.map_append, List.map_append,
      sets.diagnostics, varied.warnings, List.map_map, List.map_map, List.map_map]
    refine congrArg _ (List.map_congr_left fun warning member => ?_)
    exact placed warning.1 warning.2 (varied.known warning member)

/-- The headers behind make no further difference. -/
theorem extractUnits_varied {documented : Bool} (sets : set.Varied documented place other)
    (units : List SourceUnit) :
    (Run.extractUnits set units).1.Varied documented place (Run.extractUnits other units).1 := by
  induction units generalizing set other with
  | nil => exact sets
  | cons unit units ih =>
    have same : NotesVaried ⟨id, documented, fun _ => True⟩ (notesOf unit.content)
        (notesOf unit.content) :=
      ⟨rfl, fun _ => rfl, (List.map_id _).symm, fun _ _ => trivial⟩
    rw [Run.extractUnits_cons, Run.extractUnits_cons]
    exact ih (recordAll_varied sets same fun _ _ _ => rfl)

end ClassSet

/-! ## Headers by their lines -/

namespace SourceUnit

/-- The header with these lines. -/
def ofLines (path : Text) (lines : List Text) : SourceUnit := ⟨path, Text.join ['\n'] lines⟩

variable (path : Text) (lines : List Text) (free : ∀ line ∈ lines, '\n' ∉ line)

include free

theorem notesOf_ofLines :
    notesOf (ofLines path lines).content =
      (Reader.readLines {} 1 lines).2 ++ (Reader.readLines {} 1 lines).1.finish := by
  cases lines with
  | nil =>
    obtain ⟨quiet, same⟩ := Reader.readLine_nil {} 1
    rw [notesOf_pieces]
    simp [ofLines, Text.pieces_free, Reader.readLines, quiet, same]
  | cons line lines => rw [notesOf_pieces, ofLines, Text.pieces_join _ (by simp) free]

theorem line_ofLines (written : lines ≠ []) (index : Nat) :
    (ofLines path lines).line? (index + 1) = lines[index]?.map (Text.dropTrailing (· == '\r')) := by
  rw [line_succ, ofLines, Text.pieces_join lines written free]

end SourceUnit

end HeaderBindings
