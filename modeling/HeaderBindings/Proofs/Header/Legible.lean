import HeaderBindings.Proofs.Declaration.Feeds
import HeaderBindings.Proofs.Run.Independence

/-!
What reading a header puts into classes. The lines of a header hold no line feed, and so nothing that is
pending while it is read holds one, nor does a class that it declares; the name of such a class is one
identifier. Both are kept by merging, and so they hold of every class of a set.
-/

namespace HeaderBindings

/-- A class of a header: its name is an identifier, and no text that its module shows holds a line feed. -/
structure ClassDecl.Legible (decl : ClassDecl) : Prop where
  name : Token.Spells (.identifier decl.name) decl.name
  lacks : decl.Lacks '\n'

/-- A member whose lines are being joined, all of them without line feeds. -/
structure PendingMember.Legible (member : PendingMember) : Prop where
  text : '\n' ∉ member.text
  doc : member.doc.Lacks '\n'

def Pending.Legible : Pending → Prop
  | nothing => True
  | header text => '\n' ∉ text
  | member pending => pending.Legible

structure OpenClass.Legible (current : OpenClass) : Prop where
  decl : current.decl.Legible
  pending : current.pending.Legible

def Region.Legible : Region → Prop
  | inClass current => current.Legible
  | _ => True

structure Reader.Legible (reader : Reader) : Prop where
  doc : ∀ doc ∈ reader.doc, doc.Lacks '\n'
  availability : ∀ text ∈ reader.availability, '\n' ∉ text
  region : reader.region.Legible

/-- All classes that notes declare are legible. -/
def LegibleNotes (notes : List Note) : Prop := ∀ decl, Note.declared decl ∈ notes → decl.Legible

theorem legibleNotes_nil : LegibleNotes [] := fun _ member => by cases member

theorem legibleNotes_append {first later : List Note} (here : LegibleNotes first)
    (behind : LegibleNotes later) : LegibleNotes (first ++ later) := by
  intro decl member
  rcases List.mem_append.mp member with front | back
  · exact here decl front
  · exact behind decl back

theorem legibleNotes_rejected (number : Nat) (message : Text) :
    LegibleNotes [.rejected number message] := fun _ member => by simp at member

section Members

variable {current : OpenClass} (legible : current.Legible)

namespace ClassDecl

variable {decl : ClassDecl}

theorem Legible.addMethod (legible : decl.Legible) {method : Method} (own : method.Lacks '\n') :
    (decl.addMethod method).Legible := ⟨legible.name, legible.lacks.addMethod own⟩

theorem Legible.addProperty (legible : decl.Legible) {property : Property} (own : property.Lacks '\n') :
    (decl.addProperty property).Legible := ⟨legible.name, legible.lacks.addProperty own⟩

theorem Legible.merge (legible : decl.Legible) {later : ClassDecl} (other : later.Legible) :
    (decl.merge later).Legible := ⟨legible.name, legible.lacks.merge other.lacks⟩

end ClassDecl

namespace OpenClass

include legible

theorem Legible.addMember (assumeNonnull : Bool) (member : PendingMember) (own : member.Legible) :
    (current.addMember assumeNonnull member).1.Legible ∧
      LegibleNotes (current.addMember assumeNonnull member).2 := by
  unfold OpenClass.addMember
  dsimp only
  split
  · split
    · next property parsed =>
      have lacks := (Property.lacks_parse _ _ own.text property parsed).withDoc own.doc
      exact ⟨⟨legible.decl.addProperty lacks, trivial⟩, legibleNotes_nil⟩
    · exact ⟨⟨legible.decl, trivial⟩, legibleNotes_rejected _ _⟩
  · split
    · next method parsed =>
      have lacks := (Method.lacks_parse _ own.text method parsed).withDoc own.doc
      exact ⟨⟨legible.decl.addMethod lacks, trivial⟩, legibleNotes_nil⟩
    · exact ⟨⟨legible.decl, trivial⟩, legibleNotes_rejected _ _⟩

theorem Legible.holdMember (assumeNonnull : Bool) (member : PendingMember) (own : member.Legible)
    (line : Text) : (current.holdMember assumeNonnull member line).1.Legible ∧
      LegibleNotes (current.holdMember assumeNonnull member line).2 := by
  unfold OpenClass.holdMember
  split
  · exact legible.addMember assumeNonnull member own
  · exact ⟨⟨legible.decl, own⟩, legibleNotes_nil⟩

theorem Legible.continueHeader (header : Text) (number : Nat) (line : Text) (known : '\n' ∉ header)
    (free : '\n' ∉ line) : (current.continueHeader header number line).1.Legible ∧
      LegibleNotes (current.continueHeader header number line).2 := by
  have joined : '\n' ∉ header ++ ' ' :: line := by simp [known, free]
  unfold OpenClass.continueHeader
  dsimp only
  split
  · next parsed read =>
    have macros := (ClassHeader.parse_sound _ joined parsed read).2
    have lacks := legible.decl.lacks
    have availability := ClassDecl.lacks_or lacks.availability macros
    exact ⟨⟨⟨legible.decl.name, ⟨lacks.name, lacks.doc, availability, lacks.properties,
      lacks.methods⟩⟩, joined⟩, legibleNotes_nil⟩
  · exact ⟨⟨legible.decl, trivial⟩, legibleNotes_rejected _ _⟩

end OpenClass

end Members

section Lines

variable {reader : Reader} (legible : reader.Legible) (number : Nat) (line : Text)
  (free : '\n' ∉ line)

/-- A reader that is legible, and notes that are. -/
def LegibleStep (step : Reader × List Note) : Prop := step.1.Legible ∧ LegibleNotes step.2

namespace Reader

theorem Legible.inside (legible : reader.Legible) {step : OpenClass × List Note}
    (here : step.1.Legible ∧ LegibleNotes step.2) : LegibleStep (reader.inside step) :=
  ⟨⟨legible.doc, legible.availability, here.1⟩, here.2⟩

theorem Legible.withoutDoc (legible : reader.Legible) : Reader.Legible { reader with doc := none } :=
  ⟨by simp, legible.availability, legible.region⟩

theorem Legible.forgetful (legible : reader.Legible) :
    Reader.Legible { reader with doc := none, availability := none } :=
  ⟨by simp, by simp, legible.region⟩

theorem Legible.inRegion (legible : reader.Legible) (region : Region) (plain : region.Legible) :
    Reader.Legible { reader with region := region } :=
  ⟨legible.doc, legible.availability, plain⟩

include legible free

theorem Legible.openClass : LegibleStep (reader.openClass number line) := by
  unfold Reader.openClass
  dsimp only
  split
  · exact ⟨legible.forgetful.inRegion _ trivial, legibleNotes_rejected _ _⟩
  · next header parsed =>
    obtain ⟨named, macros⟩ := ClassHeader.parse_sound line free header parsed
    apply legible.forgetful.inside
    refine ⟨⟨⟨named, ?_⟩, free⟩, fun _ member => by simp [Note.entered] at member⟩
    refine ⟨?_, ?_, ClassDecl.lacks_or macros legible.availability, by simp [OpenClass.ofHeader,
      ClassHeader.open], by simp [OpenClass.ofHeader, ClassHeader.open]⟩
    · intro feed
      exact absurd (Token.chars_of_name named '\n' feed) (by decide)
    · have doc := legible.doc
      cases known : reader.doc with
      | none => simp [OpenClass.ofHeader, ClassHeader.open]
      | some comment => exact (doc comment known).description

theorem Legible.outsideLine : LegibleStep (reader.outsideLine number line) := by
  unfold Reader.outsideLine
  dsimp only
  split
  · exact legible.openClass number line free
  split
  · exact ⟨legible.inRegion _ trivial, fun _ member => by simp [Note.skippedProtocol] at member⟩
  split
  · exact ⟨legible.inRegion _ trivial, legibleNotes_nil⟩
  · split
    · next availability macros =>
      have calls := feed_macroOnly line free availability macros
      exact ⟨⟨legible.doc, ClassDecl.lacks_or calls legible.availability, legible.region⟩,
        legibleNotes_nil⟩
    · exact ⟨legible.forgetful, legibleNotes_nil⟩

theorem Legible.freshLine {current : OpenClass} (own : current.Legible) :
    LegibleStep (reader.freshLine current number line) := by
  unfold Reader.freshLine
  split
  · refine ⟨legible.withoutDoc.inRegion _ trivial, ?_⟩
    intro decl member
    have same : decl = current.decl := by simpa [Note.closing] using member
    exact same ▸ own.decl
  split
  · have doc : (reader.doc.getD {}).Lacks '\n' := by
      have known := legible.doc
      cases given : reader.doc with
      | none => exact DocComment.lacks_empty '\n'
      | some comment => exact known comment given
    exact legible.withoutDoc.inside (own.holdMember _ ⟨line, number, _⟩ ⟨free, doc⟩ line)
  split
  · exact legible.inside ⟨⟨own.decl, own.pending⟩, legibleNotes_nil⟩
  split
  · exact legible.inside ⟨own, legibleNotes_nil⟩
  · exact legible.withoutDoc.inside ⟨own, legibleNotes_nil⟩

theorem Legible.memberLine {current : OpenClass} (own : current.Legible) (member : PendingMember)
    (pending : member.Legible) : LegibleStep (reader.memberLine current member number line) := by
  unfold Reader.memberLine
  split
  · obtain ⟨flushed, notes⟩ := own.addMember reader.assumeNonnull member pending
    obtain ⟨next, later⟩ := legible.freshLine number line free flushed
    exact ⟨next, legibleNotes_append notes later⟩
  · have joined : '\n' ∉ member.text ++ ' ' :: line := by simp [pending.text, free]
    have held : PendingMember.Legible { member with text := member.text ++ ' ' :: line } :=
      ⟨joined, pending.doc⟩
    exact legible.inside (own.holdMember reader.assumeNonnull _ held line)

theorem Legible.classLine {current : OpenClass} (own : current.Legible) :
    LegibleStep (reader.classLine current number line) := by
  unfold Reader.classLine
  split
  · exact legible.inside ⟨⟨own.decl, own.pending⟩, legibleNotes_nil⟩
  · have pending := own.pending
    split
    · next header held =>
      rw [held] at pending
      split
      · exact legible.inside (own.continueHeader header number line pending free)
      · exact legible.freshLine number line free ⟨own.decl, trivial⟩
    · next member held =>
      rw [held] at pending
      exact legible.memberLine number line free own member pending
    · exact legible.freshLine number line free own

theorem Legible.codeLine : LegibleStep (reader.codeLine number line) := by
  unfold Reader.codeLine
  have region := legible.region
  split
  · exact legible.outsideLine number line free
  · next current here =>
    rw [here] at region
    exact legible.classLine number line free region
  · split
    · exact ⟨legible.inRegion _ trivial, legibleNotes_nil⟩
    · exact ⟨legible, legibleNotes_nil⟩

omit free in
theorem Legible.closeComment (comment : OpenComment) : (reader.closeComment comment).Legible := by
  refine ⟨?_, legible.availability, legible.region⟩
  unfold Reader.closeComment
  dsimp only
  split
  · rintro _ ⟨rfl⟩
    exact DocComment.lacks_parse comment.text
  · exact legible.doc

end Reader

/-- What is left of a line holds no line feed. -/
def Remainder.Feedless : Remainder → Prop
  | nothing => True
  | code line => '\n' ∉ line
  | again text => '\n' ∉ text

namespace Reader

include legible free

theorem Legible.uncommented : (reader.uncommented line).1.Legible ∧
    (reader.uncommented line).2.Feedless := by
  have same (reader' : Reader) (doc : reader'.doc = reader.doc)
      (availability : reader'.availability = reader.availability)
      (region : reader'.region = reader.region) : reader'.Legible :=
    ⟨doc ▸ legible.doc, availability ▸ legible.availability, region ▸ legible.region⟩
  unfold Reader.uncommented
  split
  · exact ⟨same _ rfl rfl rfl, trivial⟩
  split
  · exact ⟨same _ rfl rfl rfl, trivial⟩
  split
  · exact ⟨legible, trivial⟩
  · exact ⟨legible, trivial⟩
  · exact ⟨same _ rfl rfl rfl, trivial⟩
  · exact ⟨legible, trivial⟩
  · next tail _ _ =>
    dsimp only
    split
    · next body rest cut =>
      refine ⟨legible.closeComment _, ?_⟩
      rw [Text.eq_of_cutAt _ _ _ _ cut] at free
      exact fun feed => free (by simp [feed])
    · exact ⟨same _ rfl rfl rfl, trivial⟩
  · exact ⟨legible, free⟩

theorem Legible.peel : (reader.peel line).1.Legible ∧ (reader.peel line).2.Feedless := by
  unfold Reader.peel
  split
  · exact legible.uncommented line free
  · next comment _ =>
    split
    · split
      · exact ⟨⟨legible.doc, legible.availability, legible.region⟩, trivial⟩
      · exact (legible.closeComment comment).uncommented line free
    · split
      · exact ⟨⟨legible.doc, legible.availability, legible.region⟩, trivial⟩
      · next body rest cut =>
        refine ⟨legible.closeComment _, ?_⟩
        rw [Text.eq_of_cutAt _ _ _ _ cut] at free
        exact fun feed => free (by simp [feed])

theorem Legible.readLine : LegibleStep (reader.readLine number line) := by
  -- By the stretches of a line that comments end; what is left of it is read like a line.
  fun_induction Reader.readLine reader number line with
  | case1 reader line after peeled =>
    have here := legible.peel line.trim fun feed => free (Text.trim_subset line feed)
    rw [peeled] at here
    exact ⟨here.1, legibleNotes_nil⟩
  | case2 reader line after code peeled =>
    have here := legible.peel line.trim fun feed => free (Text.trim_subset line feed)
    rw [peeled] at here
    exact here.1.codeLine number code here.2
  | case3 reader line after rest peeled ih =>
    have here := legible.peel line.trim fun feed => free (Text.trim_subset line feed)
    rw [peeled] at here
    exact ih here.1 here.2

omit free in
theorem Legible.readLines (lines : List Text) (free : ∀ line ∈ lines, '\n' ∉ line) :
    LegibleStep (reader.readLines number lines) := by
  induction lines generalizing reader number with
  | nil => exact ⟨legible, legibleNotes_nil⟩
  | cons line lines ih =>
    obtain ⟨first, notes⟩ := legible.readLine number line (free line List.mem_cons_self)
    obtain ⟨last, later⟩ := ih first (number + 1)
      fun next member => free next (List.mem_cons_of_mem line member)
    exact ⟨last, legibleNotes_append notes later⟩

omit free in
theorem Legible.finish : LegibleNotes reader.finish := by
  have region := legible.region
  unfold Reader.finish
  split
  · next current here =>
    rw [here] at region
    have last {flushed : OpenClass × List Note} (own : flushed.1.Legible ∧ LegibleNotes flushed.2) :
        LegibleNotes (flushed.2 ++ [.declared flushed.1.decl, .unclosed flushed.1.decl current.line]) := by
      apply legibleNotes_append own.2
      intro decl member
      have same : decl = flushed.1.decl := by simpa [Note.unclosed] using member
      exact same ▸ own.1.decl
    dsimp only
    split
    · next member held =>
      have pending := region.pending
      rw [held] at pending
      exact last (region.addMember reader.assumeNonnull member pending)
    · exact last ⟨region, legibleNotes_nil⟩
  · exact legibleNotes_nil

end Reader

end Lines

/-- Every class that a header declares is legible. -/
theorem legibleNotes_notesOf (content : Text) : LegibleNotes (notesOf content) := by
  have start : Reader.Legible {} := ⟨by simp, by simp, trivial⟩
  obtain ⟨last, notes⟩ := start.readLines 1 content.lines
    fun line member => (Text.mem_lines content line member).1
  exact legibleNotes_append notes last.finish

namespace ClassSet

/-- The classes of a set have names of their own, and all of them have a property. -/
structure Each (property : ClassDecl → Prop) (set : ClassSet) : Prop where
  apart : set.names.Nodup
  classes : ∀ decl ∈ set.classes, property decl

variable {property : ClassDecl → Prop}

theorem each_empty : Each property empty := ⟨List.nodup_nil, by simp [empty]⟩

section Recording

variable (merges : ∀ known later, property known → property later → property (known.merge later))

include merges

theorem each_insertInto (decl : ClassDecl) (own : property decl) (classes : List ClassDecl)
    (known : ∀ decl ∈ classes, property decl) :
    ∀ other ∈ insertInto decl classes, property other := by
  induction classes with
  | nil => simpa [insertInto] using own
  | cons first later ih =>
    obtain ⟨here, behind⟩ := List.forall_mem_cons.mp known
    rw [insertInto]
    by_cases same : first.name = decl.name
    · rw [if_pos same]
      exact List.forall_mem_cons.mpr ⟨merges first decl here own, behind⟩
    · rw [if_neg same]
      exact List.forall_mem_cons.mpr ⟨here, ih behind⟩

/-- What merging keeps holds of every class that findings add, if it holds of what they declare. -/
theorem Each.recordAll {set : ClassSet} (each : set.Each property) (findings : List Finding)
    (own : ∀ decl, Finding.declared decl ∈ findings → property decl) :
    (set.recordAll findings).Each property := by
  induction findings generalizing set with
  | nil => exact each
  | cons finding findings ih =>
    have later : ∀ decl, Finding.declared decl ∈ findings → property decl :=
      fun decl member => own decl (List.mem_cons_of_mem finding member)
    cases finding with
    | declared decl =>
      have here := own decl List.mem_cons_self
      have inserted : (set.insert decl).Each property :=
        ⟨nodup_insert set decl each.apart, each_insertInto merges decl here set.classes each.classes⟩
      exact ih inserted later
    | warned diagnostic =>
      have warned : (set.warn diagnostic).Each property := ⟨each.apart, each.classes⟩
      exact ih warned later
    | noted event => exact ih each later

end Recording

/-- All classes that the text of headers adds to legible ones are legible. -/
theorem legible_extractUnits {set : ClassSet} (each : set.Each ClassDecl.Legible)
    (units : List SourceUnit) : (Run.extractUnits set units).1.Each ClassDecl.Legible := by
  induction units generalizing set with
  | nil => exact each
  | cons unit units ih =>
    rw [Run.extractUnits_cons]
    apply ih
    apply each.recordAll (fun _ _ here later => here.merge later)
    intro decl member
    obtain ⟨note, known, same⟩ := List.mem_map.mp member
    cases note with
    | declared other =>
      cases same
      exact legibleNotes_notesOf unit.content decl known
    | rejected line message => cases same
    | progress event => cases same

end ClassSet

end HeaderBindings
