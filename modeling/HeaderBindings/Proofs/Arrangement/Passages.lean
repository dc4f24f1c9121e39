import HeaderBindings.Proofs.Arrangement.Keys

/-!
How lines are read as items. Each item takes its lines off the front: documentation up to the line
that ends it, the line of a member or a mark, and a body up to its end. Documentation above another
line is lines of its own, and what does not end takes all lines that are left.
-/

namespace HeaderBindings

namespace Item

section Through

variable {isLast : Text → Bool}

/-- Lines up to the first of a kind, that line included. -/
def UpTo (isLast : Text → Bool) (front : List Text) : Prop :=
  ∃ init last, front = init ++ [last] ∧ isLast last = true ∧ ∀ line ∈ init, isLast line = false

theorem through_append (front rest : List Text) (whole : UpTo isLast front) :
    through? isLast (front ++ rest) = some (front, rest) := by
  obtain ⟨init, last, rfl, ends, free⟩ := whole
  induction init with
  | nil => simp [through?, ends]
  | cons line init ih =>
    have here := free line List.mem_cons_self
    have later := ih fun next member => free next (List.mem_cons_of_mem line member)
    simp only [List.cons_append, through?, here, Bool.false_eq_true, if_false, later,
      Option.map_some]

theorem through_inv (lines front rest : List Text)
    (found : through? isLast lines = some (front, rest)) :
    lines = front ++ rest ∧ UpTo isLast front := by
  induction lines generalizing front with
  | nil => cases found
  | cons line lines ih =>
    simp only [through?] at found
    split at found
    · next ends =>
      cases found
      exact ⟨rfl, [], line, rfl, ends, List.forall_mem_nil _⟩
    · next goes =>
      obtain ⟨⟨later, after⟩, cut, same⟩ := Option.map_eq_some_iff.mp found
      cases same
      obtain ⟨rfl, init, last, rfl, ends, free⟩ := ih later cut
      refine ⟨rfl, line :: init, last, rfl, ends, ?_⟩
      intro next member
      rcases List.mem_cons.mp member with rfl | inside
      · exact Bool.not_eq_true _ ▸ goes
      · exact free next inside

theorem through_eq_none_iff (lines : List Text) :
    through? isLast lines = none ↔ ∀ line ∈ lines, isLast line = false := by
  induction lines with
  | nil => simp [through?]
  | cons line lines ih =>
    cases ends : isLast line <;> simp [through?, ends, ih]

end Through

section Documentation

/-- Lines of documentation, from its start to its end. -/
def Documents (doc : List Text) : Prop :=
  (∃ first later, doc = first :: later ∧ startsDoc first = true) ∧ UpTo endsDoc doc

/-- The documentation above a line, which may be none. -/
def Above (doc : List Text) : Prop := doc = [] ∨ Documents doc

theorem doc_of_documents (doc rest : List Text) (documents : Documents doc) :
    doc? (doc ++ rest) = some (doc, rest) := by
  obtain ⟨⟨first, later, rfl, starts⟩, whole⟩ := documents
  have cut := through_append (first :: later) rest whole
  rw [List.cons_append] at cut ⊢
  rw [doc?, if_pos starts, cut]

theorem doc_of_above (doc below : List Text) (head : Text) (above : Above doc)
    (plain : startsDoc head = false) :
    doc? (doc ++ head :: below) = some (doc, head :: below) := by
  rcases above with rfl | documents
  · rw [List.nil_append, doc?, if_neg (Bool.eq_false_iff.mp plain)]
  · exact doc_of_documents doc (head :: below) documents

theorem doc_inv (lines doc rest : List Text) (found : doc? lines = some (doc, rest)) :
    lines = doc ++ rest ∧ (Documents doc ∨ doc = [] ∧ ∀ line ∈ rest.head?, startsDoc line = false) := by
  unfold doc? at found
  split at found
  · cases found
    exact ⟨rfl, Or.inr ⟨rfl, by simp⟩⟩
  · next first later =>
    split at found
    · next starts =>
      obtain ⟨same, whole⟩ := through_inv _ _ _ found
      refine ⟨same, Or.inl ⟨?_, whole⟩⟩
      cases doc with
      | nil =>
        obtain ⟨init, last, empty, _⟩ := whole
        simp at empty
      | cons line doc =>
        cases same
        exact ⟨first, doc, rfl, starts⟩
    · next plain =>
      cases found
      refine ⟨rfl, Or.inr ⟨rfl, ?_⟩⟩
      intro line head
      cases head
      exact Bool.eq_false_iff.mpr plain

end Documentation

section Reading

/-- Lines that are not ended: documentation, or the body of a member. -/
inductive Open : List Text → Prop where
  | comment (first : Text) (later : List Text) (starts : startsDoc first = true)
    (free : ∀ line ∈ first :: later, endsDoc line = false) : Open (first :: later)
  | body (doc : List Text) (head : Text) (below : List Text) (key : MemberKey) (above : Above doc)
    (opened : implementationKey? head = some key)
    (free : ∀ line ∈ below, isBodyEnd line = false) : Open (doc ++ head :: below)

/-- How lines are taken as items. Documentation that no member follows may stand above any line. -/
inductive Reads : List Text → List Item → Prop where
  | nil : Reads [] []
  | comment (doc : List Text) (documents : Documents doc) {rest : List Text} {items : List Item}
    (later : Reads rest items) : Reads (doc ++ rest) (rawLines doc ++ items)
  | line (text : Text) (undocumented : startsDoc text = false) (other : isHead text = false)
    {rest : List Text} {items : List Item} (later : Reads rest items) :
    Reads (text :: rest) (plain text :: items)
  | signature (doc : List Text) (head : Text) (key : MemberKey) (above : Above doc)
    (signed : signatureKey? head = some key) {rest : List Text} {items : List Item}
    (later : Reads rest items) : Reads (doc ++ head :: rest) (signature key (doc ++ [head]) :: items)
  | implementation (doc : List Text) (head : Text) (body : List Text) (key : MemberKey)
    (above : Above doc) (opened : implementationKey? head = some key)
    (whole : UpTo isBodyEnd body) {rest : List Text} {items : List Item}
    (later : Reads rest items) :
    Reads (doc ++ head :: (body ++ rest)) (implementation key (doc ++ head :: body) :: items)
  | marker (doc : List Text) (head : Text) (key : MemberKey) (above : Above doc)
    (marked : markerKey? head = some key) {rest : List Text} {items : List Item}
    (later : Reads rest items) : Reads (doc ++ head :: rest) (marker key doc :: items)
  | tail (lines : List Text) (opened : Open lines) : Reads lines (rawLines lines)

theorem not_isHead (line : Text) : isHead line = false ↔
    signatureKey? line = none ∧ markerKey? line = none ∧ implementationKey? line = none := by
  simp [isHead, Option.isSome_eq_false_iff, and_assoc]

theorem reads_stepAt (doc below : List Text) (head : Text)
    (found : Documents doc ∨ doc = [] ∧ startsDoc head = false)
    (later : Reads (stepAt doc head below).rest (ofLines (stepAt doc head below).rest)) :
    Reads (doc ++ head :: below)
      ((stepAt doc head below).items ++ ofLines (stepAt doc head below).rest) := by
  have above : Above doc := found.elim Or.inr fun none => Or.inl none.1
  unfold stepAt at later ⊢
  split at later
  · next key signed => exact .signature doc head key above signed later
  · next key _ marked => exact .marker doc head key above marked later
  · next key _ _ opened =>
    split at later
    · next body rest cut =>
      obtain ⟨rfl, whole⟩ := through_inv below body rest cut
      exact .implementation doc head body key above opened whole later
    · next uncut =>
      have free := (through_eq_none_iff below).mp uncut
      simpa [ofLines] using Reads.tail _ (.body doc head below key above opened free)
  · next unsigned unmarked unopened =>
    have other := (not_isHead head).mpr ⟨unsigned, unmarked, unopened⟩
    rcases found with documents | ⟨rfl, undocumented⟩
    · have written : doc.isEmpty = false := by
        obtain ⟨⟨first, lines, rfl, _⟩, _⟩ := documents
        rfl
      rw [written] at later ⊢
      exact .comment doc documents later
    · exact .line head undocumented other later

theorem reads_ofLines (lines : List Text) : Reads lines (ofLines lines) := by
  induction lines using ofLines.induct with
  | case1 =>
    rw [ofLines]
    exact .nil
  | case2 first lines ih =>
    rw [ofLines]
    unfold step at ih ⊢
    cases found : doc? (first :: lines) with
    | none =>
      have unended : Open (first :: lines) := by
        rw [doc?] at found
        split at found
        · next starts => exact .comment first lines starts ((through_eq_none_iff _).mp found)
        · cases found
      simpa [ofLines] using Reads.tail _ unended
    | some cut =>
      obtain ⟨doc, rest⟩ := cut
      obtain ⟨same, how⟩ := doc_inv _ _ _ found
      cases rest with
      | nil =>
        rcases how with documents | ⟨rfl, _⟩
        · rw [List.append_nil] at same
          simpa [ofLines, same] using Reads.comment doc documents .nil
        · cases same
      | cons head below =>
        rw [found] at ih
        rw [same]
        exact reads_stepAt doc below head (how.imp_right fun none => ⟨none.1, none.2 head rfl⟩) ih

end Reading

section Equations

theorem ofLines_of_doc (doc below : List Text) (head : Text)
    (found : doc? (doc ++ head :: below) = some (doc, head :: below)) :
    ofLines (doc ++ head :: below) =
      (stepAt doc head below).items ++ ofLines (stepAt doc head below).rest := by
  have once : step (doc ++ head :: below) = stepAt doc head below := by
    rw [step, found]
  cases doc with
  | nil => rw [List.nil_append, ofLines, ← List.nil_append (head :: below), once]
  | cons first doc => rw [List.cons_append, ofLines, ← List.cons_append, once]

theorem ofLines_above (doc below : List Text) (head : Text) (above : Above doc)
    (plain : startsDoc head = false) : ofLines (doc ++ head :: below) =
      (stepAt doc head below).items ++ ofLines (stepAt doc head below).rest :=
  ofLines_of_doc doc below head (doc_of_above doc below head above plain)

theorem stepAt_signature (doc below : List Text) (head : Text) (key : MemberKey)
    (signed : signatureKey? head = some key) :
    stepAt doc head below = ⟨[signature key (doc ++ [head])], below⟩ := by
  simp only [stepAt, signed]

theorem stepAt_marker (doc below : List Text) (head : Text) (key : MemberKey)
    (marked : markerKey? head = some key) : stepAt doc head below = ⟨[marker key doc], below⟩ := by
  simp only [stepAt, signature_of_marker head key marked, marked]

theorem stepAt_implementation (doc body rest : List Text) (head : Text) (key : MemberKey)
    (opened : implementationKey? head = some key) (whole : UpTo isBodyEnd body) :
    stepAt doc head (body ++ rest) = ⟨[implementation key (doc ++ head :: body)], rest⟩ := by
  simp only [stepAt, signature_of_implementation head key opened,
    marker_of_member _ head key opened, opened, through_append body rest whole]

theorem stepAt_open (doc below : List Text) (head : Text) (key : MemberKey)
    (opened : implementationKey? head = some key) (free : ∀ line ∈ below, isBodyEnd line = false) :
    stepAt doc head below = ⟨rawLines (doc ++ head :: below), []⟩ := by
  simp only [stepAt, signature_of_implementation head key opened,
    marker_of_member _ head key opened, opened, (through_eq_none_iff below).mpr free]

theorem stepAt_line (below : List Text) (head : Text) (other : isHead head = false) :
    stepAt [] head below = ⟨[plain head], below⟩ := by
  obtain ⟨unsigned, unmarked, unopened⟩ := (not_isHead head).mp other
  simp only [stepAt, unsigned, unmarked, unopened, List.isEmpty_nil, if_true]

theorem stepAt_comment (doc below : List Text) (head : Text) (documents : Documents doc)
    (other : isHead head = false) : stepAt doc head below = ⟨rawLines doc, head :: below⟩ := by
  obtain ⟨unsigned, unmarked, unopened⟩ := (not_isHead head).mp other
  obtain ⟨⟨first, later, rfl, _⟩, _⟩ := documents
  simp only [stepAt, unsigned, unmarked, unopened, List.isEmpty_cons, Bool.false_eq_true, if_false]

theorem ofLines_signature (doc below : List Text) (head : Text) (key : MemberKey)
    (above : Above doc) (signed : signatureKey? head = some key) :
    ofLines (doc ++ head :: below) = signature key (doc ++ [head]) :: ofLines below := by
  rw [ofLines_above doc below head above (doc_of_member _ head key signed),
    stepAt_signature doc below head key signed, List.singleton_append]

theorem ofLines_marker (doc below : List Text) (head : Text) (key : MemberKey)
    (above : Above doc) (marked : markerKey? head = some key) :
    ofLines (doc ++ head :: below) = marker key doc :: ofLines below := by
  rw [ofLines_above doc below head above (doc_of_marker head key marked),
    stepAt_marker doc below head key marked, List.singleton_append]

theorem ofLines_implementation (doc body rest : List Text) (head : Text) (key : MemberKey)
    (above : Above doc) (opened : implementationKey? head = some key)
    (whole : UpTo isBodyEnd body) :
    ofLines (doc ++ head :: (body ++ rest)) =
      implementation key (doc ++ head :: body) :: ofLines rest := by
  rw [ofLines_above doc _ head above (doc_of_member _ head key opened),
    stepAt_implementation doc body rest head key opened whole, List.singleton_append]

theorem ofLines_line (head : Text) (below : List Text) (undocumented : startsDoc head = false)
    (other : isHead head = false) : ofLines (head :: below) = plain head :: ofLines below := by
  have read := ofLines_above [] below head (Or.inl rfl) undocumented
  rwa [List.nil_append, stepAt_line below head other] at read

theorem ofLines_rawLines (lines rest : List Text)
    (other : ∀ line ∈ lines, startsDoc line = false ∧ isHead line = false) :
    ofLines (lines ++ rest) = rawLines lines ++ ofLines rest := by
  induction lines with
  | nil => rfl
  | cons line lines ih =>
    have here := other line List.mem_cons_self
    rw [List.cons_append, ofLines_line line _ here.1 here.2,
      ih fun next member => other next (List.mem_cons_of_mem line member)]
    rfl

theorem ofLines_comment (doc below : List Text) (head : Text) (documents : Documents doc)
    (other : isHead head = false) :
    ofLines (doc ++ head :: below) = rawLines doc ++ ofLines (head :: below) := by
  rw [ofLines_of_doc doc below head (doc_of_documents doc _ documents),
    stepAt_comment doc below head documents other]

theorem ofLines_of_step (lines : List Text) (items : List Item)
    (found : step lines = ⟨items, []⟩) (written : lines ≠ []) : ofLines lines = items := by
  cases lines with
  | nil => exact absurd rfl written
  | cons first lines =>
    rw [ofLines, found, ofLines, List.append_nil]

theorem ofLines_documents (doc : List Text) (documents : Documents doc) :
    ofLines doc = rawLines doc := by
  have found := doc_of_documents doc [] documents
  rw [List.append_nil] at found
  refine ofLines_of_step doc _ (by rw [step, found]) ?_
  obtain ⟨⟨first, later, rfl, _⟩, _⟩ := documents
  exact List.cons_ne_nil first later

theorem ofLines_open (lines : List Text) (unended : Open lines) : ofLines lines = rawLines lines := by
  cases unended with
  | comment first later starts free =>
    have uncut : doc? (first :: later) = none := by
      rw [doc?, if_pos starts]
      exact (through_eq_none_iff _).mpr free
    exact ofLines_of_step _ _ (by rw [step, uncut]) (List.cons_ne_nil first later)
  | body doc head below key above opened free =>
    rw [ofLines_above doc below head above (doc_of_member _ head key opened),
      stepAt_open doc below head key opened free, ofLines, List.append_nil]

end Equations

section Originals

/-- The lines that an item was read from. -/
def original : Item → List Text
  | plain text => [text]
  | signature _ lines => lines
  | implementation _ lines => lines
  | marker key doc => doc ++ [markLine key]

theorem original_rawLines (lines : List Text) : (rawLines lines).flatMap original = lines := by
  induction lines with
  | nil => rfl
  | cons line lines ih => simpa [rawLines, original] using ih

theorem original_of_reads (lines : List Text) (items : List Item) (reads : Reads lines items) :
    items.flatMap original = lines := by
  induction reads with
  | nil => rfl
  | comment doc _ _ ih => rw [List.flatMap_append, original_rawLines, ih]
  | line text _ _ _ ih => rw [List.flatMap_cons, ih, original, List.singleton_append]
  | signature doc head key _ _ _ ih => simp [ih, original]
  | implementation doc head body key _ _ _ _ ih => simp [ih, original]
  | marker doc head key _ marked _ ih =>
    rw [List.flatMap_cons, ih, original, ((markerKey_eq_some_iff head key).mp marked).1]
    simp
  | tail lines _ => exact original_rawLines lines

/-- Every line stands in one item, and the items are in the order of the lines. -/
theorem original_ofLines (lines : List Text) : (ofLines lines).flatMap original = lines :=
  original_of_reads lines _ (reads_ofLines lines)

end Originals

end Item

end HeaderBindings
