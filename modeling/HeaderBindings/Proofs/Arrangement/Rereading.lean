import HeaderBindings.Proofs.Arrangement.Order

/-!
Reading a text that was put in order. Its items are the rearranged ones, a mark an implementation,
with fewer lines between them: blank lines are gone, and documentation that stood above no member
belongs to a member that now follows it.
-/

namespace HeaderBindings

namespace Item

/-- An item less its lines. -/
inductive Kind where
  | plain
  | signature (key : MemberKey)
  | implementation (key : MemberKey)
  | marker (key : MemberKey)
  deriving DecidableEq, Repr

def Kind.isPlain : Kind → Bool
  | plain => true
  | _ => false

def kind : Item → Kind
  | plain _ => .plain
  | signature key _ => .signature key
  | implementation key _ => .implementation key
  | marker key _ => .marker key

/-- An item as it is read once it is written: a mark is an implementation then. -/
def filled : Item → Item
  | marker key doc => implementation key (doc ++ stub key)
  | item => item

section Writing

def stubHead (key : MemberKey) : Text :=
  memberLine key "...args: unknown[]): unknown".toList " \x7b".toList

def stubBody (key : MemberKey) : List Text :=
  ["    throw new Error(\"".toList ++ key.name ++ ": declaration could not be bound\");".toList,
   "  \x7d".toList]

theorem stub_eq (key : MemberKey) : stub key = stubHead key :: stubBody key := by
  have head : "  ".toList ++ (if key.isStatic then "static ".toList else []) ++ key.name
      ++ "(...args: unknown[]): unknown \x7b".toList = stubHead key := by
    rw [List.append_assoc, List.append_assoc, stubHead, memberLine, staticPart, List.append_assoc]
    rfl
  rw [stub, head, stubBody]

theorem implementationKey_stubHead (key : MemberKey) (named : isName key.name = true) :
    implementationKey? (stubHead key) = some key :=
  (memberKey_eq_some_iff _ _ key).mpr ⟨_, rfl, named, by decide⟩

theorem upTo_stubBody (key : MemberKey) : UpTo isBodyEnd (stubBody key) := by
  refine ⟨[_], _, rfl, by decide, ?_⟩
  intro line member
  rw [List.mem_singleton.mp member, isBodyEnd, beq_eq_false_iff_ne]
  intro same
  cases same

/-- Whether the lines of a signature are documentation and a member's line. -/
def Signed : Item → Prop
  | signature key lines =>
    ∃ doc head, lines = doc ++ [head] ∧ Above doc ∧ signatureKey? head = some key
  | _ => True

theorem signed_of_reads (lines : List Text) (items : List Item) (reads : Reads lines items) :
    ∀ item ∈ items, Signed item := by
  have raw : ∀ lines : List Text, ∀ item ∈ rawLines lines, Signed item := by
    intro lines item member
    obtain ⟨text, _, rfl⟩ := List.mem_map.mp member
    trivial
  induction reads with
  | nil => exact fun item member => nomatch member
  | comment doc _ _ ih => exact List.forall_mem_append.mpr ⟨raw doc, ih⟩
  | line _ _ _ _ ih => exact List.forall_mem_cons.mpr ⟨trivial, ih⟩
  | signature doc head key above signed _ ih =>
    exact List.forall_mem_cons.mpr ⟨⟨doc, head, rfl, above, signed⟩, ih⟩
  | implementation _ _ _ _ _ _ _ _ ih => exact List.forall_mem_cons.mpr ⟨trivial, ih⟩
  | marker _ _ _ _ _ _ ih => exact List.forall_mem_cons.mpr ⟨trivial, ih⟩
  | tail lines _ => exact raw lines

theorem reads_drained (key : MemberKey) (drained : List Item)
    (signs : ∀ item ∈ drained, signs key item = true) (signed : ∀ item ∈ drained, Signed item)
    (lines : List Text) (items : List Item) (later : Reads lines items) :
    Reads (drained.flatMap filling ++ lines) (drained.map filled ++ items) := by
  induction drained with
  | nil => exact later
  | cons item drained ih =>
    have rest := ih (fun next member => signs next (List.mem_cons_of_mem item member))
      fun next member => signed next (List.mem_cons_of_mem item member)
    cases item with
    | signature own lines =>
      obtain ⟨doc, head, rfl, above, keyed⟩ := signed _ List.mem_cons_self
      have reads := Reads.signature doc head own above keyed rest
      simpa [filling, original, filled] using reads
    | _ => cases signs _ List.mem_cons_self

theorem moved_rawLines (all : List Item) (written : List MemberKey) (lines : List Text)
    (items : List Item) :
    moved all written (rawLines lines ++ items) = rawLines lines ++ moved all written items := by
  induction lines with
  | nil => rfl
  | cons line lines ih => exact congrArg (List.cons (plain line)) ih

theorem filling_rawLines (lines : List Text) : (rawLines lines).flatMap filling = lines := by
  induction lines with
  | nil => rfl
  | cons line lines ih => simpa [rawLines, filling, original] using ih

theorem filled_rawLines (lines : List Text) : (rawLines lines).map filled = rawLines lines := by
  simp [rawLines, filled]

-- The lines of rearranged items are read as these items.
theorem reads_moved (all : List Item) (signed : ∀ item ∈ all, Signed item)
    (lines : List Text) (items : List Item) (reads : Reads lines items) (written : List MemberKey) :
    Reads ((moved all written items).flatMap filling) ((moved all written items).map filled) := by
  induction reads generalizing written with
  | nil => exact .nil
  | comment doc documents _ ih =>
    rw [moved_rawLines, List.flatMap_append, List.map_append, filling_rawLines, filled_rawLines]
    exact .comment doc documents (ih written)
  | line text undocumented other _ ih => exact .line text undocumented other (ih written)
  | signature doc head key above keyed _ ih =>
    rw [moved]
    split
    · exact ih written
    · simpa [filling, original, filled] using Reads.signature doc head key above keyed (ih written)
  | @implementation doc head body key above opened whole rest items _ ih =>
    have own := Reads.implementation doc head body key above opened whole (ih (key :: written))
    have block : Reads
        ((implementation key (doc ++ head :: body) :: moved all (key :: written) items).flatMap filling)
        ((implementation key (doc ++ head :: body) :: moved all (key :: written) items).map filled) := by
      simpa [filling, original, filled] using own
    rw [moved, List.flatMap_append, List.map_append]
    split
    · exact block
    · refine reads_drained key _ (fun item member => (List.mem_filter.mp member).2) ?_ _ _ block
      exact fun item member => signed item (List.mem_filter.mp member).1
  | marker doc head key above marked _ ih =>
    have named := ((markerKey_eq_some_iff head key).mp marked).2
    have own := Reads.implementation doc (stubHead key) (stubBody key) key above
      (implementationKey_stubHead key named) (upTo_stubBody key) (ih written)
    simpa [moved, filling, filled, stub_eq] using own
  | tail lines opened =>
    have raw := moved_rawLines all written lines []
    rw [List.append_nil, moved, List.append_nil] at raw
    rw [raw, filling_rawLines, filled_rawLines]
    exact .tail lines opened

end Writing

section Thinning

theorem thinned_plain (thin full : List Text) (thinned : Thinned Text.isBlankLine thin full) :
    Thinned Kind.isPlain ((rawLines thin).map kind) ((rawLines full).map kind) := by
  induction thinned with
  | nil => exact .nil
  | keep line _ ih => exact .keep _ ih
  | drop line _ _ ih => exact .drop _ rfl ih

theorem thinned_raw_append (lines : List Text) (thin full : List Kind)
    (thinned : Thinned Kind.isPlain thin full) :
    Thinned Kind.isPlain thin ((rawLines lines).map kind ++ full) := by
  induction lines with
  | nil => exact thinned
  | cons line lines ih => exact .drop _ rfl ih

theorem upTo_thinned (isLast : Text → Bool) (seen : ∀ line, isLast line = true →
    Text.isBlankLine line = false) (thin full : List Text) (whole : UpTo isLast full)
    (thinned : Thinned Text.isBlankLine thin full) : UpTo isLast thin := by
  obtain ⟨init, last, rfl, ends, free⟩ := whole
  obtain ⟨before, after, rfl, front, back⟩ := thinned.append_inv
  obtain ⟨none, rfl, nothing⟩ := back.cons_inv last (seen last ends)
  cases nothing
  exact ⟨before, last, rfl, ends, fun line member => free line (front.sublist.subset member)⟩

theorem documents_thinned (thin full : List Text) (documents : Documents full)
    (thinned : Thinned Text.isBlankLine thin full) : Documents thin := by
  obtain ⟨⟨first, later, rfl, starts⟩, whole⟩ := documents
  refine ⟨?_, upTo_thinned endsDoc visible_of_endsDoc thin _ whole thinned⟩
  obtain ⟨rest, rfl, _⟩ := thinned.cons_inv first (visible_of_startsDoc first starts)
  exact ⟨first, rest, rfl, starts⟩

theorem above_thinned (thin full : List Text) (above : Above full)
    (thinned : Thinned Text.isBlankLine thin full) : Above thin := by
  rcases above with rfl | documents
  · cases thinned
    exact Or.inl rfl
  · exact Or.inr (documents_thinned thin full documents thinned)

theorem open_thinned (thin full : List Text) (unended : Open full)
    (thinned : Thinned Text.isBlankLine thin full) : Open thin := by
  cases unended with
  | comment first later starts free =>
    have inside := thinned.sublist.subset
    obtain ⟨rest, rfl, _⟩ := thinned.cons_inv first (visible_of_startsDoc first starts)
    exact .comment first rest starts fun line member => free line (inside member)
  | body doc head below key above opened free =>
    obtain ⟨before, after, rfl, front, back⟩ := thinned.append_inv
    obtain ⟨rest, rfl, later⟩ := back.cons_inv head (visible_of_member _ head key opened)
    exact .body before head rest key (above_thinned before doc above front) opened
      fun line member => free line (later.sublist.subset member)

-- A body that ends takes the documentation above its head; one that does not end is all lines.
theorem thinned_implementation (doc below : List Text) (head : Text) (key : MemberKey)
    (documents : Documents doc) (opened : implementationKey? head = some key) :
    Thinned Kind.isPlain ((ofLines (doc ++ head :: below)).map kind)
      ((rawLines doc).map kind ++ (ofLines (head :: below)).map kind) := by
  cases cut : through? isBodyEnd below with
  | some found =>
    obtain ⟨body, after⟩ := found
    obtain ⟨rfl, whole⟩ := through_inv below body after cut
    have bare := ofLines_implementation [] body after head key (Or.inl rfl) opened whole
    rw [ofLines_implementation doc body after head key (Or.inr documents) opened whole,
      ← List.nil_append (head :: (body ++ after)), bare]
    exact thinned_raw_append doc _ _ (.refl _)
  | none =>
    have free := (through_eq_none_iff below).mp cut
    have whole := ofLines_open _ (.body doc head below key (Or.inr documents) opened free)
    have bare := ofLines_open _ (.body [] head below key (Or.inl rfl) opened free)
    rw [List.nil_append] at bare
    rw [whole, bare, ← List.map_append, rawLines, rawLines, rawLines, ← List.map_append]
    exact .refl _

-- Documentation that comes to stand above a member is no longer lines of its own.
theorem thinned_attached (doc rest : List Text) (documents : Documents doc) :
    Thinned Kind.isPlain ((ofLines (doc ++ rest)).map kind)
      ((rawLines doc).map kind ++ (ofLines rest).map kind) := by
  cases rest with
  | nil =>
    rw [List.append_nil, ofLines_documents doc documents, ofLines, List.map_nil, List.append_nil]
    exact .refl _
  | cons head below =>
    cases signed : signatureKey? head with
    | some key =>
      have bare := ofLines_signature [] below head key (Or.inl rfl) signed
      rw [ofLines_signature doc below head key (Or.inr documents) signed,
        ← List.nil_append (head :: below), bare]
      exact thinned_raw_append doc _ _ (.refl _)
    | none =>
      cases marked : markerKey? head with
      | some key =>
        have bare := ofLines_marker [] below head key (Or.inl rfl) marked
        rw [ofLines_marker doc below head key (Or.inr documents) marked,
          ← List.nil_append (head :: below), bare]
        exact thinned_raw_append doc _ _ (.refl _)
      | none =>
        cases opened : implementationKey? head with
        | some key => exact thinned_implementation doc below head key documents opened
        | none =>
          have other := (not_isHead head).mpr ⟨signed, marked, opened⟩
          rw [ofLines_comment doc below head documents other, List.map_append]
          exact .refl _

-- Lines less some blank ones are read as the same items with fewer lines between them.
theorem thinned_kinds (thin full : List Text) (items : List Item) (reads : Reads full items)
    (thinned : Thinned Text.isBlankLine thin full) :
    Thinned Kind.isPlain ((ofLines thin).map kind) (items.map kind) := by
  induction reads generalizing thin with
  | nil =>
    cases thinned
    rw [ofLines]
    exact .nil
  | comment doc documents _ ih =>
    obtain ⟨before, after, rfl, front, back⟩ := thinned.append_inv
    have attached := thinned_attached before after (documents_thinned before doc documents front)
    rw [List.map_append]
    exact attached.trans ((thinned_plain before doc front).append (ih after back))
  | line text undocumented other _ ih =>
    cases thinned with
    | keep _ later =>
      rw [ofLines_line text _ undocumented other]
      exact .keep _ (ih _ later)
    | drop _ _ later => exact .drop _ rfl (ih _ later)
  | signature doc head key above signed _ ih =>
    obtain ⟨before, after, rfl, front, back⟩ := thinned.append_inv
    obtain ⟨rest, rfl, later⟩ := back.cons_inv head (visible_of_member _ head key signed)
    rw [ofLines_signature before rest head key (above_thinned before doc above front) signed]
    exact .keep _ (ih rest later)
  | implementation doc head body key above opened whole _ ih =>
    obtain ⟨before, after, rfl, front, back⟩ := thinned.append_inv
    obtain ⟨inner, rfl, later⟩ := back.cons_inv head (visible_of_member _ head key opened)
    obtain ⟨own, rest, rfl, inside, behind⟩ := later.append_inv
    have closed := upTo_thinned isBodyEnd visible_of_bodyEnd own body whole inside
    rw [ofLines_implementation before own rest head key (above_thinned before doc above front)
      opened closed]
    exact .keep _ (ih rest behind)
  | marker doc head key above marked _ ih =>
    obtain ⟨before, after, rfl, front, back⟩ := thinned.append_inv
    obtain ⟨rest, rfl, later⟩ := back.cons_inv head (visible_of_marker head key marked)
    rw [ofLines_marker before rest head key (above_thinned before doc above front) marked]
    exact .keep _ (ih rest later)
  | tail lines unended =>
    rw [ofLines_open thin (open_thinned thin lines unended thinned)]
    exact thinned_plain thin lines thinned

end Thinning

end Item

end HeaderBindings
