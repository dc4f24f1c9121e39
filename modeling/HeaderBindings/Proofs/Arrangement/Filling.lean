import HeaderBindings.Proofs.Arrangement.Emission

/-!
The lines of generated members with their marks filled in: a member that throws in the place of
each. The members' items are written as these lines, and tidying leaves them as they are.
-/

namespace HeaderBindings

open Item

section Filling

/-- The member that the end of a mark names. -/
def markedKey (text : Text) : MemberKey :=
  match Text.after? "static ".toList text with
  | some name => ⟨true, name⟩
  | none => ⟨false, text⟩

/-- A line, or the lines of the member that stands in for it if it is a mark. -/
def fillLine (line : Text) : List Text :=
  match Text.after? markStart line with
  | some rest => stub (markedKey rest)
  | none => [line]

theorem markedKey_append (key : MemberKey) (named : isName key.name = true) :
    markedKey (staticPart key.isStatic ++ key.name) = key := by
  obtain ⟨isStatic, name⟩ := key
  cases isStatic with
  | true =>
    have static : Text.after? "static ".toList (staticPart true ++ name) = some name :=
      (Text.after_eq_some_iff _ _ _).mpr rfl
    rw [markedKey, static]
  | false =>
    have plain := after_static name [] named fun c head => nomatch head
    rw [List.append_nil] at plain
    rw [markedKey, staticPart, if_neg Bool.false_ne_true, List.nil_append, plain]

theorem fillLine_markLine (key : MemberKey) (named : isName key.name = true) :
    fillLine (markLine key) = stub key := by
  have start : Text.after? markStart (markLine key) =
      some (staticPart key.isStatic ++ key.name) := (Text.after_eq_some_iff _ _ _).mpr rfl
  rw [fillLine, start]
  exact congrArg stub (markedKey_append key named)

theorem flatMap_fillLine (lines : List Text)
    (unmarked : ∀ line ∈ lines, Text.after? markStart line = none) :
    lines.flatMap fillLine = lines := by
  refine (List.flatMap_congr (g := fun line => [line]) fun line member => ?_).trans
    (List.flatMap_singleton' lines)
  rw [fillLine, unmarked line member]

theorem solid_stub (key : MemberKey) (named : isName key.name = true) :
    ∀ line ∈ stub key, Solid line := by
  have head : Solid (stubHead key) :=
    ⟨visible_of_member _ _ key (implementationKey_stubHead key named), fun same => by cases same⟩
  rw [stub_eq]
  refine List.forall_mem_cons.mpr ⟨head, List.forall_mem_cons.mpr
    ⟨⟨?_, fun same => by cases same⟩, List.forall_mem_singleton.mpr kept_bodyEnd.toSolid⟩⟩
  refine Text.not_blankLine _ 't' ?_ (by decide)
  exact List.mem_append_left _ (List.mem_append_left _ (by decide))

end Filling

namespace ScriptMember

section Lines

def isMark : ScriptMember → Bool
  | incomplete .. => true
  | _ => false

theorem kept_block (doc : DocBlock) (head : Text) (body : Statement) (documented : doc.Fits)
    (opened : Kept (' ' :: ' ' :: (head ++ " \x7b".toList))) (free : Text.OneLine body.text) :
    ∀ line ∈ (block doc head body).map ScriptLine.shown, Kept line := by
  rw [shown_block]
  exact List.forall_mem_append.mpr ⟨doc.kept_shown documented, List.forall_mem_cons.mpr ⟨opened,
    List.forall_mem_cons.mpr ⟨(deep_statement body free).toKept,
      List.forall_mem_singleton.mpr kept_bodyEnd⟩⟩⟩

theorem kept_overloaded (dispatch : Dispatch) (fits : dispatch.Fits) :
    ∀ line ∈ dispatch.lines.map ScriptLine.shown, Kept line := by
  rw [Dispatch.lines, List.map_append, shown_implementationLines]
  refine List.forall_mem_append.mpr ⟨fun line member => ?_, List.forall_mem_cons.mpr
    ⟨dispatch.kept_head fits, List.forall_mem_append.mpr
      ⟨fun line member => (dispatch.deep_bodyLines fits line member).toKept,
        List.forall_mem_singleton.mpr kept_bodyEnd⟩⟩⟩
  rw [List.map_flatMap, List.mem_flatMap] at member
  obtain ⟨overload, known, inside⟩ := member
  obtain ⟨doc, signed, _⟩ := (fits.overloads overload known).1
  rw [shown_signatureLines] at inside
  rcases List.mem_append.mp inside with documented | last
  · exact overload.doc.kept_shown doc line documented
  · rw [List.mem_singleton.mp last]
    exact overload.signature.kept_text signed [';'] (by decide)

theorem kept_lines (member : ScriptMember) (fits : member.Fits) (bound : member.isMark = false) :
    ∀ line ∈ member.lines.map ScriptLine.shown, Kept line := by
  cases member with
  | getter doc isStatic name type call =>
    obtain ⟨documented, nameFree, callFree⟩ := fits
    exact kept_block doc _ _ documented (opensAccessor_getter isStatic name type nameFree).kept
      (Statement.oneLine_giveBack call type callFree)
  | setter doc isStatic name type call =>
    obtain ⟨documented, nameFree, callFree⟩ := fits
    exact kept_block doc _ _ documented (opensAccessor_setter isStatic name type nameFree).kept
      (Statement.oneLine_perform call callFree)
  | function doc signature body =>
    obtain ⟨documented, signed, free⟩ := fits
    exact kept_block doc _ _ documented (signature.kept_text signed _ (by decide)) free
  | overloaded dispatch => exact kept_overloaded dispatch fits
  | incomplete isStatic name => cases bound

/-- A member is a mark, or all its lines are kept. -/
theorem kept_or_mark (member : ScriptMember) (fits : member.Fits) :
    (member.isMark = false ∧ ∀ line ∈ member.lines.map ScriptLine.shown, Kept line) ∨
      ∃ isStatic name, member = incomplete isStatic name ∧ Reading.isIdentifier name = true := by
  cases bound : member.isMark with
  | false => exact Or.inl ⟨rfl, member.kept_lines fits bound⟩
  | true =>
    cases member with
    | incomplete isStatic name => exact Or.inr ⟨isStatic, name, rfl, fits⟩
    | _ => cases bound

theorem oneLine_lines (member : ScriptMember) (fits : member.Fits) :
    ∀ line ∈ member.lines.map ScriptLine.shown, Text.OneLine line := by
  obtain ⟨_, kept⟩ | ⟨isStatic, name, rfl, identifier⟩ := member.kept_or_mark fits
  · exact fun line inside => (kept line inside).whole
  · rw [shown_incomplete, markLine, List.forall_mem_singleton]
    simp only [Text.oneLine_append]
    exact ⟨by decide, Text.oneLine_staticPart isStatic, Text.oneLine_identifier name identifier⟩

/-- The lines of a member with a mark filled in. -/
def filledLines (member : ScriptMember) : List Text :=
  (member.lines.map ScriptLine.shown).flatMap fillLine

theorem filledLines_of_kept (member : ScriptMember)
    (kept : ∀ line ∈ member.lines.map ScriptLine.shown, Kept line) :
    member.filledLines = member.lines.map ScriptLine.shown :=
  flatMap_fillLine _ fun line inside => (kept line inside).unmarked

theorem filledLines_incomplete (isStatic : Bool) (name : Text)
    (identifier : Reading.isIdentifier name = true) :
    (incomplete isStatic name).filledLines = stub ⟨isStatic, name⟩ := by
  rw [filledLines, shown_incomplete, List.flatMap_singleton,
    fillLine_markLine _ (isName_identifier name identifier)]

theorem solid_filledLines (member : ScriptMember) (fits : member.Fits) :
    ∀ line ∈ member.filledLines, Solid line := by
  obtain ⟨_, kept⟩ | ⟨isStatic, name, rfl, identifier⟩ := member.kept_or_mark fits
  · rw [member.filledLines_of_kept kept]
    exact fun line inside => (kept line inside).toSolid
  · rw [filledLines_incomplete isStatic name identifier]
    exact solid_stub _ (isName_identifier name identifier)

theorem getLast_lines (member : ScriptMember) (bound : member.isMark = false) :
    (member.lines.map ScriptLine.shown).getLast? = some bodyEnd := by
  have ended (doc : DocBlock) (head : Text) (body : Statement) :
      ((block doc head body).map ScriptLine.shown).getLast? = some bodyEnd := by
    simp [shown_block, List.getLast?_append]
  cases member with
  | getter doc isStatic name type call => exact ended _ _ _
  | setter doc isStatic name type call => exact ended _ _ _
  | function doc signature body => exact ended _ _ _
  | overloaded dispatch =>
    rw [lines, Dispatch.lines, List.map_append, shown_implementationLines, List.getLast?_append,
      List.getLast?_cons, List.getLast?_append]
    rfl
  | incomplete isStatic name => cases bound

theorem getLast_filledLines (member : ScriptMember) (fits : member.Fits) :
    member.filledLines.getLast? = some bodyEnd := by
  obtain ⟨bound, kept⟩ | ⟨isStatic, name, rfl, identifier⟩ := member.kept_or_mark fits
  · rw [member.filledLines_of_kept kept, member.getLast_lines bound]
  · rw [filledLines_incomplete isStatic name identifier]
    rfl

theorem filling_items_of_bound (member : ScriptMember) (bound : member.isMark = false) :
    member.items.flatMap filling = member.lines.map ScriptLine.shown := by
  cases member with
  | getter doc isStatic name type call => exact filling_rawLines _
  | setter doc isStatic name type call => exact filling_rawLines _
  | function doc signature body => simp [items, filling, original]
  | overloaded dispatch =>
    simp only [items, List.flatMap_append, List.flatMap_map, List.flatMap_singleton, filling,
      original, lines, Dispatch.lines, List.map_append, List.map_flatMap]
  | incomplete isStatic name => cases bound

/-- The items of a member are written as its lines, with a mark filled in. -/
theorem filling_items (member : ScriptMember) (fits : member.Fits) :
    member.items.flatMap filling = member.filledLines := by
  obtain ⟨bound, kept⟩ | ⟨isStatic, name, rfl, identifier⟩ := member.kept_or_mark fits
  · rw [member.filledLines_of_kept kept, member.filling_items_of_bound bound]
  · rw [filledLines_incomplete isStatic name identifier]
    simp [items, filling]

end Lines

section Sequences

/-- The items of members, with an empty line between any two. -/
def allItems : List ScriptMember → List Item
  | [] => []
  | [member] => member.items
  | member :: next :: later => member.items ++ plain [] :: allItems (next :: later)

/-- The lines of members, with an empty line between any two and marks filled in. -/
def allFilledLines (members : List ScriptMember) : List Text :=
  ((allLines members).map ScriptLine.shown).flatMap fillLine

theorem shown_allLines (member next : ScriptMember) (later : List ScriptMember) :
    (allLines (member :: next :: later)).map ScriptLine.shown =
      member.lines.map ScriptLine.shown ++
        [] :: (allLines (next :: later)).map ScriptLine.shown := by
  rw [allLines, List.map_append, List.map_append, List.append_assoc]
  rfl

theorem allFilledLines_cons (member next : ScriptMember) (later : List ScriptMember) :
    allFilledLines (member :: next :: later) =
      member.filledLines ++ [] :: allFilledLines (next :: later) := by
  rw [allFilledLines, shown_allLines, List.flatMap_append, List.flatMap_cons]
  rfl

variable (members : List ScriptMember) (fits : ∀ member ∈ members, member.Fits)

include fits in
theorem ofLines_allLines (below : List Text) :
    ofLines ((allLines members).map ScriptLine.shown ++ below) =
      allItems members ++ ofLines below := by
  induction members using allLines.induct with
  | case1 => rfl
  | case2 member => exact member.ofLines_lines (fits member List.mem_cons_self) below
  | case3 member next later ih =>
    have here := fits member List.mem_cons_self
    rw [shown_allLines, List.append_assoc, member.ofLines_lines here, List.cons_append,
      ofLines_line [] _ (by decide) (by decide),
      ih fun other inside => fits other (List.mem_cons_of_mem member inside), allItems,
      List.append_assoc, List.cons_append]

include fits in
theorem filling_allItems : (allItems members).flatMap filling = allFilledLines members := by
  induction members using allLines.induct with
  | case1 => rfl
  | case2 member => exact member.filling_items (fits member List.mem_cons_self)
  | case3 member next later ih =>
    rw [allItems, List.flatMap_append, member.filling_items (fits member List.mem_cons_self),
      List.flatMap_cons, ih fun other inside => fits other (List.mem_cons_of_mem member inside),
      allFilledLines_cons]
    rfl

include fits in
theorem oneLine_allLines : ∀ line ∈ (allLines members).map ScriptLine.shown, Text.OneLine line := by
  induction members using allLines.induct with
  | case1 => exact List.forall_mem_nil _
  | case2 member => exact member.oneLine_lines (fits member List.mem_cons_self)
  | case3 member next later ih =>
    rw [shown_allLines]
    exact List.forall_mem_append.mpr ⟨member.oneLine_lines (fits member List.mem_cons_self),
      List.forall_mem_cons.mpr ⟨Text.oneLine_nil,
        ih fun other inside => fits other (List.mem_cons_of_mem member inside)⟩⟩

theorem head_filledLines (member : ScriptMember) (fits : member.Fits) (below : List Text) :
    ∀ line ∈ (member.filledLines ++ below).head?, Solid line := by
  have written : member.filledLines ≠ [] := by
    intro empty
    have last := member.getLast_filledLines fits
    rw [empty] at last
    cases last
  rw [List.head?_append_of_ne_nil _ written]
  exact fun line head => member.solid_filledLines fits line (List.mem_of_mem_head? head)

theorem head_allFilledLines (member : ScriptMember) (later : List ScriptMember)
    (fits : member.Fits) (below : List Text) :
    ∀ line ∈ (allFilledLines (member :: later) ++ below).head?, Solid line := by
  cases later with
  | nil => exact head_filledLines member fits below
  | cons next later =>
    rw [allFilledLines_cons, List.append_assoc]
    exact head_filledLines member fits _

end Sequences

end ScriptMember

section Neatness

/-- Lines that tidying leaves as they are. -/
def Neat (lines : List Text) : Prop :=
  lines.IsChain fun line next => Follows line next ∧ StandsAbove line next

theorem Neat.tidy_eq {lines : List Text} (neat : Neat lines) : tidy lines = lines :=
  tidy_eq_self lines (neat.imp fun _ _ both => both.1) (neat.imp fun _ _ both => both.2)

theorem neat_append (block rest : List Text) (solid : ∀ line ∈ block, Solid line)
    (neat : Neat rest) (first : ∀ next ∈ rest.head?, Text.isBlankLine next = false) :
    Neat (block ++ rest) := by
  induction block with
  | nil => exact neat
  | cons line block ih =>
    have own := (solid line List.mem_cons_self).visible
    have later := fun next member => solid next (List.mem_cons_of_mem line member)
    refine List.isChain_cons.mpr ⟨fun next head => ?_, ih later⟩
    have visible : Text.isBlankLine next = false := by
      cases block with
      | nil => exact first next head
      | cons second block =>
        cases head
        exact (later next List.mem_cons_self).visible
    exact ⟨fun both => Bool.false_ne_true (visible ▸ both.2),
      fun both => Bool.false_ne_true (own ▸ both.1)⟩

-- An empty line stays below a line that opens nothing and above a solid one.
theorem neat_gap (block rest : List Text) (solid : ∀ line ∈ block, Solid line)
    (last : ∀ line ∈ block.getLast?, endsOpen line = false) (neat : Neat rest)
    (first : ∀ next ∈ rest.head?, Solid next) : Neat (block ++ [] :: rest) := by
  have whole := neat_append block [] solid .nil fun _ head => nomatch head
  rw [List.append_nil] at whole
  have below : Neat ([] :: rest) := by
    refine List.isChain_cons.mpr ⟨fun next head => ?_, neat⟩
    have kept := first next head
    exact ⟨fun both => Bool.false_ne_true (kept.visible ▸ both.2),
      fun both => kept.inner both.2⟩
  refine List.isChain_append.mpr ⟨whole, below, fun line ends next head => ?_⟩
  cases head
  exact ⟨fun both => Bool.false_ne_true (last line ends ▸ both.1), fun both => by cases both.2⟩

theorem visible_allFilledLines (members : List ScriptMember)
    (fits : ∀ member ∈ members, member.Fits) :
    ∀ line ∈ (ScriptMember.allFilledLines members ++ [['\x7d']]).head?,
      Text.isBlankLine line = false := by
  intro line head
  cases members with
  | nil =>
    cases head
    decide
  | cons member later =>
    have own := fits member List.mem_cons_self
    exact (ScriptMember.head_allFilledLines member later own _ line head).visible

/-- Members above the brace that closes the class are neat. -/
theorem neat_allFilledLines (members : List ScriptMember)
    (fits : ∀ member ∈ members, member.Fits) :
    Neat (ScriptMember.allFilledLines members ++ [['\x7d']]) := by
  have closed : Neat [['\x7d']] := .singleton _
  induction members using ScriptMember.allLines.induct with
  | case1 => exact closed
  | case2 member =>
    refine neat_append _ _ (member.solid_filledLines (fits member List.mem_cons_self)) closed ?_
    intro line head
    cases head
    decide
  | case3 member next later ih =>
    have here := fits member List.mem_cons_self
    have rest := fun other inside => fits other (List.mem_cons_of_mem member inside)
    rw [ScriptMember.allFilledLines_cons, List.append_assoc]
    refine neat_gap _ _ (member.solid_filledLines here) ?_ (ih rest)
      (ScriptMember.head_allFilledLines next later (rest next List.mem_cons_self) _)
    rw [member.getLast_filledLines here]
    intro line ends
    cases ends
    decide

end Neatness

end HeaderBindings
