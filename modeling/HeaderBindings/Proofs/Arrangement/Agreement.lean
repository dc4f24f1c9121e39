import HeaderBindings.Proofs.Arrangement.Filling
import HeaderBindings.Proofs.Script.Writing

/-!
Putting a generated module in order. No line of it is left out and no member of it moves, so that
only its marks change, and a second run finds nothing to change.
-/

namespace HeaderBindings

open Item

section Kinds

/-- The kind of an item before or after marks are filled in. -/
def Item.kindAfter (fills : Bool) (item : Item) : Kind :=
  kind (if fills then filled item else item)

@[simp] theorem Item.kindAfter_plain (fills : Bool) (text : Text) :
    kindAfter fills (plain text) = .plain := by cases fills <;> rfl

@[simp] theorem Item.kindAfter_signature (fills : Bool) (key : MemberKey) (lines : List Text) :
    kindAfter fills (signature key lines) = .signature key := by cases fills <;> rfl

@[simp] theorem Item.kindAfter_implementation (fills : Bool) (key : MemberKey) (lines : List Text) :
    kindAfter fills (implementation key lines) = .implementation key := by cases fills <;> rfl

theorem Item.kindAfter_marker (fills : Bool) (key : MemberKey) (doc : List Text) :
    kindAfter fills (marker key doc) = if fills then .implementation key else .marker key := by
  cases fills <;> rfl

theorem Item.gathered_unsigned (key : MemberKey) (kinds : List Kind)
    (unsigned : .signature key ∉ kinds) (implemented : .implementation key ∈ kinds) :
    Gathered key kinds := by
  obtain ⟨above, below, rfl, fresh⟩ := List.eq_append_cons_of_mem implemented
  refine ⟨above, 0, below, by simp, ?_, fresh⟩
  simpa using unsigned

end Kinds

namespace ScriptMember

section Splitting

/-- The key that the implementation of a member is read with. -/
def bound? : ScriptMember → Option MemberKey
  | function _ head _ => some head.key
  | overloaded dispatch => some dispatch.key
  | _ => none

/-- Whether an item is a line, or one of some members. -/
def Among (members : List ScriptMember) (item : Item) : Prop :=
  (∃ text, item = plain text) ∨ ∃ member ∈ members, item ∈ member.items

theorem among_rawLines (members : List ScriptMember) (lines : List Text) :
    ∀ item ∈ rawLines lines, Among members item := by
  intro item member
  obtain ⟨text, _, rfl⟩ := List.mem_map.mp member
  exact Or.inl ⟨text, rfl⟩

theorem allItems_cons (member : ScriptMember) (later : List ScriptMember) (more : later ≠ []) :
    allItems (member :: later) = member.items ++ plain [] :: allItems later := by
  cases later with
  | nil => exact absurd rfl more
  | cons next later => rfl

theorem among_allItems (members : List ScriptMember) :
    ∀ item ∈ allItems members, Among members item := by
  intro item inside
  induction members using allLines.induct with
  | case1 => cases inside
  | case2 member => exact Or.inr ⟨member, List.mem_cons_self, inside⟩
  | case3 member next later ih =>
    rcases List.mem_append.mp inside with here | rest
    · exact Or.inr ⟨member, List.mem_cons_self, here⟩
    · rcases List.mem_cons.mp rest with rfl | below
      · exact Or.inl ⟨[], rfl⟩
      · rcases ih below with blank | ⟨other, own, here⟩
        · exact Or.inl blank
        · exact Or.inr ⟨other, List.mem_cons_of_mem member own, here⟩

-- The items of one member stand together, between those of the members before and after it.
theorem allItems_split (before after : List ScriptMember) (member : ScriptMember) :
    ∃ above below, allItems (before ++ member :: after) = above ++ (member.items ++ below) ∧
      (∀ item ∈ above, Among before item) ∧ ∀ item ∈ below, Among after item := by
  induction before with
  | nil =>
    have none : ∀ item ∈ ([] : List Item), Among [] item := List.forall_mem_nil _
    cases after with
    | nil => exact ⟨[], [], by simp [allItems], none, none⟩
    | cons next later =>
      exact ⟨[], _, allItems_cons member _ (List.cons_ne_nil next later), none,
        List.forall_mem_cons.mpr ⟨Or.inl ⟨[], rfl⟩, among_allItems _⟩⟩
  | cons first before ih =>
    obtain ⟨above, below, split, front, back⟩ := ih
    refine ⟨first.items ++ plain [] :: above, below, ?_, ?_, back⟩
    · rw [List.cons_append, allItems_cons first _ (by simp), split]
      simp
    · have own : ∀ item ∈ first.items, Among (first :: before) item :=
        fun item inside => Or.inr ⟨first, List.mem_cons_self, inside⟩
      refine List.forall_mem_append.mpr ⟨own, List.forall_mem_cons.mpr ⟨Or.inl ⟨[], rfl⟩, ?_⟩⟩
      intro item inside
      rcases front item inside with blank | ⟨other, known, here⟩
      · exact Or.inl blank
      · exact Or.inr ⟨other, List.mem_cons_of_mem first known, here⟩

/-- The items of members between lines above and below them. -/
def framed (front : List Text) (members : List ScriptMember) (back : List Text) : List Item :=
  rawLines front ++ (allItems members ++ rawLines back)

variable (front back : List Text)

theorem among_framed (members : List ScriptMember) :
    ∀ item ∈ framed front members back, Among members item :=
  List.forall_mem_append.mpr ⟨among_rawLines members front,
    List.forall_mem_append.mpr ⟨among_allItems members, among_rawLines members back⟩⟩

theorem framed_split (before after : List ScriptMember) (member : ScriptMember) :
    ∃ above below, framed front (before ++ member :: after) back = above ++ (member.items ++ below) ∧
      (∀ item ∈ above, Among before item) ∧ ∀ item ∈ below, Among after item := by
  obtain ⟨above, below, split, first, last⟩ := allItems_split before after member
  refine ⟨rawLines front ++ above, below ++ rawLines back, ?_,
    List.forall_mem_append.mpr ⟨among_rawLines before front, first⟩,
    List.forall_mem_append.mpr ⟨last, among_rawLines after back⟩⟩
  simp only [framed, split, List.append_assoc]

end Splitting

section Gathering

/-- Members of which no two are implemented under one key, with the marks behind all others. -/
structure Orderly (members : List ScriptMember) : Prop where
  apart : (members.filterMap bound?).Nodup
  marksLast : members.Pairwise fun first second => first.isMark = true → second.isMark = true

theorem Orderly.unbound {before after : List ScriptMember} {member : ScriptMember} {key : MemberKey}
    (orderly : Orderly (before ++ member :: after)) (bound : member.bound? = some key) :
    ∀ other ∈ before ++ after, other.bound? ≠ some key := by
  intro other inside same
  have apart := orderly.apart
  rw [List.filterMap_append, List.filterMap_cons_some bound] at apart
  refine (List.nodup_cons.mp (List.nodup_middle.mp apart)).1 ?_
  rw [← List.filterMap_append]
  exact List.mem_filterMap.mpr ⟨other, inside, same⟩

theorem Orderly.unmarked {before after : List ScriptMember} {member : ScriptMember}
    (orderly : Orderly (before ++ member :: after)) (bound : member.isMark = false) :
    ∀ other ∈ before, other.isMark = false := by
  intro other inside
  rw [Bool.eq_false_iff]
  intro marked
  have last := (List.pairwise_append.mp orderly.marksLast).2.2 other inside member
  exact Bool.false_ne_true (bound ▸ last List.mem_cons_self marked)

theorem overloaded_of_among (members : List ScriptMember) (fills : Bool) (item : Item)
    (key : MemberKey) (among : Among members item)
    (signed : kindAfter fills item = .signature key) :
    ∃ dispatch, overloaded dispatch ∈ members ∧ dispatch.key = key := by
  rcases among with ⟨text, rfl⟩ | ⟨member, own, inside⟩
  · simp at signed
  · cases member with
    | getter | setter =>
      obtain ⟨text, _, rfl⟩ := List.mem_map.mp inside
      simp at signed
    | function doc head body =>
      rw [List.mem_singleton.mp inside] at signed
      simp at signed
    | overloaded dispatch =>
      rcases List.mem_append.mp inside with above | last
      · obtain ⟨overload, _, rfl⟩ := List.mem_map.mp above
        rw [kindAfter_signature, Kind.signature.injEq] at signed
        exact ⟨dispatch, own, signed⟩
      · rw [List.mem_singleton.mp last] at signed
        simp at signed
    | incomplete isStatic name =>
      rw [List.mem_singleton.mp inside, kindAfter_marker] at signed
      split at signed <;> cases signed

theorem bound_of_among (members : List ScriptMember) (fills : Bool) (item : Item)
    (key : MemberKey) (among : Among members item)
    (opened : kindAfter fills item = .implementation key) :
    ∃ member ∈ members, member.bound? = some key ∨ member.isMark = true := by
  rcases among with ⟨text, rfl⟩ | ⟨member, own, inside⟩
  · simp at opened
  · refine ⟨member, own, ?_⟩
    cases member with
    | getter | setter =>
      obtain ⟨text, _, rfl⟩ := List.mem_map.mp inside
      simp at opened
    | function doc head body =>
      rw [List.mem_singleton.mp inside, kindAfter_implementation,
        Kind.implementation.injEq] at opened
      exact Or.inl (congrArg some opened)
    | overloaded dispatch =>
      rcases List.mem_append.mp inside with above | last
      · obtain ⟨overload, _, rfl⟩ := List.mem_map.mp above
        simp at opened
      · rw [List.mem_singleton.mp last, kindAfter_implementation,
          Kind.implementation.injEq] at opened
        exact Or.inl (congrArg some opened)
    | incomplete isStatic name => exact Or.inr rfl

theorem kinds_overloaded (dispatch : Dispatch) (fills : Bool) :
    (overloaded dispatch).items.map (kindAfter fills) =
      List.replicate dispatch.overloads.length (.signature dispatch.key) ++
        [.implementation dispatch.key] := by
  rw [items, List.map_append, List.map_map, List.map_singleton, kindAfter_implementation]
  refine congrArg (· ++ _) ?_
  rw [← List.map_const']
  exact List.map_congr_left fun overload _ => kindAfter_signature fills _ _

/-- Among orderly members, the signatures of every implemented key stand above its first
implementation. -/
theorem gathered_framed (members : List ScriptMember) (orderly : Orderly members)
    (front back : List Text) (fills : Bool) (key : MemberKey)
    (implemented : .implementation key ∈ (framed front members back).map (kindAfter fills)) :
    Gathered key ((framed front members back).map (kindAfter fills)) := by
  by_cases signed : .signature key ∈ (framed front members back).map (kindAfter fills)
  · obtain ⟨item, inside, same⟩ := List.mem_map.mp signed
    obtain ⟨dispatch, own, rfl⟩ :=
      overloaded_of_among members fills item key (among_framed front back members item inside) same
    obtain ⟨before, after, rfl⟩ := List.append_of_mem own
    obtain ⟨above, below, split, ahead, behind⟩ :=
      framed_split front back before after (overloaded dispatch)
    have bound : (overloaded dispatch).bound? = some dispatch.key := rfl
    have unmarked := orderly.unmarked (show (overloaded dispatch).isMark = false from rfl)
    refine ⟨above.map (kindAfter fills), dispatch.overloads.length, below.map (kindAfter fills),
      ?_, ?_, ?_⟩
    · rw [split]
      simp only [List.map_append, kinds_overloaded, List.append_assoc, List.singleton_append]
    · rw [← List.map_append, List.mem_map]
      rintro ⟨other, here, signs⟩
      rcases List.mem_append.mp here with top | bottom
      · obtain ⟨twin, known, keyed⟩ :=
          overloaded_of_among before fills other _ (ahead other top) signs
        exact orderly.unbound bound _ (List.mem_append_left _ known) (congrArg some keyed)
      · obtain ⟨twin, known, keyed⟩ :=
          overloaded_of_among after fills other _ (behind other bottom) signs
        exact orderly.unbound bound _ (List.mem_append_right _ known) (congrArg some keyed)
    · rw [List.mem_map]
      rintro ⟨other, here, opened⟩
      obtain ⟨twin, known, keyed | marked⟩ :=
        bound_of_among before fills other _ (ahead other here) opened
      · exact orderly.unbound bound twin (List.mem_append_left _ known) keyed
      · exact Bool.false_ne_true (unmarked twin known ▸ marked)
  · exact gathered_unsigned key _ signed implemented

end Gathering

end ScriptMember

section Outer

/-- A kept line that stands outside the members. -/
structure Outer (line : Text) : Prop extends Kept line where
  undocumented : startsDoc line = false
  other : isHead line = false

theorem outer_of_text (line : Text) (outside : ∀ rest, line ≠ ' ' :: ' ' :: rest)
    (inner : line ≠ ['\x7d']) (whole : Text.OneLine line) (c : Char) (member : c ∈ line)
    (ink : isBlank c = false) : Outer line := by
  obtain ⟨⟨undocumented, other⟩, unmarked⟩ := not_special line (plain_of_outer line outside)
  exact ⟨⟨⟨Text.not_blankLine line c member ink, inner⟩, whole, unmarked⟩, undocumented, other⟩

theorem outer_of_head (line : Text) (c : Char) (head : line.head? = some c)
    (ink : isBlank c = false) (brace : c ≠ '\x7d') (whole : Text.OneLine line) : Outer line := by
  refine outer_of_text line ?_ ?_ whole c (List.mem_of_mem_head? head) ink
  · rintro rest rfl
    cases head
    exact absurd ink (by decide)
  · rintro rfl
    cases head
    exact brace rfl

theorem DocBlock.outer_shown (block : DocBlock) (fits : block.Fits) :
    ∀ line ∈ (block.lines 0).map ScriptLine.shown, Outer line := by
  have opened : Outer "/**".toList := outer_of_head _ '/' rfl (by decide) (by decide) (by decide)
  have starred (text : Text) (whole : Text.OneLine text) : Outer (' ' :: '*' :: text) := by
    refine outer_of_text _ (fun rest same => by cases same) (fun same => by cases same) ?_ '*'
      (by simp) (by decide)
    rw [Text.oneLine_cons, Text.oneLine_cons]
    exact ⟨by decide, by decide, whole⟩
  intro line member
  obtain ⟨own, inside, rfl⟩ := List.mem_map.mp member
  unfold lines at inside
  split at inside
  · cases inside
  · rcases List.mem_append.mp inside with front | last
    · rcases List.mem_append.mp front with first | entries
      · rw [List.mem_singleton.mp first]
        exact opened
      · obtain ⟨entry, given, rfl⟩ := List.mem_map.mp entries
        refine starred (' ' :: escape entry) ?_
        rw [Text.oneLine_cons]
        exact ⟨by decide, oneLine_escape entry (fits entry given)⟩
    · rw [List.mem_singleton.mp last]
      exact starred ['/'] (by decide)

theorem not_endsOpen (before : Text) : endsOpen (before ++ [';']) = false := by
  have ink : isBlank ';' = false := by decide
  simp [endsOpen, Text.trimEnd, ink]

end Outer

namespace ScriptModule

/-- A module whose members are orderly and whose texts hold no line break. -/
structure Fits (module : ScriptModule) : Prop where
  className : Text.OneLine module.className
  bridge : Text.OneLine module.bridge
  parent : ∀ name ∈ module.parent, Text.OneLine name
  doc : module.doc.Fits
  members : ∀ member ∈ module.members, member.Fits
  orderly : ScriptMember.Orderly module.members

section Lines

variable (module : ScriptModule)

/-- The lines of a module up to its imports. -/
def importLines : List Text :=
  ["// Generated by veneer from `".toList ++ module.className ++ "`. Do not edit.".toList,
   (importLine "NativeObject, allocate, invoke".toList module.bridge).text]
    ++ (module.parent.map fun parent => (importLine parent ("./".toList ++ parent)).text).toList

/-- The lines between the imports of a module and its members. -/
def classLines : List Text := (module.doc.lines 0).map ScriptLine.shown ++ [module.classLine.text]

/-- The lines of a module above its members. -/
def topLines : List Text := module.importLines ++ [] :: module.classLines

theorem shown_headLines :
    module.headLines.map ScriptLine.shown = module.importLines ++ [[]] := by
  rw [headLines, importLines]
  cases module.parent <;> rfl

theorem shown_lines : module.lines.map ScriptLine.shown = module.topLines ++
    ((ScriptMember.allLines module.members).map ScriptLine.shown ++ [['\x7d']]) := by
  have opening : module.classLine.shown = module.classLine.text := ScriptLine.shown_outer _
  have closing : ScriptLine.shown ⟨0, ['\x7d']⟩ = ['\x7d'] := rfl
  simp only [lines, List.map_append, List.map_cons, List.map_nil, shown_headLines, topLines,
    classLines, opening, closing, List.append_assoc, List.cons_append, List.nil_append]

variable (fits : module.Fits)

theorem oneLine_importLine (names source : Text) (namesFree : Text.OneLine names)
    (sourceFree : Text.OneLine source) : Text.OneLine (importLine names source).text := by
  unfold importLine
  simp only [Text.oneLine_append]
  exact ⟨⟨⟨⟨by decide, namesFree⟩, by decide⟩, sourceFree⟩, by decide⟩

theorem outer_importLine (names source : Text) (namesFree : Text.OneLine names)
    (sourceFree : Text.OneLine source) : Outer (importLine names source).text :=
  outer_of_head _ 'i' rfl (by decide) (by decide)
    (oneLine_importLine names source namesFree sourceFree)

theorem importLine_unopened (names source : Text) :
    endsOpen (importLine names source).text = false := by
  have ended : (importLine names source).text = ("import \x7b ".toList ++ names
      ++ " \x7d from \"".toList ++ source ++ ['"']) ++ [';'] := by
    rw [List.append_assoc _ ['"']]
    rfl
  rw [ended, not_endsOpen]

include fits in
theorem outer_importLines : ∀ line ∈ module.importLines, Outer line := by
  have first : Text.OneLine
      ("// Generated by veneer from `".toList ++ module.className ++ "`. Do not edit.".toList) := by
    simp only [Text.oneLine_append]
    exact ⟨⟨by decide, fits.className⟩, by decide⟩
  refine List.forall_mem_append.mpr ⟨List.forall_mem_cons.mpr
    ⟨outer_of_head _ '/' rfl (by decide) (by decide) first, List.forall_mem_singleton.mpr
      (outer_importLine _ _ (by decide) fits.bridge)⟩, fun line inside => ?_⟩
  obtain ⟨name, known, rfl⟩ := Option.map_eq_some_iff.mp (Option.mem_toList.mp inside)
  have free := fits.parent name known
  exact outer_importLine _ _ free ((Text.oneLine_append _ _).mpr ⟨by decide, free⟩)

theorem importLines_unopened : ∀ line ∈ module.importLines.getLast?, endsOpen line = false := by
  intro line last
  rw [importLines] at last
  cases known : module.parent with
  | none =>
    rw [known] at last
    cases last
    exact importLine_unopened _ _
  | some parent =>
    rw [known] at last
    cases last
    exact importLine_unopened _ _

include fits in
theorem outer_classLines : ∀ line ∈ module.classLines, Outer line := by
  have parent : Text.OneLine (module.parent.getD "NativeObject".toList) := by
    cases known : module.parent with
    | none => decide
    | some name => exact fits.parent name known
  have free : Text.OneLine module.classLine.text := by
    unfold classLine
    simp only [Text.oneLine_append]
    exact ⟨⟨⟨⟨by decide, fits.className⟩, by decide⟩, parent⟩, by decide⟩
  exact List.forall_mem_append.mpr ⟨module.doc.outer_shown fits.doc,
    List.forall_mem_singleton.mpr (outer_of_head _ 'e' rfl (by decide) (by decide) free)⟩

end Lines

section Reading

variable (module : ScriptModule) (fits : module.Fits)

include fits in
theorem outer_topLines : ∀ line ∈ module.topLines, (startsDoc line = false ∧ isHead line = false) ∧
    Text.OneLine line ∧ Text.after? markStart line = none := by
  have each (line : Text) (outer : Outer line) : (startsDoc line = false ∧ isHead line = false) ∧
      Text.OneLine line ∧ Text.after? markStart line = none :=
    ⟨⟨outer.undocumented, outer.other⟩, outer.whole, outer.unmarked⟩
  refine List.forall_mem_append.mpr ⟨fun line inside => ?_,
    List.forall_mem_cons.mpr ⟨⟨by decide, by decide, by decide⟩, fun line inside => ?_⟩⟩
  · exact each line (module.outer_importLines fits line inside)
  · exact each line (module.outer_classLines fits line inside)

include fits in
theorem oneLine_shown : ∀ line ∈ module.lines.map ScriptLine.shown, Text.OneLine line := by
  rw [shown_lines]
  exact List.forall_mem_append.mpr ⟨fun line inside => (module.outer_topLines fits line inside).2.1,
    List.forall_mem_append.mpr ⟨ScriptMember.oneLine_allLines module.members fits.members,
      List.forall_mem_singleton.mpr (by decide)⟩⟩

theorem source_eq : module.source = Text.unlines (module.lines.map ScriptLine.shown) :=
  write_eq module.lines

include fits in
theorem unreturned_source : '\r' ∉ module.source := by
  rw [source_eq, Text.unlines, List.mem_flatMap]
  rintro ⟨line, inside, here⟩
  rcases List.mem_append.mp here with own | feed
  · exact (module.oneLine_shown fits line inside).2 own
  · exact absurd (List.mem_singleton.mp feed) (by decide)

include fits in
theorem lines_source : module.source.lines = module.lines.map ScriptLine.shown := by
  have plain := Text.plainFeeds_of_free _ (module.unreturned_source fits)
  rw [source_eq] at plain ⊢
  refine Text.lines_unlines_plain _ (fun line inside => ?_) plain
  exact (module.oneLine_shown fits line inside).1

/-- The items that the lines of a module are read as. -/
def items : List Item := ScriptMember.framed module.topLines module.members [['\x7d']]

/-- The lines of a module with its marks filled in. -/
def filledLines : List Text :=
  module.topLines ++ (ScriptMember.allFilledLines module.members ++ [['\x7d']])

include fits in
theorem ofLines_source : ofLines module.source.lines = module.items := by
  have closing : ofLines [['\x7d']] = rawLines [['\x7d']] := by
    rw [ofLines_line _ _ (by decide) (by decide), ofLines]
    rfl
  rw [module.lines_source fits, shown_lines,
    ofLines_rawLines _ _ fun line inside => (module.outer_topLines fits line inside).1,
    ScriptMember.ofLines_allLines _ fits.members, closing, items, ScriptMember.framed]

include fits in
theorem flatMap_fillLine_source : module.source.lines.flatMap fillLine = module.filledLines := by
  rw [module.lines_source fits, shown_lines, List.flatMap_append, List.flatMap_append,
    flatMap_fillLine _ fun line inside => (module.outer_topLines fits line inside).2.2]
  rfl

include fits in
theorem filling_items : module.items.flatMap filling = module.filledLines := by
  rw [items, ScriptMember.framed, List.flatMap_append, List.flatMap_append, filling_rawLines,
    filling_rawLines,
    ScriptMember.filling_allItems _ fits.members, filledLines]

include fits in
theorem neat_filledLines : Neat module.filledLines := by
  have solid : ∀ line ∈ module.classLines, Solid line :=
    fun line inside => (module.outer_classLines fits line inside).toSolid
  have written : module.classLines ≠ [] := by simp [classLines]
  have below := neat_append module.classLines _ solid
    (neat_allFilledLines module.members fits.members)
    (visible_allFilledLines module.members fits.members)
  rw [filledLines, topLines, List.append_assoc, List.cons_append]
  refine neat_gap module.importLines _
    (fun line inside => (module.outer_importLines fits line inside).toSolid)
    module.importLines_unopened below fun line head => solid line ?_
  rw [List.head?_append_of_ne_nil _ written] at head
  exact List.mem_of_mem_head? head

include fits in
theorem moved_items : moved module.items [] module.items = module.items := by
  refine moved_of_gathered _ fun key implemented => ?_
  exact ScriptMember.gathered_framed module.members fits.orderly _ _ false key
    ((any_implements_iff key _).mp implemented)

include fits in
theorem tidy_arrange_source :
    tidy (arrange (ofLines module.source.lines)) = module.filledLines := by
  rw [module.ofLines_source fits, arrange_eq, module.moved_items fits, module.filling_items fits,
    (module.neat_filledLines fits).tidy_eq]

include fits in
theorem reflow_source : reflow module.source = Text.unlines module.filledLines := by
  have ended : Text.ending module.source = ['\n'] := by
    rw [source_eq, shown_lines, Text.unlines, List.flatMap_append, List.flatMap_append]
    simp [Text.ending, List.getLast?_append]
  rw [reflow_eq, module.tidy_arrange_source fits, ended]
  cases written : module.filledLines with
  | nil => simp [filledLines] at written
  | cons first later => exact Text.join_feed first later

include fits in
/-- A second run finds the marks filled in, the lines tidy and the signatures in their places. -/
theorem reflow_reflow_source : reflow (reflow module.source) = reflow module.source := by
  have plain := plainFeeds_reflow module.source (module.unreturned_source fits)
  have read : (reflow module.source).lines = module.filledLines := by
    have free := feed_of_tidy module.source
    rw [module.tidy_arrange_source fits] at free
    rw [module.reflow_source fits] at plain ⊢
    exact Text.lines_unlines_plain _ free plain
  have unmarked := unmarked_lines_reflow module.source plain
  refine (reflow_eq_self_iff _).mpr ⟨plain, (tidy_arrange_iff _ unmarked).mpr ⟨?_, ?_⟩⟩
  · rw [read, (module.neat_filledLines fits).tidy_eq]
  · intro key opened
    have kinds := kinds_lines_reflow module.source plain
    rw [module.ofLines_source fits, module.moved_items fits, List.map_map] at kinds
    refine gathered_thinned key _ _ ?_ kinds
    refine ScriptMember.gathered_framed module.members fits.orderly _ _ true key ?_
    exact (kinds.mem_iff_of_kept _ rfl).mp ((any_implements_iff key _).mp opened)

end Reading

end ScriptModule

section Classes

/-- The side and the name that the member of a group is written with. -/
def OverloadGroup.emittedKey (group : OverloadGroup) : MemberKey :=
  ⟨group.emitsStatic, Identifier.sanitize group.base⟩

theorem OverloadGroup.bound_member (className : Text) (group : OverloadGroup) :
    (group.member className).bound? = some group.emittedKey ∧
      (group.member className).isMark = false := by
  unfold member
  split <;> exact ⟨rfl, rfl⟩

theorem Property.unbound_members (className : Text) (property : Property) :
    ∀ member ∈ property.members className, member.bound? = none ∧ member.isMark = false := by
  intro member inside
  unfold members at inside
  dsimp only at inside
  split at inside
  · cases inside
  · split at inside
    · rw [List.mem_singleton.mp inside]
      exact ⟨rfl, rfl⟩
    · rcases List.mem_cons.mp inside with rfl | last
      · exact ⟨rfl, rfl⟩
      · rw [List.mem_singleton.mp last]
        exact ⟨rfl, rfl⟩

namespace ClassDecl

theorem orderly_scriptMembers (decl : ClassDecl)
    (apart : ((MemberPlan.ofClass decl).groups.map OverloadGroup.emittedKey).Nodup) :
    ScriptMember.Orderly decl.scriptMembers := by
  have properties : ∀ member ∈ decl.properties.flatMap (·.members decl.name),
      member.bound? = none ∧ member.isMark = false := by
    intro member inside
    obtain ⟨property, _, here⟩ := List.mem_flatMap.mp inside
    exact property.unbound_members decl.name member here
  have setters : ∀ member ∈ (MemberPlan.ofClass decl).setters.map SetterAccessor.member,
      member.bound? = none ∧ member.isMark = false := by
    intro member inside
    obtain ⟨setter, _, rfl⟩ := List.mem_map.mp inside
    exact ⟨rfl, rfl⟩
  have groups : ((MemberPlan.ofClass decl).groups.map (OverloadGroup.member decl.name)).filterMap
      ScriptMember.bound? = (MemberPlan.ofClass decl).groups.map OverloadGroup.emittedKey := by
    rw [List.filterMap_map, ← List.filterMap_eq_map]
    exact List.filterMap_congr fun group _ => (group.bound_member decl.name).1
  have marks : ∀ member ∈ (MemberPlan.ofClass decl).incomplete.map fun entry =>
      ScriptMember.incomplete entry.method.isStatic (Identifier.sanitize entry.method.baseName),
      member.bound? = none ∧ member.isMark = true := by
    intro member inside
    obtain ⟨entry, _, rfl⟩ := List.mem_map.mp inside
    exact ⟨rfl, rfl⟩
  constructor
  · rw [scriptMembers, MemberPlan.members, List.filterMap_append, List.filterMap_append,
      List.filterMap_append, groups,
      List.filterMap_eq_nil_iff.mpr fun member inside => (properties member inside).1,
      List.filterMap_eq_nil_iff.mpr fun member inside => (setters member inside).1,
      List.filterMap_eq_nil_iff.mpr fun member inside => (marks member inside).1]
    simpa using apart
  · have bound : ∀ member ∈ decl.properties.flatMap (·.members decl.name) ++
        ((MemberPlan.ofClass decl).setters.map SetterAccessor.member ++
          (MemberPlan.ofClass decl).groups.map (OverloadGroup.member decl.name)),
        member.isMark = false := by
      refine List.forall_mem_append.mpr ⟨fun member inside => (properties member inside).2,
        List.forall_mem_append.mpr ⟨fun member inside => (setters member inside).2, ?_⟩⟩
      intro member inside
      obtain ⟨group, _, rfl⟩ := List.mem_map.mp inside
      exact (group.bound_member decl.name).2
    rw [scriptMembers, MemberPlan.members, ← List.append_assoc, List.pairwise_append]
    refine ⟨List.pairwise_of_forall_mem_list fun first inside second _ marked => ?_,
      List.pairwise_of_forall_mem_list fun first _ second inside _ => (marks second inside).2,
      fun first inside second _ marked => ?_⟩
    · exact absurd (bound first inside ▸ marked) Bool.false_ne_true
    · exact absurd (bound first inside ▸ marked) Bool.false_ne_true

theorem fits_scriptModule (decl : ClassDecl) (unbroken : decl.Unbroken)
    (apart : ((MemberPlan.ofClass decl).groups.map OverloadGroup.emittedKey).Nodup)
    (bridge : Text) (whole : Text.OneLine bridge) (classes : ClassSet) :
    (decl.scriptModule bridge classes).Fits where
  className := Text.oneLine_identifier _ unbroken.named.name
  bridge := whole
  parent := by
    intro name known
    have given := (Option.filter_eq_some_iff.mp (Option.filter_eq_some_iff.mp known).1).1
    exact Text.oneLine_identifier _ (unbroken.superclass name given)
  doc := decl.fits_docBlock unbroken
  members := decl.fits_scriptMembers unbroken
  orderly := decl.orderly_scriptMembers apart

/-- Putting the module of a class in order fills in the marks in it and changes no other line, and
doing so again changes nothing. -/
theorem reflow_fills_marks (decl : ClassDecl) (unbroken : decl.Unbroken)
    (apart : ((MemberPlan.ofClass decl).groups.map OverloadGroup.emittedKey).Nodup)
    (bridge : Text) (whole : Text.OneLine bridge) (classes : ClassSet) :
    (GeneratedFile.ofClass bridge classes decl).source =
        Text.unlines (GeneratedFile.ofClass bridge classes decl).source.lines ∧
      reflow (GeneratedFile.ofClass bridge classes decl).source =
        Text.unlines ((GeneratedFile.ofClass bridge classes decl).source.lines.flatMap fillLine) ∧
      reflow (reflow (GeneratedFile.ofClass bridge classes decl).source) =
        reflow (GeneratedFile.ofClass bridge classes decl).source := by
  have fits := decl.fits_scriptModule unbroken apart bridge whole classes
  rw [GeneratedFile.source_ofClass]
  refine ⟨?_, ?_, ScriptModule.reflow_reflow_source _ fits⟩
  · rw [ScriptModule.lines_source _ fits, ScriptModule.source_eq]
  · rw [ScriptModule.flatMap_fillLine_source _ fits]
    exact ScriptModule.reflow_source _ fits

end ClassDecl

/-- A class with a property, an overloaded method and a method whose parameters are missing. -/
def panel : ClassDecl where
  name := "Panel".toList
  superclass := some "View".toList
  doc := "A panel. */".toList
  properties := [{ name := "size".toList, type := "CGFloat".toList, doc := "Its size.".toList }]
  methods := [
    { selector := "stopAt:".toList, returnType := "void".toList, isStatic := true },
    { selector := "move:".toList, params := [{ name := "x".toList, type := "CGFloat".toList }],
      returnType := "void".toList, isStatic := false },
    { selector := "move:to:".toList,
      params := [{ name := "x".toList, type := "CGFloat".toList },
        { name := "y".toList, type := "CGFloat".toList, doc := "Where to.".toList }],
      returnType := "void".toList, isStatic := false }]

theorem unbroken_panel : panel.Unbroken := by
  have methods : ∀ method ∈ panel.methods, (Reading.isIdentifier method.baseName = true ∧
      method.selector.all (fun c => Token.isNameChar c || c == ':') = true ∧
      ∀ param ∈ method.params, param.name = [] ∨ Reading.isIdentifier param.name = true) ∧
      Text.OneLine method.doc ∧ Text.OneLine method.returnDoc ∧
      (∀ param ∈ method.params, Text.OneLine param.doc) ∧
      ∀ text ∈ method.availability, Text.OneLine text := by
    decide
  refine ⟨⟨by decide, fun method own => ?_⟩, by decide, by decide, by decide,
    fun property own => ?_, fun method own => ?_⟩
  · obtain ⟨⟨base, selector, params⟩, _⟩ := methods method own
    exact ⟨base, by simpa using selector, params⟩
  · rw [List.mem_singleton.mp own]
    exact ⟨by decide, by decide, by decide, by decide, by decide⟩
  · obtain ⟨_, doc, returnDoc, params, availability⟩ := methods method own
    exact ⟨doc, returnDoc, params, availability⟩

theorem reflow_fills_marks_panel :
    panel.Unbroken ∧ ((MemberPlan.ofClass panel).groups.map OverloadGroup.emittedKey).Nodup ∧
      Text.OneLine ScriptModule.defaultBridge ∧
      markLine ⟨true, "stopAt".toList⟩ ∈
        (GeneratedFile.ofClass ScriptModule.defaultBridge ClassSet.empty panel).source.lines ∧
      (GeneratedFile.ofClass ScriptModule.defaultBridge ClassSet.empty panel).source =
        Text.unlines
          (GeneratedFile.ofClass ScriptModule.defaultBridge ClassSet.empty panel).source.lines ∧
      reflow (GeneratedFile.ofClass ScriptModule.defaultBridge ClassSet.empty panel).source =
        Text.unlines ((GeneratedFile.ofClass ScriptModule.defaultBridge ClassSet.empty
          panel).source.lines.flatMap fillLine) ∧
      reflow (reflow
          (GeneratedFile.ofClass ScriptModule.defaultBridge ClassSet.empty panel).source) =
        reflow (GeneratedFile.ofClass ScriptModule.defaultBridge ClassSet.empty panel).source := by
  have apart : ((MemberPlan.ofClass panel).groups.map OverloadGroup.emittedKey).Nodup := by decide
  have whole : Text.OneLine ScriptModule.defaultBridge := by decide
  have marked : markLine ⟨true, "stopAt".toList⟩ ∈
      (GeneratedFile.ofClass ScriptModule.defaultBridge ClassSet.empty panel).source.lines := by
    rw [GeneratedFile.source_ofClass, ScriptModule.lines_source _
      (panel.fits_scriptModule unbroken_panel apart ScriptModule.defaultBridge whole ClassSet.empty)]
    decide +kernel
  exact ⟨unbroken_panel, apart, whole, marked,
    panel.reflow_fills_marks unbroken_panel apart ScriptModule.defaultBridge whole ClassSet.empty⟩

end Classes

end HeaderBindings
