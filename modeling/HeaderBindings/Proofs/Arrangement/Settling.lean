import HeaderBindings.Proofs.Arrangement.Rereading

/-!
When a second run changes nothing. A text that was put in order is left as it is exactly where it
is read as it was written, has no blank line above a closing brace, and has the signatures of every
mark, which is an implementation by then, directly above that implementation.
-/

namespace HeaderBindings

namespace Item

section Gathering

/-- All signatures of a member stand directly above its first implementation. -/
def Gathered (key : MemberKey) (kinds : List Kind) : Prop :=
  ∃ above count below,
    kinds = above ++ List.replicate count (.signature key) ++ .implementation key :: below ∧
      .signature key ∉ above ++ below ∧ .implementation key ∉ above

theorem split_run {α : Type} (x last : α) (below : List α) (other : x ∉ last :: below)
    (above : List α) (count : Nat) (apart : x ∉ above) (front back : List α)
    (split : above ++ List.replicate count x ++ last :: below = front ++ x :: back) :
    ∃ taken left, front = above ++ List.replicate taken x ∧
      back = List.replicate left x ++ last :: below := by
  induction above generalizing front with
  | nil =>
    induction count generalizing front with
    | zero =>
      refine absurd ?_ other
      rw [show last :: below = front ++ x :: back from split]
      simp
    | succ count ih =>
      cases front with
      | nil => exact ⟨0, count, rfl, (List.cons.inj split).2.symm⟩
      | cons first front =>
        obtain ⟨rfl, later⟩ := List.cons.inj split
        obtain ⟨taken, left, same, rest⟩ := ih front later
        refine ⟨taken + 1, left, ?_, rest⟩
        rw [same]
        rfl
  | cons first above ih =>
    rw [List.mem_cons, not_or] at apart
    cases front with
    | nil => exact absurd (List.cons.inj split).1.symm apart.1
    | cons head front =>
      obtain ⟨rfl, later⟩ := List.cons.inj split
      obtain ⟨taken, left, same, rest⟩ := ih apart.2 front later
      exact ⟨taken, left, by rw [same]; rfl, rest⟩

-- What follows a signature of a gathered member, and what it does not follow.
theorem gathered_signature (key : MemberKey) (front back : List Kind)
    (gathered : Gathered key (front ++ .signature key :: back)) :
    .implementation key ∉ front ∧ ∃ left below,
      back = List.replicate left (.signature key) ++ .implementation key :: below ∧
        .signature key ∉ below := by
  obtain ⟨above, count, below, split, unsigned, fresh⟩ := gathered
  rw [List.mem_append, not_or] at unsigned
  obtain ⟨taken, left, rfl, same⟩ := split_run (.signature key) (.implementation key) below
    (by simpa using unsigned.2) above count unsigned.1 front back split.symm
  refine ⟨?_, left, below, same, unsigned.2⟩
  rw [List.mem_append, not_or]
  exact ⟨fresh, fun member => by cases List.eq_of_mem_replicate member⟩

theorem gathered_thinned (key : MemberKey) (thin full : List Kind) (gathered : Gathered key full)
    (thinned : Thinned Kind.isPlain thin full) : Gathered key thin := by
  obtain ⟨above, count, below, rfl, unsigned, fresh⟩ := gathered
  obtain ⟨front, rest, rfl, first, later⟩ := thinned.append_inv
  obtain ⟨before, signs, rfl, ahead, run⟩ := first.append_inv
  obtain ⟨after, rfl, behind⟩ := later.cons_inv _ rfl
  have whole := run.eq_of_kept fun kind member => by rw [List.eq_of_mem_replicate member]; rfl
  refine ⟨before, count, after, by rw [whole], ?_, fun member => fresh (ahead.sublist.subset member)⟩
  exact fun member => unsigned ((ahead.sublist.append behind.sublist).subset member)

theorem signs_iff (key : MemberKey) (item : Item) :
    signs key item = true ↔ kind item = .signature key := by
  cases item <;> simp [signs, kind]

theorem implements_iff (key : MemberKey) (item : Item) :
    implements key item = true ↔ kind item = .implementation key := by
  cases item <;> simp [implements, kind]

theorem any_signs_iff (key : MemberKey) (items : List Item) :
    items.any (signs key) = true ↔ .signature key ∈ items.map kind := by
  simp only [List.any_eq_true, signs_iff, List.mem_map]

theorem any_implements_iff (key : MemberKey) (items : List Item) :
    items.any (implements key) = true ↔ .implementation key ∈ items.map kind := by
  simp only [List.any_eq_true, implements_iff, List.mem_map]

theorem filter_signs_eq_nil (key : MemberKey) (items : List Item)
    (unsigned : .signature key ∉ items.map kind) : items.filter (signs key) = [] := by
  refine List.filter_eq_nil_iff.mpr fun item member signed => unsigned ?_
  exact (any_signs_iff key items).mp (List.any_eq_true.mpr ⟨item, member, signed⟩)

-- Rearranged items are gathered, unless a mark of the member becomes an earlier implementation.
theorem gathered_kinds_moved (items : List Item) (key : MemberKey)
    (implemented : items.any (implements key) = true) (unmarked : ∀ doc, marker key doc ∉ items) :
    Gathered key (((moved items [] items).map filled).map kind) := by
  obtain ⟨above, lines, below, split, fresh⟩ := gathered_moved items key implemented
  have permuted := moved_perm_self items
  have run : ((items.filter (signs key)).map filled).map kind =
      List.replicate (items.filter (signs key)).length (.signature key) := by
    refine List.eq_replicate_iff.mpr ⟨by simp, fun own member => ?_⟩
    obtain ⟨item, inside, rfl⟩ := List.mem_map.mp (List.map_map ▸ member)
    have signed := (List.mem_filter.mp inside).2
    cases item with
    | signature other _ => exact (signs_iff key _).mp signed
    | _ => cases signed
  have unsigned : (above ++ below).filter (signs key) = [] := by
    have sizes := (permuted.filter (signs key)).length_eq
    have own : (items.filter (signs key)).filter (signs key) = items.filter (signs key) :=
      List.filter_eq_self.mpr fun item member => (List.mem_filter.mp member).2
    rw [split, List.filter_append, List.filter_append, own, List.filter_cons_of_neg
      (by simp [signs]), List.length_append, List.length_append] at sizes
    rw [List.filter_append, ← List.length_eq_zero_iff, List.length_append]
    omega
  refine ⟨(above.map filled).map kind, (items.filter (signs key)).length,
    (below.map filled).map kind, ?_, ?_, ?_⟩
  · rw [split, ← run]
    simp [filled, kind]
  · rw [← List.map_append, ← List.map_append]
    intro member
    obtain ⟨item, inside, same⟩ := List.mem_map.mp (List.map_map ▸ member)
    refine List.filter_eq_nil_iff.mp unsigned item inside ?_
    cases item with
    | signature own _ => exact (signs_iff key _).mpr same
    | _ => cases same
  · intro member
    obtain ⟨item, inside, same⟩ := List.mem_map.mp (List.map_map ▸ member)
    cases item with
    | marker own doc =>
      cases same
      refine unmarked doc (permuted.mem_iff.mp ?_)
      rw [split]
      simp [inside]
    | implementation own _ =>
      exact List.any_eq_false.mp fresh _ inside ((implements_iff key _).mpr same)
    | _ => cases same

end Gathering

section Fixing

theorem moved_drained (all : List Item) (written : List MemberKey) (key : MemberKey)
    (implemented : all.any (implements key) = true) (drained rest : List Item)
    (signed : ∀ item ∈ drained, signs key item = true) :
    moved all written (drained ++ rest) = moved all written rest := by
  induction drained with
  | nil => rfl
  | cons item drained ih =>
    have here := signed item List.mem_cons_self
    have later := ih fun next member => signed next (List.mem_cons_of_mem item member)
    cases item with
    | signature own lines =>
      have same : own = key := by simpa [signs] using here
      rw [List.cons_append, moved, same, if_pos implemented, List.nil_append, later]
    | _ => cases here

theorem writtenAfter_append (written : List MemberKey) (front back : List Item) :
    writtenAfter written (front ++ back) = writtenAfter (writtenAfter written front) back := by
  induction front generalizing written with
  | nil => rfl
  | cons item front ih => cases item <;> exact ih _

theorem writtenAfter_drained (written : List MemberKey) (key : MemberKey) (drained : List Item)
    (signed : ∀ item ∈ drained, signs key item = true) : writtenAfter written drained = written := by
  induction drained with
  | nil => rfl
  | cons item drained ih =>
    have here := signed item List.mem_cons_self
    cases item with
    | signature own lines => exact ih fun next member => signed next (List.mem_cons_of_mem _ member)
    | _ => cases here

/-- Items above which all signatures that are to be drained have been. -/
def Drained (all front : List Item) : Prop := ∀ key, all.any (implements key) = true →
  front.any (signs key) = true → front.any (implements key) = true

theorem drained_append (all front part : List Item) (drained : Drained all front)
    (own : Drained all part) : Drained all (front ++ part) := by
  intro key implemented signed
  rw [List.any_append, Bool.or_eq_true] at signed ⊢
  exact signed.imp (drained key implemented) (own key implemented)

theorem filter_signs_of_gathered (key : MemberKey) (front signed rest : List Item)
    (lines : List Text) (own : ∀ item ∈ signed, signs key item = true)
    (unsigned : front.any (signs key) = false)
    (gathered : Gathered key ((front ++ (signed ++ implementation key lines :: rest)).map kind)) :
    (front ++ (signed ++ implementation key lines :: rest)).filter (signs key) = signed := by
  have before : front.filter (signs key) = [] :=
    List.filter_eq_nil_iff.mpr (List.any_eq_false.mp unsigned)
  have after : rest.filter (signs key) = [] := by
    refine filter_signs_eq_nil key rest fun member => ?_
    obtain ⟨between, below, split⟩ := List.append_of_mem member
    -- A signature below the implementation would not be gathered.
    have whole : (front ++ (signed ++ implementation key lines :: rest)).map kind =
        (front.map kind ++ signed.map kind ++ .implementation key :: between) ++
          .signature key :: below := by
      simp [split, kind]
    rw [whole] at gathered
    exact (gathered_signature key _ _ gathered).1 (by simp)
  rw [List.filter_append, before, List.filter_append, List.filter_cons_of_neg (by simp [signs]),
    after, List.filter_eq_self.mpr own]
  simp

-- A member that is not written yet is written with the signatures that stand above it.
theorem moved_block (all front signed rest : List Item) (key : MemberKey) (lines : List Text)
    (split : all = front ++ (signed ++ implementation key lines :: rest))
    (own : ∀ item ∈ signed, signs key item = true) (drained : Drained all front)
    (fresh : front.any (implements key) = false) (gathered : Gathered key (all.map kind)) :
    moved all (writtenAfter [] front) (signed ++ implementation key lines :: rest) =
      signed ++ implementation key lines ::
        moved all (writtenAfter [] (front ++ (signed ++ [implementation key lines]))) rest := by
  have implemented : all.any (implements key) = true := by simp [split, implements]
  have unsigned : front.any (signs key) = false := by
    rw [Bool.eq_false_iff]
    intro signed
    rw [drained key implemented signed] at fresh
    cases fresh
  have unwritten : (writtenAfter [] front).contains key = false := by
    rw [contains_writtenAfter, fresh]
    rfl
  have gathers : all.filter (signs key) = signed := by
    rw [split] at gathered ⊢
    exact filter_signs_of_gathered key front signed rest lines own unsigned gathered
  have later : writtenAfter [] (front ++ (signed ++ [implementation key lines])) =
      key :: writtenAfter [] front := by
    rw [writtenAfter_append, writtenAfter_append, writtenAfter_drained _ key signed own]
    rfl
  rw [moved_drained all _ key implemented signed _ own, moved, unwritten, later, gathers]
  rfl

theorem drained_block (all signed : List Item) (key : MemberKey) (lines : List Text)
    (own : ∀ item ∈ signed, signs key item = true) :
    Drained all (signed ++ [implementation key lines]) := by
  intro other _ found
  obtain ⟨item, member, signs'⟩ := List.any_eq_true.mp found
  rcases List.mem_append.mp member with inside | last
  · have same := (signs_iff other item).mp signs'
    rw [(signs_iff key item).mp (own item inside), Kind.signature.injEq] at same
    simp [implements, same]
  · rw [List.mem_singleton.mp last] at signs'
    cases signs'

-- Behind a signature of a gathered member stand others, up to its first implementation.
theorem run_of_gathered (key : MemberKey) (front rest : List Item) (lines : List Text)
    (gathered : Gathered key ((front ++ signature key lines :: rest).map kind)) :
    ∃ signed body below, rest = signed ++ implementation key body :: below ∧
      (∀ item ∈ signed, signs key item = true) ∧ front.any (implements key) = false := by
  rw [List.map_append, List.map_cons, kind] at gathered
  obtain ⟨fresh, left, below, same, _⟩ := gathered_signature key _ _ gathered
  obtain ⟨signed, others, rfl, run, later⟩ := List.map_eq_append_iff.mp same
  obtain ⟨last, below, rfl, closing, rfl⟩ := List.map_eq_cons_iff.mp later
  cases last with
  | implementation own body =>
    cases closing
    refine ⟨signed, body, below, rfl, fun item member => (signs_iff key item).mpr ?_, ?_⟩
    · have inside : kind item ∈ List.replicate left (.signature key) :=
        run ▸ List.mem_map_of_mem member
      exact List.eq_of_mem_replicate inside
    · rw [Bool.eq_false_iff]
      exact fun opened => fresh ((any_implements_iff key front).mp opened)
  | _ => cases closing

-- The next item keeps its place, or it begins the signatures above a first implementation.
theorem moved_step (all front rest : List Item) (item : Item)
    (gathered : ∀ key, all.any (implements key) = true → Gathered key (all.map kind))
    (split : all = front ++ item :: rest) (drained : Drained all front) :
    ∃ part below, item :: rest = part ++ below ∧ part ≠ [] ∧ Drained all part ∧
      moved all (writtenAfter [] front) (item :: rest) =
        part ++ moved all (writtenAfter [] (front ++ part)) below := by
  have single (unsigned : ∀ key, all.any (implements key) = true → signs key item = false)
      (step : moved all (writtenAfter [] front) (item :: rest) =
        item :: moved all (writtenAfter (writtenAfter [] front) [item]) rest) :
      ∃ part below, item :: rest = part ++ below ∧ part ≠ [] ∧ Drained all part ∧
        moved all (writtenAfter [] front) (item :: rest) =
          part ++ moved all (writtenAfter [] (front ++ part)) below := by
    refine ⟨[item], rest, rfl, List.cons_ne_nil _ _, ?_, ?_⟩
    · intro key implemented signed
      rw [List.any_cons, unsigned key implemented] at signed
      cases signed
    · rw [step, writtenAfter_append]
      rfl
  cases item with
  | plain text => exact single (fun _ _ => rfl) rfl
  | marker key doc => exact single (fun _ _ => rfl) rfl
  | implementation key lines =>
    have implemented : all.any (implements key) = true := by simp [split, implements]
    cases fresh : front.any (implements key) with
    | true =>
      have old : (writtenAfter [] front).contains key = true := by
        rw [contains_writtenAfter, fresh, Bool.or_true]
      exact single (fun _ _ => rfl) (by rw [moved, if_pos old]; rfl)
    | false =>
      have none : ∀ item ∈ ([] : List Item), signs key item = true := List.forall_mem_nil _
      exact ⟨[implementation key lines], rest, rfl, List.cons_ne_nil _ _,
        drained_block all [] key lines none,
        moved_block all front [] rest key lines split none drained fresh (gathered key implemented)⟩
  | signature key lines =>
    by_cases implemented : all.any (implements key) = true
    · obtain ⟨signed, body, below, rfl, run, fresh⟩ :=
        run_of_gathered key front rest lines (split ▸ gathered key implemented)
      have own : ∀ item ∈ signature key lines :: signed, signs key item = true :=
        List.forall_mem_cons.mpr ⟨(signs_iff key _).mpr rfl, run⟩
      have moves := moved_block all front (signature key lines :: signed) below key body split own
        drained fresh (gathered key implemented)
      exact ⟨(signature key lines :: signed) ++ [implementation key body], below, by simp, by simp,
        drained_block all _ key body own, by simpa using moves⟩
    · have stays : moved all (writtenAfter [] front) (signature key lines :: rest) =
          signature key lines :: moved all (writtenAfter [] front) rest := by
        rw [moved, if_neg implemented]
        rfl
      refine single (fun other implements' => ?_) stays
      rw [Bool.eq_false_iff]
      intro signed
      have same : key = other := by simpa [signs] using signed
      exact implemented (same ▸ implements')

theorem moved_of_gathered_from (all : List Item)
    (gathered : ∀ key, all.any (implements key) = true → Gathered key (all.map kind))
    (front rest : List Item) (split : all = front ++ rest) (drained : Drained all front) :
    moved all (writtenAfter [] front) rest = rest := by
  induction size : rest.length using Nat.strongRecOn generalizing front rest with
  | ind n ih =>
    cases rest with
    | nil => rfl
    | cons item rest =>
      obtain ⟨part, below, cut, written, own, step⟩ :=
        moved_step all front rest item gathered split drained
      have shorter : below.length < n := by
        have := List.length_pos_iff.mpr written
        rw [← size, cut, List.length_append]
        omega
      rw [step, ih below.length shorter (front ++ part) below
        (by rw [split, cut, List.append_assoc]) (drained_append all front part drained own) rfl, cut]

-- Gathered items are left in their places.
theorem moved_of_gathered (items : List Item)
    (gathered : ∀ key, items.any (implements key) = true → Gathered key (items.map kind)) :
    moved items [] items = items :=
  moved_of_gathered_from items gathered [] items rfl fun _ _ signed => nomatch signed

theorem flatMap_filling (items : List Item) (unmarked : ∀ key doc, marker key doc ∉ items) :
    items.flatMap filling = items.flatMap original := by
  refine List.flatMap_congr fun item member => ?_
  cases item with
  | marker key doc => exact absurd member (unmarked key doc)
  | _ => rfl

-- Lines without marks are in order where they are tidy and the signatures among them gathered.
theorem tidy_arrange_iff (lines : List Text) (unmarked : ∀ key doc, marker key doc ∉ ofLines lines) :
    tidy (arrange (ofLines lines)) = lines ↔ tidy lines = lines ∧
      ∀ key, (ofLines lines).any (implements key) = true → Gathered key ((ofLines lines).map kind) := by
  have permuted := moved_perm_self (ofLines lines)
  have unmoved : ∀ key doc, marker key doc ∉ moved (ofLines lines) [] (ofLines lines) :=
    fun key doc member => unmarked key doc (permuted.mem_iff.mp member)
  have arranged : arrange (ofLines lines) =
      (moved (ofLines lines) [] (ofLines lines)).flatMap original := by
    rw [arrange_eq, flatMap_filling _ unmoved]
  constructor
  · intro fixed
    have sizes : (arrange (ofLines lines)).length = lines.length := by
      rw [arranged, (permuted.flatMap_right original).length_eq, original_ofLines]
    have kept : tidy (arrange (ofLines lines)) = arrange (ofLines lines) :=
      (thinned_tidyAfter none _).sublist.eq_of_length (by rw [sizes]; exact congrArg _ fixed)
    have same : arrange (ofLines lines) = lines := kept.symm.trans fixed
    rw [same] at kept
    refine ⟨kept, fun key implemented => ?_⟩
    have moves := reads_moved (ofLines lines) (signed_of_reads lines _ (reads_ofLines lines))
      lines _ (reads_ofLines lines) []
    rw [flatMap_filling _ unmoved, ← arranged, same] at moves
    have thinned := thinned_kinds lines lines _ moves (.refl lines)
    have kinds := thinned.sublist.eq_of_length (by simp [permuted.length_eq])
    rw [kinds]
    exact gathered_kinds_moved _ key implemented (unmarked key)
  · rintro ⟨tidied, gathered⟩
    rw [arrange_eq, moved_of_gathered _ gathered, flatMap_filling _ unmarked, original_ofLines, tidied]

end Fixing

end Item

section Settling

open Item

theorem reflow_eq_self_iff (text : Text) : reflow text = text ↔
    Text.PlainFeeds text ∧ tidy (arrange (ofLines text.lines)) = text.lines := by
  constructor
  · intro same
    have plain : Text.PlainFeeds text := by
      have kept := count_reflow text
      rw [same] at kept
      exact Text.plainFeeds_of_count text
        (kept ▸ count_tidy_arrange_le '\r' (Or.inr rfl) text.lines)
    refine ⟨plain, ?_⟩
    have ended : Text.join ['\n'] (tidy (arrange (ofLines text.lines))) ++ Text.ending text =
        Text.join ['\n'] text.lines ++ Text.ending text := by
      rw [← reflow_eq, same, ← Text.join_lines text plain]
    have joined := List.append_cancel_right ended
    by_cases written : text.lines = []
    · rw [written, ofLines]
      rfl
    · exact Text.join_injective _ _ (tidy_ne_nil _ (arrange_ne_nil _ written)) written
        (feed_of_tidy text) (fun line member => (Text.mem_lines text line member).1) joined
  · rintro ⟨plain, fixed⟩
    rw [reflow_eq, fixed, ← Text.join_lines text plain]

theorem follows_lines_reflow (source : Text) (plain : Text.PlainFeeds (reflow source)) :
    (reflow source).lines.IsChain Follows := by
  have chain := isChain_tidy (arrange (ofLines source.lines))
  rcases lines_reflow source plain with same | ⟨init, split, read⟩
  · rwa [same]
  · rw [split] at chain
    rw [read]
    exact chain.left_of_append

-- A text in order is read as the items it was written from, with fewer lines between them.
theorem kinds_lines_reflow (source : Text) (plain : Text.PlainFeeds (reflow source)) :
    Thinned Kind.isPlain ((ofLines (reflow source).lines).map kind)
      (((moved (ofLines source.lines) [] (ofLines source.lines)).map filled).map kind) := by
  have reads := reads_ofLines source.lines
  have moves := reads_moved _ (signed_of_reads _ _ reads) source.lines _ reads []
  rw [← arrange_eq] at moves
  exact thinned_kinds _ _ _ moves (thinned_lines_reflow source plain)

/-- A source whose text in order stays as it is: no carriage return is left at the end of a line,
no blank line above a closing brace, and no signature of a mark away from the implementation that
the mark has become. -/
structure Settled (source : Text) : Prop where
  feeds : Text.PlainFeeds (reflow source)
  closing : (reflow source).lines.IsChain StandsAbove
  marks : ∀ key doc, marker key doc ∈ ofLines source.lines →
    Gathered key ((ofLines (reflow source).lines).map kind)

theorem unmarked_lines_reflow (source : Text) (plain : Text.PlainFeeds (reflow source))
    (key : MemberKey) (doc : List Text) : marker key doc ∉ ofLines (reflow source).lines := by
  intro member
  have inside := (kinds_lines_reflow source plain).sublist.subset (List.mem_map_of_mem member)
  obtain ⟨item, _, same⟩ := List.mem_map.mp (List.map_map ▸ inside)
  cases item <;> cases same

theorem implements_lines_reflow (source : Text) (plain : Text.PlainFeeds (reflow source))
    (key : MemberKey) : (ofLines (reflow source).lines).any (implements key) = true ↔
      (ofLines source.lines).any (implements key) = true ∨
        ∃ doc, marker key doc ∈ ofLines source.lines := by
  have permuted := moved_perm_self (ofLines source.lines)
  rw [any_implements_iff, (kinds_lines_reflow source plain).mem_iff_of_kept _ rfl, List.map_map,
    List.mem_map, List.any_eq_true]
  constructor
  · rintro ⟨item, member, same⟩
    have inside := permuted.mem_iff.mp member
    cases item with
    | implementation own lines => exact Or.inl ⟨_, inside, (implements_iff key _).mpr same⟩
    | marker own doc =>
      cases same
      exact Or.inr ⟨doc, inside⟩
    | _ => cases same
  · rintro (⟨item, member, opened⟩ | ⟨doc, member⟩)
    · refine ⟨item, permuted.mem_iff.mpr member, ?_⟩
      cases item with
      | implementation own lines => exact (implements_iff key _).mp opened
      | _ => cases opened
    · exact ⟨_, permuted.mem_iff.mpr member, rfl⟩

-- Where no line is a member's, a mark or the start of documentation, lines are only tidied.
theorem reflow_of_rawLines (text : Text)
    (other : ∀ line ∈ text.lines, startsDoc line = false ∧ isHead line = false) :
    reflow text = Text.join ['\n'] (tidy text.lines) ++ Text.ending text := by
  have stays := moved_rawLines (rawLines text.lines) [] text.lines []
  rw [List.append_nil, moved, List.append_nil] at stays
  have items := ofLines_rawLines text.lines [] other
  rw [List.append_nil, ofLines, List.append_nil] at items
  rw [reflow_eq, items, arrange_eq, stays, filling_rawLines]

/-- A class with blank lines above the brace that closes it. -/
def spaced (blank : List Text) : Text := Text.unlines
  (["export class Panel \x7b".toList, "  size = 1;".toList] ++ blank ++ [['\x7d']])

/-- Putting a module in order twice is putting it in order once exactly for a settled source. -/
theorem reflow_reflow_iff (source : Text) :
    reflow (reflow source) = reflow source ↔ Settled source := by
  rw [reflow_eq_self_iff]
  constructor
  · rintro ⟨plain, fixed⟩
    have unmarked := unmarked_lines_reflow source plain
    obtain ⟨tidied, gathered⟩ := (tidy_arrange_iff _ unmarked).mp fixed
    refine ⟨plain, standsAbove_of_tidyAfter none _ tidied, fun key doc member => ?_⟩
    exact gathered key ((implements_lines_reflow source plain key).mpr (Or.inr ⟨doc, member⟩))
  · rintro ⟨plain, closing, marks⟩
    have unmarked := unmarked_lines_reflow source plain
    refine ⟨plain, (tidy_arrange_iff _ unmarked).mpr ⟨?_, fun key implemented => ?_⟩⟩
    · exact tidy_eq_self _ (follows_lines_reflow source plain) closing
    · by_cases marked : ∃ doc, marker key doc ∈ ofLines source.lines
      · obtain ⟨doc, member⟩ := marked
        exact marks key doc member
      · have opened := (implements_lines_reflow source plain key).mp implemented
        have gathers := gathered_kinds_moved _ key (opened.resolve_right marked)
          fun doc member => marked ⟨doc, member⟩
        exact gathered_thinned key _ _ gathers (kinds_lines_reflow source plain)

theorem reflow_twice_drops_blank_line :
    reflow (spaced [[], []]) = spaced [[]] ∧ reflow (reflow (spaced [[], []])) = spaced [] ∧
      reflow (reflow (spaced [[], []])) ≠ reflow (spaced [[], []]) := by
  have once : reflow (spaced [[], []]) = spaced [[]] := by
    rw [reflow_of_rawLines _ (by decide)]
    decide
  have twice : reflow (spaced [[]]) = spaced [] := by
    rw [reflow_of_rawLines _ (by decide)]
    decide
  refine ⟨once, by rw [once, twice], ?_⟩
  rw [once, twice]
  decide

end Settling

end HeaderBindings
