import HeaderBindings.Proofs.Model.Merging
import HeaderBindings.Proofs.Header.Refinement
import HeaderBindings.Tree.Declarations

/-!
What a header adds to a class set is what it yields on its own. A set absorbs another one by
inserting its classes in their order and appending its diagnostics; recording findings in a set is
absorbing what they make of the empty set, so that nothing that one header leaves open reaches the
next, and a class of the set changes only by merging.
-/

namespace HeaderBindings

namespace ClassSet

/-- A set with the classes of another one inserted and its diagnostics appended. -/
def absorb (set own : ClassSet) : ClassSet :=
  { classes := own.classes.foldl (fun classes decl => insertInto decl classes) set.classes
    diagnostics := set.diagnostics ++ own.diagnostics }

theorem absorb_empty (set : ClassSet) : set.absorb empty = set := by
  simp [absorb, empty]

theorem names_insert_subset (decl : ClassDecl) (classes : List ClassDecl) :
    classes.map (·.name) ⊆ (insertInto decl classes).map (·.name) := by
  rw [names_insertInto]
  split
  · exact fun _ member => member
  · exact fun _ member => List.mem_append_left _ member

theorem name_mem_insertInto (decl : ClassDecl) (classes : List ClassDecl) :
    decl.name ∈ (insertInto decl classes).map (·.name) := by
  rw [names_insertInto]
  split
  · assumption
  · exact List.mem_append_right _ List.mem_cons_self

-- A declaration of a known name may be inserted before or after all those of other names.
theorem foldl_insertInto (decl : ClassDecl) (later classes : List ClassDecl)
    (apart : ∀ other ∈ later, other.name ≠ decl.name) (known : decl.name ∈ classes.map (·.name)) :
    later.foldl (fun classes decl => insertInto decl classes) (insertInto decl classes) =
      insertInto decl (later.foldl (fun classes decl => insertInto decl classes) classes) := by
  induction later generalizing classes with
  | nil => rfl
  | cons other later ih =>
    have here := apart other List.mem_cons_self
    simp only [List.foldl_cons]
    rw [insertInto_comm decl other (Ne.symm here) classes known]
    exact ih _ (fun next member => apart next (List.mem_cons_of_mem other member))
      (names_insert_subset other classes known)

theorem nodup_insert (set : ClassSet) (decl : ClassDecl) (apart : set.names.Nodup) :
    (set.insert decl).names.Nodup := by
  simp only [names, insert, names_insertInto] at apart ⊢
  split
  · exact apart
  · next fresh =>
    refine List.nodup_append.mpr ⟨apart, List.nodup_singleton _, ?_⟩
    rintro name member _ last rfl
    exact fresh (List.mem_singleton.mp last ▸ member)

-- A declaration is inserted into the set that absorbs or into the one that is absorbed.
theorem absorb_insert (set own : ClassSet) (decl : ClassDecl) (apart : own.names.Nodup) :
    set.absorb (own.insert decl) = (set.absorb own).insert decl := by
  simp only [absorb, insert, ClassSet.mk.injEq, and_true]
  by_cases known : decl.name ∈ own.classes.map (·.name)
  · obtain ⟨before, first, after, split, same, fresh⟩ := split_at_name decl.name own.classes known
    have others : ∀ other ∈ after, other.name ≠ decl.name := by
      intro other member same'
      rw [names, split, List.map_append, List.map_cons] at apart
      have once := (List.nodup_cons.mp (List.nodup_append.mp apart).2.1).1
      exact once (same ▸ same' ▸ List.mem_map_of_mem member)
    rw [split, insertInto_known decl first before after fresh same]
    simp only [List.foldl_append, List.foldl_cons]
    rw [insertInto_merge first decl same]
    exact foldl_insertInto decl after _ others (same ▸ name_mem_insertInto first _)
  · rw [insertInto_new decl own.classes known, List.foldl_append]
    rfl

/-- Recording findings behind what has been absorbed is absorbing them with it. -/
theorem recordAll_absorb (set own : ClassSet) (findings : List Finding)
    (apart : own.names.Nodup) :
    (set.absorb own).recordAll findings = set.absorb (own.recordAll findings) ∧
      (own.recordAll findings).names.Nodup := by
  induction findings generalizing own with
  | nil => exact ⟨rfl, apart⟩
  | cons finding findings ih =>
    cases finding with
    | declared decl =>
      have step := absorb_insert set own decl apart
      have later := ih (own.insert decl) (nodup_insert own decl apart)
      rw [step] at later
      exact later
    | warned diagnostic =>
      have step : set.absorb (own.warn diagnostic) = (set.absorb own).warn diagnostic := by
        simp [absorb, warn]
      have later := ih (own.warn diagnostic) apart
      rw [step] at later
      exact later
    | noted event => exact ih own apart

theorem recordAll_eq_absorb (set : ClassSet) (findings : List Finding) :
    set.recordAll findings = set.absorb (empty.recordAll findings) := by
  have whole := (recordAll_absorb set empty findings List.nodup_nil).1
  rwa [absorb_empty] at whole

/-- A class is as it was or has been merged with one declaration of its name. -/
def Merged (added : List ClassDecl) (old now : ClassDecl) : Prop :=
  now = old ∨ ∃ decl ∈ added, decl.name = old.name ∧ now = old.merge decl

/-- Each class of a list is in its place, as it was or merged; the added declarations of other names
stand behind them in their order. -/
def Keeps (before added after : List ClassDecl) : Prop :=
  ∃ kept new, after = kept ++ new ∧ List.Forall₂ (Merged added) before kept ∧
    new.Sublist added ∧ ∀ decl ∈ new, decl.name ∉ before.map (·.name)

theorem Merged.name_eq {added : List ClassDecl} {old now : ClassDecl} (merged : Merged added old now) :
    now.name = old.name := by
  rcases merged with rfl | ⟨decl, _, _, rfl⟩
  · rfl
  · rfl

theorem Merged.more {added : List ClassDecl} (decl : ClassDecl) {old now : ClassDecl}
    (merged : Merged added old now) : Merged (added ++ [decl]) old now := by
  rcases merged with same | ⟨first, member, name, rest⟩
  · exact Or.inl same
  · exact Or.inr ⟨first, List.mem_append_left _ member, name, rest⟩

theorem names_merged {added before kept : List ClassDecl}
    (merged : List.Forall₂ (Merged added) before kept) :
    kept.map (·.name) = before.map (·.name) := by
  induction merged with
  | nil => rfl
  | cons here _ ih => simp only [List.map_cons, here.name_eq, ih]

-- A declaration of a name that has not been added yet meets the class as it was.
theorem merged_insertInto {added before kept : List ClassDecl}
    (merged : List.Forall₂ (Merged added) before kept) (new : List ClassDecl) (decl : ClassDecl)
    (fresh : decl.name ∉ added.map (·.name)) (known : decl.name ∈ kept.map (·.name)) :
    ∃ next, insertInto decl (kept ++ new) = next ++ new ∧
      List.Forall₂ (Merged (added ++ [decl])) before next := by
  induction merged with
  | nil => cases known
  | @cons old now before kept here later ih =>
    by_cases same : now.name = decl.name
    · have unchanged : now = old := by
        rcases here with unchanged | ⟨first, member, name, rfl⟩
        · exact unchanged
        · exact absurd (List.mem_map.mpr ⟨first, member, name.trans same⟩) fresh
      refine ⟨now.merge decl :: kept, by simp [insertInto, same], ?_⟩
      refine .cons (Or.inr ⟨decl, by simp, ?_, by rw [unchanged]⟩) ?_
      · rw [← same, unchanged]
      · exact later.imp fun _ _ merged => merged.more decl
    · have deeper : decl.name ∈ kept.map (·.name) := by simpa [Ne.symm same] using known
      obtain ⟨next, inserted, merged⟩ := ih deeper
      exact ⟨now :: next, by simp [insertInto, same, inserted], .cons (here.more decl) merged⟩

theorem keeps_insertInto (before added after : List ClassDecl) (decl : ClassDecl)
    (keeps : Keeps before added after) (fresh : decl.name ∉ added.map (·.name)) :
    Keeps before (added ++ [decl]) (insertInto decl after) := by
  obtain ⟨kept, new, rfl, merged, listed, others⟩ := keeps
  by_cases known : decl.name ∈ kept.map (·.name)
  · obtain ⟨next, inserted, later⟩ := merged_insertInto merged new decl fresh known
    exact ⟨next, new, inserted, later, listed.trans (List.sublist_append_left _ _), others⟩
  · have missing : decl.name ∉ (kept ++ new).map (·.name) := by
      rw [List.map_append, List.mem_append, not_or]
      exact ⟨known, fun member => fresh ((listed.map _).subset member)⟩
    refine ⟨kept, new ++ [decl], by rw [insertInto_new decl _ missing, List.append_assoc],
      merged.imp fun _ _ merged => merged.more decl, listed.append (List.Sublist.refl _), ?_⟩
    intro other member
    rcases List.mem_append.mp member with old | last
    · exact others other old
    · rw [List.mem_singleton.mp last, ← names_merged merged]
      exact known

/-- Absorbing a set whose classes have names of their own keeps the classes that were there. -/
theorem keeps_absorb (set own : ClassSet) (apart : own.names.Nodup) :
    Keeps set.classes own.classes (set.absorb own).classes := by
  have run : ∀ later added after, Keeps set.classes added after →
      ((added ++ later).map (·.name)).Nodup →
      Keeps set.classes (added ++ later)
        (later.foldl (fun classes decl => insertInto decl classes) after) := by
    intro later
    induction later with
    | nil => simpa using fun added after keeps _ => keeps
    | cons decl later ih =>
      intro added after keeps apart
      have fresh : decl.name ∉ added.map (·.name) := by
        rw [List.map_append, List.map_cons] at apart
        exact fun member => (List.nodup_append.mp apart).2.2 _ member _ List.mem_cons_self rfl
      have next := ih (added ++ [decl]) (insertInto decl after)
        (keeps_insertInto set.classes added after decl keeps fresh)
      simpa using next (by simpa using apart)
  refine run own.classes [] set.classes ?_ apart
  exact ⟨set.classes, [], by simp, List.forall₂_same.mpr fun _ _ => Or.inl rfl, List.Sublist.refl _,
    by simp⟩

end ClassSet

namespace Node

theorem foldl_addChild (path : Text) (children : List Node) (decl : ClassDecl) (log : ClassLog) :
    children.foldl (addChild path) (decl, log) =
      ((children.map member).foldl addMember decl,
        log.takeAll ((children.filterMap (complaint? path)).map Finding.warned)) := by
  induction children generalizing decl log with
  | nil => rfl
  | cons child children ih =>
    rw [List.foldl_cons, List.map_cons, List.foldl_cons, List.filterMap_cons]
    cases read : child.member with
    | unusable message => simp [addChild, complaint?, read, ih, addMember, ClassLog.takeAll]
    | method method => simp [addChild, complaint?, read, ih]
    | property property => simp [addChild, complaint?, read, ih]
    | none => simp [addChild, complaint?, read, ih]

theorem extractClass_eq (path : Text) (log : ClassLog) (node : Node) (name : Text) :
    extractClass path log node name = log.takeAll (node.classFindings path name) := by
  simp only [extractClass, foldl_addChild, classFindings, ClassLog.takeAll_append]
  rfl

theorem extractNode_eq (path : Text) (log : ClassLog) (node : Node) :
    extractNode path log node = log.takeAll (node.findings path) := by
  unfold extractNode findings
  split
  · cases node.kind with
    | interface name => exact extractClass_eq path log node name
    | category className category =>
      cases className with
      | nil => rfl
      | cons c className => exact extractClass_eq path log node (c :: className)
    | _ => rfl
  · rfl

/-- Reading a tree into a class set is having the set take what the tree yields. -/
theorem extract_eq (path : Text) (nodes : List Node) (classes : ClassSet) :
    extract path nodes classes =
      ⟨classes.recordAll (findingsOf path nodes), classes.eventsOfAll (findingsOf path nodes)⟩ := by
  have run (log : ClassLog) :
      nodes.foldl (extractNode path) log = log.takeAll (findingsOf path nodes) := by
    induction nodes generalizing log with
    | nil => rfl
    | cons node nodes ih =>
      rw [List.foldl_cons, ih, extractNode_eq, ← ClassLog.takeAll_append]
      rfl
  rw [extract, run, ClassLog.takeAll_eq]
  rfl

end Node

namespace Run

/-- What an extraction adds to a set, given what it makes of the empty set. -/
structure AddsApart (extract : ClassSet → ClassLog) (set : ClassSet) : Prop where
  absorbs : (extract set).classes = set.absorb (extract .empty).classes
  keeps : ClassSet.Keeps set.classes (extract .empty).classes.classes (extract set).classes.classes

/-- An extraction that is a record of the same findings in every set adds apart. -/
theorem addsApart_of_records {extract : ClassSet → ClassLog} {findings : List Finding}
    (records : ∀ set, (extract set).classes = set.recordAll findings) (set : ClassSet) :
    AddsApart extract set := by
  have absorbs := ClassSet.recordAll_eq_absorb set findings
  have apart := (ClassSet.recordAll_absorb set .empty findings List.nodup_nil).2
  constructor
  · rw [records, records, absorbs]
  · rw [records, records, absorbs]
    exact ClassSet.keeps_absorb set _ apart

/-- A header and a syntax tree add to a set what they yield on their own, and a run over headers
adds what each of them yields on its own, one after another. -/
theorem extraction_apart (set : ClassSet) :
    (∀ unit : SourceUnit, AddsApart unit.extract set) ∧
      (∀ path nodes, AddsApart (Node.extract path nodes) set) ∧
      ∀ units, (extractUnits set units).1 =
        units.foldl (fun set unit => set.absorb (extractUnits .empty [unit]).1) set := by
  refine ⟨fun unit => ?_, fun path nodes => ?_, fun units => ?_⟩
  · exact addsApart_of_records (fun set => congrArg ClassLog.classes (unit.extract_eq set)) set
  · exact addsApart_of_records (fun set => congrArg ClassLog.classes (Node.extract_eq path nodes set))
      set
  · induction units generalizing set with
    | nil => rfl
    | cons unit units ih =>
      have first := ClassSet.recordAll_eq_absorb set unit.findings
      rw [← extractUnits_single .empty unit] at first
      rw [extractUnits_cons, List.foldl_cons, ← first]
      exact ih _

end Run

end HeaderBindings
