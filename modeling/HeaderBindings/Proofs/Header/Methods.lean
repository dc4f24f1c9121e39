import HeaderBindings.Proofs.Declaration.Selectors
import HeaderBindings.Proofs.Header.Ledger
import HeaderBindings.Proofs.Header.Legible
import HeaderBindings.Proofs.Plan.Partition

/-!
The methods that the text of headers declares. Each of them is read from a declaration, so that its
selector is usable: none is left out of a plan for want of a name, and one that is malformed lacks
parameters.
-/

namespace HeaderBindings

section Reading

/-- A method that is read from a declaration, with the comment written for it. -/
def Method.IsRead (method : Method) : Prop :=
  ∃ declaration read doc, Method.parse declaration = .ok read ∧ method = read.withDoc doc

theorem PendingMember.isRead_outcome (assumeNonnull : Bool) (member : PendingMember) (method : Method)
    (outcome : (member.outcome assumeNonnull).method? = some method) : method.IsRead := by
  unfold PendingMember.outcome at outcome
  split at outcome
  · split at outcome <;> cases outcome
  · split at outcome
    · next read parsed =>
      cases outcome
      exact ⟨member.text, read, member.doc, parsed, rfl⟩
    · cases outcome

/-- Every method of a class that a header declares is read from a declaration. -/
theorem isRead_notesOf (content : Text) (decl : ClassDecl) (declared : decl ∈ declaredBy (notesOf content))
    (method : Method) (member : method ∈ decl.methods) : method.IsRead := by
  obtain ⟨ledger, balances⟩ := balances_notesOf (.inline content) .empty
  -- The classes on the books are those that the notes declare.
  have booked : decl ∈ ledger.filterMap LedgerEntry.decl? := balances.decls ▸ declared
  obtain ⟨entry, _, same⟩ := List.mem_filterMap.mp booked
  cases entry with
  | refused number message => cases same
  | declared entry =>
    cases same
    obtain ⟨own, _, outcome⟩ := List.mem_filterMap.mp member
    exact PendingMember.isRead_outcome _ _ method outcome

end Reading

namespace ClassSet

/-- What merging keeps holds of all classes after more are inserted, if it holds of those. -/
theorem forall_insertAll (property : ClassDecl → Prop)
    (merges : ∀ known later, property known → property later → property (known.merge later))
    (decls : List ClassDecl) (own : ∀ decl ∈ decls, property decl) (classes : List ClassDecl)
    (known : ∀ decl ∈ classes, property decl) :
    ∀ decl ∈ decls.foldl (fun classes decl => insertInto decl classes) classes, property decl := by
  induction decls generalizing classes with
  | nil => exact known
  | cons decl decls ih =>
    obtain ⟨here, later⟩ := List.forall_mem_cons.mp own
    exact ih later _ (each_insertInto merges decl here classes known)

/-- Every method of an extracted class is read from a declaration, or was in the set before. -/
theorem isRead_extractUnits (set : ClassSet) (units : List SourceUnit) :
    ∀ decl ∈ (Run.extractUnits set units).1.classes, ∀ method ∈ decl.methods,
      method.IsRead ∨ ∃ known ∈ set.classes, method ∈ known.methods := by
  induction units generalizing set with
  | nil => exact fun decl known method member => Or.inr ⟨decl, known, member⟩
  | cons unit units ih =>
    intro decl extracted method member
    rw [Run.extractUnits_cons] at extracted
    rcases ih _ decl extracted method member with read | ⟨known, own, inside⟩
    · exact Or.inl read
    · have classes := (set.recordAll_notes unit (notesOf unit.content)).1
      rw [show (notesOf unit.content).map unit.finding = unit.findings from rfl] at classes
      rw [classes] at own
      refine forall_insertAll (fun decl => ∀ method ∈ decl.methods,
        method.IsRead ∨ ∃ known ∈ set.classes, method ∈ known.methods) ?_ _ ?_ _ ?_ known own
        method inside
      · intro known later first second method member
        rcases List.mem_append.mp member with here | there
        · exact first method here
        · exact second method there
      · exact fun decl declared method member =>
          Or.inl (isRead_notesOf unit.content decl declared method member)
      · exact fun decl known method member => Or.inr ⟨decl, known, member⟩

end ClassSet

namespace MemberPlan

theorem placeInGroup_ne_empty (plan : MemberPlan) (method : Method) :
    placeInGroup plan method ≠ .dropped .emptySelector := by
  rcases placeInGroup_cases plan method with same | same <;> simp [same]

theorem placeSetter_ne_empty (decl : ClassDecl) (plan : MemberPlan) (method : Method) (name : Text) :
    placeSetter decl plan method name ≠ .dropped .emptySelector := by
  have grouped := placeInGroup_ne_empty plan method
  unfold placeSetter
  cases decl.property? name with
  | some property =>
    dsimp only
    split_ifs
    · simp
    · exact grouped
  | none =>
    dsimp only
    split_ifs
    · exact grouped
    · simp
    · simp

theorem placeWellFormed_ne_empty (decl : ClassDecl) (plan : MemberPlan) (method : Method) :
    placeWellFormed decl plan method ≠ .dropped .emptySelector := by
  unfold placeWellFormed
  split
  · simp
  · cases setterProperty? method with
    | some name => exact placeSetter_ne_empty decl plan method name
    | none => exact placeInGroup_ne_empty plan method

theorem baseName_of_malformed (plan : MemberPlan) (method : Method)
    (empty : placeMalformed plan method = .dropped .emptySelector) : method.baseName = [] := by
  unfold placeMalformed at empty
  split at empty
  · next bare => exact List.isEmpty_iff.mp bare
  · split at empty
    · cases empty
    · split at empty <;> cases empty

/-- A method is left out for want of a name only if it has none. -/
theorem baseName_of_emptySelector (decl : ClassDecl) (entry : Entry)
    (dropped : (entry, DropReason.emptySelector) ∈ (ofClass decl).dropped) :
    entry.method.baseName = [] := by
  let holds (plan : MemberPlan) : Prop :=
    ∀ entry, (entry, DropReason.emptySelector) ∈ plan.dropped → entry.method.baseName = []
  -- Wherever a method is put, it is left out only if that is where it is put.
  have step (plan : MemberPlan) (own : Entry) (placement : Placement) (before : holds plan)
      (bare : placement = .dropped .emptySelector → own.method.baseName = []) :
      holds (plan.put own placement) := by
    intro entry member
    cases placement with
    | setter name => exact before entry member
    | grouped => exact before entry member
    | incomplete => exact before entry member
    | dropped reason =>
      rcases List.mem_append.mp member with known | last
      · exact before entry known
      · cases List.mem_singleton.mp last
        exact bare rfl
  have wellFormed : holds (bound decl) :=
    run_induction _ holds _ _ (by simp [holds]) fun plan own _ before =>
      step plan own _ before fun empty => absurd empty (placeWellFormed_ne_empty decl plan own.method)
  rw [ofClass_eq_run] at dropped
  exact run_induction _ holds _ _ wellFormed (fun plan own _ before =>
    step plan own _ before (baseName_of_malformed plan own.method)) entry dropped

end MemberPlan

section Selectors

theorem Method.IsRead.baseName_ne_nil {method : Method} (read : method.IsRead) :
    method.baseName ≠ [] := by
  obtain ⟨declaration, bare, doc, parsed, rfl⟩ := read
  exact (Reading.nameChars_of_identifier _ (Method.usable_of_parse declaration bare parsed).base).1

/-- A method that is read has a usable selector, with a colon for each parameter and more of them if it
is malformed; so a method that a plan leaves out for want of a name was in the set before the headers. -/
theorem accepted_methods_usable :
    (∀ declaration method, Method.parse declaration = .ok method →
      method.Usable (lex declaration) ∧ (':' ∉ method.selector → method.params = []) ∧
        (method.wellFormed = false → method.arity < method.colonCount)) ∧
    ∀ set units, ∀ decl ∈ (Run.extractUnits set units).1.classes, ∀ entry,
      (entry, DropReason.emptySelector) ∈ (MemberPlan.ofClass decl).dropped →
        ∃ known ∈ set.classes, entry.method ∈ known.methods := by
  constructor
  · intro declaration method accepted
    have usable := method.usable_of_parse declaration accepted
    refine ⟨usable, ?_, ?_⟩
    · intro free
      have none : method.colonCount = 0 := List.count_eq_zero.mpr free
      have bound := usable.arity
      rw [none] at bound
      exact List.length_eq_zero_iff.mp (Nat.le_zero.mp bound)
    · intro malformed
      have named := (Reading.nameChars_of_identifier _ usable.base).1
      have apart : method.colonCount ≠ method.arity := by
        simpa [Method.wellFormed, named] using malformed
      exact lt_of_le_of_ne usable.arity (Ne.symm apart)
  · intro set units decl extracted entry dropped
    have inside : entry.method ∈ decl.methods := by
      have placed : entry ∈ (MemberPlan.ofClass decl).placed :=
        List.mem_append_right _ (List.mem_map.mpr ⟨_, dropped, rfl⟩)
      obtain ⟨pair, known, rfl⟩ := List.mem_map.mp ((MemberPlan.placed_ofClass decl).subset placed)
      exact (List.mem_zipIdx' known).2 ▸ List.getElem_mem _
    rcases ClassSet.isRead_extractUnits set units decl extracted entry.method inside with read | known
    · exact absurd (MemberPlan.baseName_of_emptySelector decl entry dropped) read.baseName_ne_nil
    · exact known

/-- A method with bare colons and with parameters that lack a name or a type. -/
def bareMoveRead : Method where
  selector := "move:x:to::".toList
  params := [⟨"there".toList, "int".toList, false, []⟩, ⟨"y".toList, "id".toList, false, []⟩]
  returnType := "void".toList
  isStatic := false

/-- A method of a set that was not read from a header. -/
def namelessMethod : Method where
  selector := [':']
  returnType := "void".toList
  isStatic := false

theorem accepted_methods_usable_panel :
    let declaration := "- (void)move:(float)x :(int)there to: :y, ... NS_SWIFT_NAME(f(;".toList
    let set : ClassSet := { classes := [{ name := "Panel".toList, methods := [namelessMethod] }] }
    let header := "@interface Panel\n- (void)move:(float)x :(int)there to: :y;\n@end".toList
    let decl : ClassDecl := { name := "Panel".toList, methods := [namelessMethod, bareMoveRead] }
    Method.parse declaration = .ok bareMoveRead ∧ bareMoveRead.Usable (lex declaration) ∧
      bareMoveRead.wellFormed = false ∧ bareMoveRead.arity < bareMoveRead.colonCount ∧
      decl ∈ (Run.extractUnits set [.inline header]).1.classes ∧
      (⟨0, namelessMethod⟩, DropReason.emptySelector) ∈ (MemberPlan.ofClass decl).dropped ∧
      ∃ known ∈ set.classes, namelessMethod ∈ known.methods := by
  intro declaration set header decl
  have accepted : Method.parse declaration = .ok bareMoveRead := by decide +kernel
  have malformed : bareMoveRead.wellFormed = false := by decide
  have extracted : decl ∈ (Run.extractUnits set [.inline header]).1.classes := by decide +kernel
  have dropped : (⟨0, namelessMethod⟩, DropReason.emptySelector) ∈ (MemberPlan.ofClass decl).dropped := by
    decide
  obtain ⟨usable, _, fewer⟩ := accepted_methods_usable.1 declaration bareMoveRead accepted
  exact ⟨accepted, usable, malformed, fewer malformed, extracted, dropped,
    accepted_methods_usable.2 set [.inline header] decl extracted _ dropped⟩

end Selectors

end HeaderBindings
