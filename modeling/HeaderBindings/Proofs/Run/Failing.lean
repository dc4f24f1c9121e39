import HeaderBindings.Proofs.Run.Producing

/-!
Runs that fail. A run that cannot read or extract leaves the tree of files as it was; one that cannot
write leaves the files before the one that it could not write, in the order of the classes.
-/

namespace HeaderBindings

namespace Run

section Failing

variable (trees? : Option TreeLibrary) (settings : Settings) (inputs : List Text)
  (inline : Option Text)

/-- What a run that fails to write leaves: the classes are all extracted, and either the directory
cannot be made, or the files before the one that cannot be written are there. -/
structure Unfinished (world : World) (path : Text) (after : FileTree) (classes : ClassSet) : Prop where
  extracted : (carryOut (extractWith trees? settings inputs inline) world).1 = .ok classes
  left : (path = settings.outputDir ∧ ∀ names, after.file? names = world.tree.file? names) ∨
    ∃ done file rest home, generatedFiles settings.bridge classes = done ++ file :: rest ∧
      path = Path.join settings.outputDir file.fileName ∧
      Written settings.outputDir home done world.tree after

/-- A run fails before it has written anything, or with the files before the one that it cannot write. -/
theorem failing_generateWith (reads : ∀ trees ∈ trees?, TreeLibrary.Reads trees)
    (filed : ∀ trees ∈ trees?, TreeLibrary.Filed trees) (world after : World) (failure : RunFailure)
    (ran : carryOut (generateWith trees? settings inputs inline) world = (.error failure, after)) :
    ((∀ path, failure ≠ .unwritable path) → after.tree = world.tree) ∧
      ∀ path, failure = .unwritable path →
        ∃ classes, Unfinished trees? settings inputs inline world path after.tree classes := by
  have looks := looks_extractWith inputs inline trees? reads settings
  have kept := looks.tree world
  have unwritten := looks.failure world
  have filed := filed_extractWith trees? settings inputs inline filed world
  rw [generateWith, carryOut_bind] at ran
  generalize reached : carryOut (extractWith trees? settings inputs inline) world = extraction
    at kept unwritten filed ran
  obtain ⟨failed | classes, between⟩ := extraction
  · obtain ⟨same, rfl⟩ := Prod.mk.inj ran
    obtain rfl := Except.error.inj same
    exact ⟨fun _ => kept, fun path same => absurd (congrArg Except.error same) (unwritten path)⟩
  · have each := filed classes rfl
    have ends := ends_produce settings each between
    dsimp only at ran
    rw [ran, kept] at ends
    -- Only two ways of ending are failures, both of them of writing.
    cases ends with
    | homeless same =>
      refine ⟨fun other => absurd rfl (other _), fun path here => ?_⟩
      have equal := RunFailure.unwritable.inj here
      exact ⟨classes, congrArg Prod.fst reached, Or.inl ⟨equal.symm, same⟩⟩
    | partly done file rest home split written =>
      refine ⟨fun other => absurd rfl (other _), fun path here => ?_⟩
      have equal := RunFailure.unwritable.inj here
      exact ⟨classes, congrArg Prod.fst reached, Or.inr ⟨done, file, rest, home, split, equal.symm, written⟩⟩

/-- A tree in which a directory stands where the second of two modules would go. -/
def blockedTree : FileTree :=
  { nodes := [(["generated".toList], .directory),
      (["generated".toList, "B.ts".toList], .directory)] }

def twoInterfaces : Text := "@interface A\n@end\n@interface B\n- (void)a;\n@end\n".toList

/-- The syntax tree of two interfaces, whatever is asked for. -/
def twoNodes : TreeLibrary := fun _ =>
  let method : Node :=
    ⟨.method false ⟨"a".toList, ⟨"void".toList, .unspecified⟩, []⟩, 4, true, none, []⟩
  .ok [⟨.interface "A".toList, 1, true, none, []⟩, ⟨.interface "B".toList, 3, true, none, [method]⟩]

theorem filed_twoNodes : twoNodes.Filed := by
  intro unit nodes given node member
  cases given
  simp only [List.mem_cons, List.not_mem_nil, or_false] at member
  rcases member with rfl | rfl
  · exact (by decide : '/' ∉ "A".toList)
  · exact (by decide : '/' ∉ "B".toList)

theorem failing_generateWith_blocked :
    let run := carryOut (generateWith (some twoNodes) { strategy := .clang } [] (some twoInterfaces))
      ⟨blockedTree, []⟩
    run.1 = .error (.unwritable "generated/B.ts".toList) ∧
      ∃ classes, Unfinished (some twoNodes) { strategy := .clang } [] (some twoInterfaces)
        ⟨blockedTree, []⟩ "generated/B.ts".toList run.2.tree classes := by
  intro run
  have failed : run.1 = .error (.unwritable "generated/B.ts".toList) := by decide +kernel
  refine ⟨failed, ?_⟩
  have reads : ∀ trees ∈ some twoNodes, TreeLibrary.Reads trees := by
    rintro _ ⟨rfl⟩ unit path
    exact nofun
  have filed : ∀ trees ∈ some twoNodes, TreeLibrary.Filed trees := by
    rintro _ ⟨rfl⟩
    exact filed_twoNodes
  exact (failing_generateWith (some twoNodes) { strategy := .clang } [] (some twoInterfaces) reads
    filed ⟨blockedTree, []⟩ run.2 _ (Prod.ext failed rfl)).2 _ rfl

end Failing

end Run

end HeaderBindings
