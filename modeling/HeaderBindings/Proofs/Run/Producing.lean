import HeaderBindings.Proofs.Header.Legible
import HeaderBindings.Proofs.Run.Actions

/-!
What a run leaves in a tree of files. Extraction comes first and only looks. The modules of the
extracted classes then go into one directory in the order of the classes, under names that differ, so
that a run which ends early leaves the first of them complete and all other files as they were.
-/

namespace HeaderBindings

/-- A class whose name can be a step of a path. -/
def ClassDecl.Filed (decl : ClassDecl) : Prop := '/' ∉ decl.name

theorem ClassDecl.Legible.filed {decl : ClassDecl} (legible : decl.Legible) : decl.Filed :=
  fun slash => absurd (Token.chars_of_name legible.name '/' slash) (by decide)

namespace Node

/-- A class that a node names has a name that can be a step of a path. -/
def Filed (node : Node) : Prop :=
  match node.kind with
  | .interface name => '/' ∉ name
  | .category className _ => '/' ∉ className
  | _ => True

theorem name_addMember (decl : ClassDecl) (member : Member) :
    (addMember decl member).name = decl.name := by
  cases member <;> rfl

theorem name_toClass (node : Node) (name : Text) : (node.toClass name).name = name := by
  unfold toClass
  generalize node.ownChildren.map member = members
  have kept (decl : ClassDecl) : (members.foldl addMember decl).name = decl.name := by
    induction members generalizing decl with
    | nil => rfl
    | cons member members ih => exact (ih _).trans (name_addMember decl member)
  exact kept _

theorem filed_classFindings (path : Text) (node : Node) (name : Text) (slash : '/' ∉ name)
    (decl : ClassDecl) (member : Finding.declared decl ∈ node.classFindings path name) :
    decl.Filed := by
  have same : decl = node.toClass name := by simpa [classFindings] using member
  rw [same, ClassDecl.Filed, name_toClass]
  exact slash

theorem filed_findings (path : Text) (node : Node) (filed : node.Filed) (decl : ClassDecl)
    (member : Finding.declared decl ∈ node.findings path) : decl.Filed := by
  unfold findings at member
  unfold Filed at filed
  split at member
  · split at member
    · next name here =>
      rw [here] at filed
      exact filed_classFindings path node name filed decl member
    · next className category here =>
      rw [here] at filed
      dsimp only at member
      split at member
      · simp at member
      · exact filed_classFindings path node className filed decl member
    · simp at member
  · simp at member

end Node

namespace Run

/-- A library whose trees name classes by names that can be steps of a path. -/
def TreeLibrary.Filed (trees : TreeLibrary) : Prop :=
  ∀ unit nodes, trees unit = .ok nodes → ∀ node ∈ nodes, node.Filed

theorem filed_extractTrees (trees : TreeLibrary) (filed : trees.Filed) (units : List SourceUnit)
    (set : ClassSet) (each : set.Each ClassDecl.Filed) (classes : ClassSet)
    (extracted : (extractTrees trees set units).1 = .ok classes) :
    classes.Each ClassDecl.Filed := by
  induction units generalizing set with
  | nil => exact Except.ok.inj extracted ▸ each
  | cons unit units ih =>
    rw [extractTrees] at extracted
    split at extracted
    · cases extracted
    · next nodes given =>
      apply ih _ _ extracted
      rw [Node.extract_eq]
      apply each.recordAll fun _ _ known _ => known
      intro decl member
      obtain ⟨node, known, declared⟩ := List.mem_flatMap.mp member
      exact node.filed_findings unit.path (filed unit nodes given node known) decl declared

section Giving

variable {α β : Type}

/-- Whatever an action gives has a property. -/
def Gives (property : α → Prop) (action : Action (StateM World) α) : Prop :=
  ∀ world value, (carryOut action world).1 = .ok value → property value

theorem gives_pure {property : α → Prop} (value : α) (own : property value) :
    Gives property (pure value) := fun _ _ given => Except.ok.inj given ▸ own

theorem gives_throw {property : α → Prop} (failure : RunFailure) :
    Gives property (throw failure) := fun _ _ given => by cases given

theorem Gives.bind {property : β → Prop} (action : Action (StateM World) α)
    {next : α → Action (StateM World) β} (later : ∀ value, Gives property (next value)) :
    Gives property (action >>= next) := by
  intro world value given
  rw [carryOut_bind] at given
  generalize carryOut action world = reached at given
  obtain ⟨failure | first, after⟩ := reached
  · cases given
  · exact later first after value given

variable (trees? : Option TreeLibrary) (settings : Settings) (inputs : List Text)
  (inline : Option Text)

/-- The text strategy gives classes that are legible. -/
theorem legible_extractWith (text : settings.strategy = .text) :
    Gives (ClassSet.Each ClassDecl.Legible) (extractWith trees? settings inputs inline) := by
  unfold extractWith
  rw [text]
  apply Gives.bind
  intro _
  apply Gives.bind
  intro units
  apply Gives.bind
  intro _
  exact gives_pure _ (ClassSet.legible_extractUnits ClassSet.each_empty units)

/-- The names of extracted classes can be steps of a path. -/
theorem filed_extractWith (filed : ∀ trees ∈ trees?, TreeLibrary.Filed trees) :
    Gives (ClassSet.Each ClassDecl.Filed) (extractWith trees? settings inputs inline) := by
  cases strategy : settings.strategy with
  | text =>
    intro world classes given
    have legible := legible_extractWith trees? settings inputs inline strategy world classes given
    exact ⟨legible.apart, fun decl member => (legible.classes decl member).filed⟩
  | clang =>
    unfold extractWith
    rw [strategy]
    cases trees? with
    | none => exact gives_throw _
    | some trees =>
      apply Gives.bind
      intro _
      apply Gives.bind
      intro units
      apply Gives.bind
      intro _
      split
      · next classes extracted =>
        exact gives_pure _
          (filed_extractTrees trees (filed trees rfl) units .empty ClassSet.each_empty classes extracted)
      · exact gives_throw _

end Giving

end Run

section Names

variable (bridge : Text) {set : ClassSet}

theorem isStep_fileNameOf (name : Text) (slash : '/' ∉ name) :
    Path.IsStep (ScriptModule.fileNameOf name) :=
  ⟨by simp [ScriptModule.fileNameOf], by simp [ScriptModule.fileNameOf, slash]⟩

theorem fileNames_generatedFiles (bridge : Text) (set : ClassSet) :
    (generatedFiles bridge set).map (·.fileName) = set.names.map ScriptModule.fileNameOf := by
  simp [generatedFiles, ClassSet.names, GeneratedFile.reflowed, GeneratedFile.ofClass]

theorem ClassSet.Each.steps (each : set.Each ClassDecl.Filed) :
    ∀ file ∈ generatedFiles bridge set, Path.IsStep file.fileName := by
  intro file member
  obtain ⟨decl, known, rfl⟩ := List.mem_map.mp member
  exact isStep_fileNameOf decl.name (each.classes decl known)

/-- Classes of different names have files of different names. -/
theorem ClassSet.Each.apartFiles {property : ClassDecl → Prop} (each : set.Each property) :
    ((generatedFiles bridge set).map (·.fileName)).Nodup := by
  rw [fileNames_generatedFiles]
  exact each.apart.map fun _ _ same => List.append_cancel_right same

end Names

namespace Run

/-- Files stand complete in the directory that a path leads to, and no other file has changed. -/
structure Written (directory : Text) (home : List Text) (files : List GeneratedFile)
    (before after : FileTree) : Prop where
  leads : files ≠ [] → after.LeadsTo directory home
  stored : ∀ file ∈ files, after.file? (home ++ [file.fileName]) = some (some file.source)
  readable : ∀ file ∈ files,
    after.readText? (Path.join directory file.fileName) = some file.source
  others : ∀ names, (∀ file ∈ files, names ≠ home ++ [file.fileName]) →
    after.file? names = before.file? names

section Producing

variable (directory : Text) (files : List GeneratedFile)

theorem carryOut_write (world : World) : carryOut (write directory files) world =
    match world.tree.makeDirectories directory with
    | (true, tree) => carryOut (writeFiles directory files) ⟨tree, world.events⟩
    | (false, tree) => (.error (.unwritable directory), ⟨tree, world.events⟩) := by
  have made : (FileSystem.makeDirectories directory : StateM World Bool).run world =
      ((world.tree.makeDirectories directory).1,
        ⟨(world.tree.makeDirectories directory).2, world.events⟩) := rfl
  rw [write, carryOut_bind, carryOut_lift, made]
  rcases world.tree.makeDirectories directory with ⟨_ | _, tree⟩
  · rfl
  · rfl

/-- How writing files ends: the directory cannot be made, or the files up to the first that cannot be
written are there; where all of them are, it gives a value. -/
inductive Ends {α : Type} (directory : Text) (files : List GeneratedFile) (value : α)
    (before after : FileTree) : Except RunFailure α → Prop where
  | homeless (same : ∀ names, after.file? names = before.file? names) :
      Ends directory files value before after (.error (.unwritable directory))
  | partly (done : List GeneratedFile) (file : GeneratedFile) (rest : List GeneratedFile)
      (home : List Text) (split : files = done ++ file :: rest)
      (written : Written directory home done before after) :
      Ends directory files value before after
        (.error (.unwritable (Path.join directory file.fileName)))
  | complete (home : List Text) (written : Written directory home files before after) :
      Ends directory files value before after (.ok value)

variable (steps : ∀ file ∈ files, Path.IsStep file.fileName)
  (apart : (files.map (·.fileName)).Nodup)

include steps apart

theorem ends_write (world : World) :
    Ends directory files () world.tree (carryOut (write directory files) world).2.tree
      (carryOut (write directory files) world).1 := by
  have kept := world.tree.file_makeDirectories directory
  rw [carryOut_write]
  generalize world.tree.makeDirectories directory = made at kept ⊢
  obtain ⟨_ | _, tree⟩ := made
  · exact .homeless kept
  · dsimp only at kept ⊢
    obtain ⟨done, rest, home, split, wrote, result⟩ :=
      carryOut_writeFiles directory files steps ⟨tree, world.events⟩
    have front : done.Sublist files := split ▸ List.sublist_append_left done rest
    have steps' : ∀ file ∈ done, Path.IsStep file.fileName :=
      fun file member => steps file (front.subset member)
    have apart' : (done.map (·.fileName)).Nodup := (front.map _).nodup apart
    have written : Written directory home done world.tree
        (carryOut (writeFiles directory files) ⟨tree, world.events⟩).2.tree := by
      refine ⟨fun some => (wrote.leads some).grows wrote.grows, ?_,
        wrote.readText steps' apart', ?_⟩
      · intro file member
        rw [wrote.result]
        exact file_stored home done tree apart' file member
      · intro names other
        exact (wrote.file names other).trans (kept names)
    rw [result]
    cases rest with
    | nil =>
      rw [List.append_nil] at split
      exact .complete home (split ▸ written)
    | cons file rest => exact .partly done file rest home split written

end Producing

/-- Making the modules of classes ends as writing them does. -/
theorem ends_produce (settings : Settings) {classes : ClassSet}
    (each : classes.Each ClassDecl.Filed) (world : World) :
    Ends settings.outputDir (generatedFiles settings.bridge classes)
      (Summary.of classes (generatedFiles settings.bridge classes)) world.tree
      (carryOut (produce settings classes) world).2.tree
      (carryOut (produce settings classes) world).1 := by
  have ends := ends_write settings.outputDir (generatedFiles settings.bridge classes)
    (each.steps settings.bridge) (each.apartFiles settings.bridge)
    ⟨world.tree, world.events ++ classes.classes.flatMap (moduleEvents settings.bridge classes)⟩
  rw [produce, carryOut_bind, carryOut_lift, run_reportAll]
  dsimp only at ends ⊢
  rw [carryOut_bind]
  generalize carryOut (write settings.outputDir (generatedFiles settings.bridge classes)) _ = written
    at ends ⊢
  obtain ⟨failure | done, after⟩ := written
  · cases ends with
    | homeless same => exact .homeless same
    | partly done file rest home split written => exact .partly done file rest home split written
  · cases ends with
    | complete home written => exact .complete home written

end Run

end HeaderBindings
