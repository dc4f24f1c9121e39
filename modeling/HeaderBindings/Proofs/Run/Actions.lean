import HeaderBindings.Proofs.Files.Writing
import HeaderBindings.Run.Generate

/-!
What the actions of a run do to a tree of files. Everything before the first file is written only
looks and reports, which leaves the tree as it is; writing files puts them into one directory, one
after another, up to the first that cannot be written.
-/

namespace HeaderBindings

namespace Run

variable {α β : Type}

instance decidableOutcome [DecidableEq α] : DecidableEq (Except RunFailure α)
  | .ok first, .ok second => decidable_of_iff (first = second) (by simp)
  | .error first, .error second => decidable_of_iff (first = second) (by simp)
  | .ok _, .error _ => isFalse nofun
  | .error _, .ok _ => isFalse nofun

/-- What an action gives in a world, and the world that it leaves. -/
def carryOut (action : Action (StateM World) α) (world : World) : Except RunFailure α × World :=
  action.run.run world

theorem carryOut_bind (action : Action (StateM World) α) (next : α → Action (StateM World) β)
    (world : World) : carryOut (action >>= next) world =
      match carryOut action world with
      | (.ok value, after) => carryOut (next value) after
      | (.error failure, after) => (.error failure, after) := by
  unfold carryOut
  simp only [ExceptT.run_bind, StateT.run_bind]
  rcases action.run.run world with ⟨_ | value, after⟩ <;> rfl

theorem carryOut_lift (action : StateM World α) (world : World) :
    carryOut (liftM action) world = (.ok (action.run world).1, (action.run world).2) := rfl

theorem run_reportAll (events : List Event) (world : World) :
    (FileSystem.reportAll events : StateM World Unit).run world =
      ((), ⟨world.tree, world.events ++ events⟩) := by
  induction events generalizing world with
  | nil =>
    rw [List.append_nil]
    rfl
  | cons event events ih =>
    have later := ih ⟨world.tree, world.events ++ [event]⟩
    rw [List.append_assoc, List.singleton_append] at later
    exact later

section Looking

/-- An action that leaves the tree as it is, and so does not fail to write. -/
structure Looks (action : Action (StateM World) α) : Prop where
  tree : ∀ world, (carryOut action world).2.tree = world.tree
  failure : ∀ world path, (carryOut action world).1 ≠ .error (.unwritable path)

theorem looks_pure (value : α) : Looks (pure value) := ⟨fun _ => rfl, fun _ _ => nofun⟩

theorem looks_throw (failure : RunFailure) (other : ∀ path, failure ≠ .unwritable path) :
    Looks (throw failure : Action (StateM World) α) :=
  ⟨fun _ => rfl, fun _ path same => other path (Except.error.inj same)⟩

theorem looks_question (question : FileTree → α) : Looks (liftM (World.look question)) :=
  ⟨fun _ => rfl, fun _ _ => nofun⟩

theorem looks_report (event : Event) :
    Looks (liftM (FileSystem.report event : StateM World Unit)) := ⟨fun _ => rfl, fun _ _ => nofun⟩

theorem looks_reportAll (events : List Event) :
    Looks (liftM (FileSystem.reportAll events : StateM World Unit)) := by
  constructor
  · intro world
    rw [carryOut_lift, run_reportAll]
  · exact fun _ _ => nofun

theorem Looks.bind {action : Action (StateM World) α} {next : α → Action (StateM World) β}
    (first : Looks action) (later : ∀ value, Looks (next value)) : Looks (action >>= next) := by
  constructor
  · intro world
    have here := first.tree world
    rw [carryOut_bind]
    generalize carryOut action world = reached at here ⊢
    obtain ⟨failure | value, after⟩ := reached
    · exact here
    · exact ((later value).tree after).trans here
  · intro world path
    have here := first.failure world path
    rw [carryOut_bind]
    generalize carryOut action world = reached at here ⊢
    obtain ⟨failure | value, after⟩ := reached
    · exact fun same => here (congrArg Except.error (Except.error.inj same))
    · exact (later value).failure after path

variable (inputs : List Text) (inline : Option Text)

theorem looks_headersAmong (headersIn : Text → Action (StateM World) (List Text))
    (below : ∀ path, Looks (headersIn path)) (directory : Text)
    (entries : List (Text × FileKind)) : Looks (headersAmong headersIn directory entries) := by
  induction entries with
  | nil => exact looks_pure _
  | cons entry entries ih =>
    obtain ⟨name, kind⟩ := entry
    have later (found : List Text) : Looks (do
        return found ++ (← headersAmong headersIn directory entries)) :=
      ih.bind fun others => looks_pure _
    cases kind with
    | directory => exact (below _).bind later
    | file => exact (looks_pure _).bind later
    | other => exact (looks_pure _).bind later

theorem looks_headersBelow (depth : Nat) (directory : Text) :
    Looks (headersBelow (m := StateM World) depth directory) := by
  induction depth generalizing directory with
  | zero => exact looks_throw _ nofun
  | succ depth ih =>
    apply (looks_question (·.entries? directory)).bind
    intro entries?
    cases entries? with
    | none => exact looks_throw _ nofun
    | some entries => exact looks_headersAmong _ ih directory _

theorem looks_collectInputs : Looks (collectInputs (m := StateM World) inputs) := by
  induction inputs with
  | nil => exact looks_pure _
  | cons input inputs ih =>
    apply Looks.bind
    · apply (looks_question (·.kind? input)).bind
      intro kind?
      match kind? with
      | none => exact looks_throw _ nofun
      | some .directory => exact looks_headersBelow depthLimit input
      | some .file => exact looks_pure _
      | some .other => exact looks_pure _
    · exact fun headers => ih.bind fun later => looks_pure _

theorem looks_readUnits (paths : List Text) : Looks (readUnits (m := StateM World) paths) := by
  induction paths with
  | nil => exact looks_pure _
  | cons path paths ih =>
    apply Looks.bind
    · apply (looks_question (·.readText? path)).bind
      intro content?
      cases content? with
      | none => exact looks_throw _ nofun
      | some content => exact looks_pure _
    · exact fun unit => ih.bind fun later => looks_pure _

theorem looks_unitsOf : Looks (unitsOf (m := StateM World) inputs inline) :=
  (looks_collectInputs inputs).bind fun paths =>
    (looks_readUnits paths).bind fun _ => looks_pure _

/-- A library that does not fail to write, since it only reads. -/
def TreeLibrary.Reads (trees : TreeLibrary) : Prop := ∀ unit path, trees unit ≠ .error (.unwritable path)

theorem failure_extractTrees (trees : TreeLibrary) (reads : trees.Reads) (set : ClassSet)
    (units : List SourceUnit) (path : Text) :
    (extractTrees trees set units).1 ≠ .error (.unwritable path) := by
  induction units generalizing set with
  | nil => exact nofun
  | cons unit units ih =>
    rw [extractTrees]
    split
    · next failure missing =>
      intro same
      exact reads unit path (missing.trans (congrArg Except.error (Except.error.inj same)))
    · exact ih _

/-- Reading all headers and extracting their classes leaves the tree as it is, with or without a
compiler's library and wherever it fails. -/
theorem looks_extractWith (trees? : Option TreeLibrary) (reads : ∀ trees ∈ trees?, trees.Reads)
    (settings : Settings) :
    Looks (extractWith (m := StateM World) trees? settings inputs inline) := by
  unfold extractWith
  split
  · exact looks_throw _ nofun
  · next trees _ =>
    apply (looks_report _).bind
    intro _
    apply (looks_unitsOf inputs inline).bind
    intro units
    apply (looks_reportAll _).bind
    intro _
    have unwritten := failure_extractTrees trees (reads trees rfl) .empty units
    split
    · exact looks_pure _
    · next failure failed =>
      rw [failed] at unwritten
      exact looks_throw _ fun path same => unwritten path (congrArg Except.error same)
  · apply (looks_report _).bind
    intro _
    apply (looks_unitsOf inputs inline).bind
    intro units
    exact (looks_reportAll _).bind fun _ => looks_pure _

end Looking

section Writing

/-- A tree with files put into a directory, one after another. -/
def stored (home : List Text) (files : List GeneratedFile) (tree : FileTree) : FileTree :=
  files.foldl (fun tree file => tree.put (home ++ [file.fileName]) (.file (some file.source))) tree

theorem file_stored_other (home : List Text) (files : List GeneratedFile) (tree : FileTree)
    (names : List Text) (other : ∀ file ∈ files, names ≠ home ++ [file.fileName]) :
    (stored home files tree).file? names = tree.file? names := by
  induction files generalizing tree with
  | nil => rfl
  | cons file files ih =>
    have later := ih (tree.put (home ++ [file.fileName]) (.file (some file.source)))
      fun next member => other next (List.mem_cons_of_mem file member)
    rw [stored, List.foldl_cons]
    refine later.trans ?_
    rw [FileTree.file_put tree _ (by simp), if_neg (other file List.mem_cons_self)]

/-- Files of different names are all there once they are stored. -/
theorem file_stored (home : List Text) (files : List GeneratedFile) (tree : FileTree)
    (apart : (files.map (·.fileName)).Nodup) (file : GeneratedFile) (member : file ∈ files) :
    (stored home files tree).file? (home ++ [file.fileName]) = some (some file.source) := by
  induction files generalizing tree with
  | nil => cases member
  | cons first files ih =>
    obtain ⟨fresh, apart⟩ := List.nodup_cons.mp apart
    rw [stored, List.foldl_cons]
    rcases List.mem_cons.mp member with rfl | later
    · rw [← stored, file_stored_other]
      · rw [FileTree.file_put tree _ (by simp), if_pos rfl]
      · intro next known same
        have equal : next.fileName = file.fileName := by simpa using same.symm
        exact fresh (List.mem_map.mpr ⟨next, known, equal⟩)
    · exact ih _ apart later

theorem carryOut_writeFiles_cons (directory : Text) (file : GeneratedFile)
    (files : List GeneratedFile) (world : World) :
    carryOut (writeFiles directory (file :: files)) world =
      match world.tree.writeText (Path.join directory file.fileName) file.source with
      | (true, tree) => carryOut (writeFiles directory files)
          ⟨tree, world.events ++ [wroteModule (Path.join directory file.fileName)]⟩
      | (false, tree) =>
        (.error (.unwritable (Path.join directory file.fileName)), ⟨tree, world.events⟩) := by
  rw [writeFiles, carryOut_bind, carryOut_lift]
  have written : (FileSystem.writeText (Path.join directory file.fileName) file.source :
      StateM World Bool).run world =
        ((world.tree.writeText (Path.join directory file.fileName) file.source).1,
          ⟨(world.tree.writeText (Path.join directory file.fileName) file.source).2,
            world.events⟩) := rfl
  rw [written]
  rcases world.tree.writeText (Path.join directory file.fileName) file.source with ⟨_ | _, tree⟩
  · rfl
  · rfl

/-- Files have been put into the directory that a path leads to. -/
structure Wrote (directory : Text) (home : List Text) (files : List GeneratedFile)
    (before after : FileTree) : Prop where
  leads : files ≠ [] → before.LeadsTo directory home
  names : ∀ file ∈ files, FileTree.NamesFile directory file.fileName
  grows : FileTree.Grows before after
  result : after = stored home files before

/-- Writing files gets through them up to the first that cannot be written. -/
theorem carryOut_writeFiles (directory : Text) (files : List GeneratedFile)
    (steps : ∀ file ∈ files, Path.IsStep file.fileName) (world : World) :
    ∃ done rest home, files = done ++ rest ∧
      Wrote directory home done world.tree
        (carryOut (writeFiles directory files) world).2.tree ∧
      (carryOut (writeFiles directory files) world).1 = match rest.head? with
        | some file => .error (.unwritable (Path.join directory file.fileName))
        | none => .ok () := by
  -- By the files still to be written; each step sees the tree that the ones before it left.
  induction files generalizing world with
  | nil => exact ⟨[], [], [], rfl, ⟨by simp, by simp, FileTree.grows_refl _, rfl⟩, rfl⟩
  | cons file files ih =>
    rw [carryOut_writeFiles_cons]
    rcases world.tree.writeText_cases directory file.fileName file.source
        (steps file List.mem_cons_self) with failed | ⟨home, leads, names, free, wrote⟩
    · rw [failed]
      exact ⟨[], file :: files, [], rfl, ⟨by simp, by simp, FileTree.grows_refl _, rfl⟩, rfl⟩
    · rw [wrote]
      dsimp only
      have grown := FileTree.grows_put world.tree _ (by simp) (some file.source) free
      obtain ⟨done, rest, home', split, later, result⟩ :=
        ih (fun next member => steps next (List.mem_cons_of_mem file member))
          ⟨world.tree.put (home ++ [file.fileName]) (.file (some file.source)),
            world.events ++ [wroteModule (Path.join directory file.fileName)]⟩
      refine ⟨file :: done, rest, home, by rw [split]; rfl, ?_, result⟩
      refine ⟨fun _ => leads, ?_, grown.trans later.grows, ?_⟩
      · exact List.forall_mem_cons.mpr ⟨names, later.names⟩
      · -- The path leads where it led before, whatever has been written since.
        have same : done ≠ [] → home' = home := by
          intro written
          have before := (leads.grows grown).follows
          rw [(later.leads written).follows] at before
          exact Option.some.inj before
        rw [later.result]
        by_cases written : done = []
        · rw [written]
          rfl
        · rw [same written]
          rfl

variable {directory : Text} {home : List Text} {files : List GeneratedFile}
  {before after : FileTree}

theorem Wrote.readText (wrote : Wrote directory home files before after)
    (steps : ∀ file ∈ files, Path.IsStep file.fileName)
    (apart : (files.map (·.fileName)).Nodup) (file : GeneratedFile) (member : file ∈ files) :
    after.readText? (Path.join directory file.fileName) = some file.source := by
  have leads := (wrote.leads (List.ne_nil_of_mem member)).grows wrote.grows
  apply after.readText_join directory file.fileName home (steps file member)
    (wrote.names file member) leads
  rw [wrote.result]
  exact file_stored home files before apart file member

theorem Wrote.file (wrote : Wrote directory home files before after) (names : List Text)
    (other : ∀ file ∈ files, names ≠ home ++ [file.fileName]) :
    after.file? names = before.file? names := by
  rw [wrote.result]
  exact file_stored_other home files before names other

end Writing

end Run

end HeaderBindings
