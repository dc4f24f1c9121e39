import HeaderBindings.Files.Tree
import HeaderBindings.Proofs.Text.Lines

/-!
What writing does to a tree of files. A tree is read through what stands under names; putting a node
changes only its own names, making directories changes no file, and a directory that a path leads to
is still found there when more has been put into the tree.
-/

namespace HeaderBindings

namespace Path

theorem steps_slash (path rest : Text) : steps (path ++ '/' :: rest) = steps path ++ steps rest := by
  simp [steps, Text.piecesWhere_mark isSlash path rest '/' rfl]

/-- A text that is one step of a path. -/
structure IsStep (name : Text) : Prop where
  written : name ≠ []
  slash : '/' ∉ name

variable {name : Text}

theorem steps_step (step : IsStep name) : steps name = [name] := by
  have free : ∀ c ∈ name, isSlash c = false := by
    intro c member
    have other : c ≠ '/' := fun same => step.slash (same ▸ member)
    simpa [isSlash] using other
  simp [steps, Text.piecesWhere, Text.cutWhere_free isSlash name free, step.written]

/-- A name joined to a path is its last step. -/
theorem steps_join (path : Text) (step : IsStep name) :
    steps (join path name) = steps path ++ [name] := by
  rw [← steps_step step]
  unfold join
  split
  · next bare =>
    simp only [Bool.or_eq_true, List.isEmpty_iff, beq_iff_eq] at bare
    rcases bare with rfl | slash
    · rfl
    · obtain ⟨front, rfl⟩ := List.getLast?_eq_some_iff.mp slash
      rw [List.append_assoc, List.singleton_append, steps_slash, steps_slash]
      simp [steps, Text.piecesWhere, Text.cutWhere]
  · exact steps_slash path name

end Path

namespace FileTree

/-- The content of the file under names. -/
def file? (tree : FileTree) (names : List Text) : Option (Option Text) :=
  match tree.node? names with
  | some (.file content) => some content
  | _ => none

section Putting

variable (tree : FileTree) (names : List Text) (named : names ≠ []) (node : FileNode)

include named in
theorem node_put (other : List Text) :
    (tree.put names node).node? other = if other = names then some node else tree.node? other := by
  by_cases top : other = []
  · subst top
    simp [node?, Ne.symm named]
  unfold put
  have unnamed : names.isEmpty = false := by simp [named]
  have written : other.isEmpty = false := by simp [top]
  simp only [node?, unnamed, written, Bool.false_eq_true, if_false]
  split
  · next known =>
    -- Each node keeps its names, so the search finds the entry in its place.
    have kept : ((fun entry : List Text × FileNode => entry.1 == other) ∘
        fun entry => if entry.1 = names then (names, node) else entry) = (·.1 == other) := by
      funext entry
      by_cases same : entry.1 = names <;> simp [same]
    rw [List.find?_map, kept]
    by_cases same : other = names
    · subst same
      simp only [if_true, Option.map_map]
      rw [Option.isSome_map] at known
      obtain ⟨entry, found⟩ := Option.isSome_iff_exists.mp known
      have here : entry.1 = other := by simpa using List.find?_some found
      simp [found, here]
    · simp only [same, if_false, Option.map_map]
      apply Option.map_congr
      intro entry found
      have here : entry.1 = other := by simpa using List.find?_some found
      simp [here, same]
  · next fresh =>
    rw [List.find?_append, Option.map_or]
    by_cases same : other = names
    · subst same
      rw [Option.isSome_map, Option.not_isSome_iff_eq_none] at fresh
      simp [fresh]
    · have apart : ¬ names = other := fun equal => same equal.symm
      simp [same, apart]

include named in
theorem file_put (content : Option Text) (other : List Text) :
    (tree.put names (.file content)).file? other =
      if other = names then some content else tree.file? other := by
  unfold file?
  rw [node_put tree names named]
  by_cases same : other = names <;> simp [same]

include named in
theorem file_put_directory (free : tree.node? names = none) (other : List Text) :
    (tree.put names .directory).file? other = tree.file? other := by
  unfold file?
  rw [node_put tree names named]
  by_cases same : other = names
  · simp [same, free]
  · simp [same]

end Putting

/-- One tree has what another one has: its directories are there, and a node wherever it has one. -/
structure Grows (before after : FileTree) : Prop where
  directory : ∀ names, before.isDirectoryAt names = true → after.isDirectoryAt names = true
  known : ∀ names, (before.node? names).isSome = true → (after.node? names).isSome = true

theorem grows_refl (tree : FileTree) : Grows tree tree := ⟨fun _ same => same, fun _ same => same⟩

theorem Grows.trans {first second third : FileTree} (here : Grows first second)
    (later : Grows second third) : Grows first third :=
  ⟨fun names directory => later.directory names (here.directory names directory),
    fun names known => later.known names (here.known names known)⟩

theorem Grows.follow {before after : FileTree} (grows : Grows before after)
    (here steps names : List Text) (leads : before.follow here steps = some names) :
    after.follow here steps = some names := by
  fun_induction FileTree.follow before here steps with
  | case1 here => simpa [FileTree.follow] using leads
  | case2 here step steps blocked => cases leads
  | case3 here steps open' ih =>
    have directory := grows.directory here (by simpa using open')
    simpa [FileTree.follow, directory] using ih leads
  | case4 here steps open' _ ih =>
    have directory := grows.directory here (by simpa using open')
    simpa [FileTree.follow, directory] using ih leads
  | case5 here step steps open' stays back known ih =>
    have directory := grows.directory here (by simpa using open')
    simpa [FileTree.follow, directory, stays, back, grows.known _ known] using ih leads
  | case6 => cases leads

-- A file may stand where no directory does without blocking any path.
theorem grows_put (tree : FileTree) (names : List Text) (named : names ≠ []) (content : Option Text)
    (free : tree.isDirectoryAt names = false) : Grows tree (tree.put names (.file content)) := by
  constructor
  · intro other directory
    have apart : other ≠ names := by
      rintro rfl
      rw [free] at directory
      cases directory
    simpa [isDirectoryAt, node_put tree names named, apart] using directory
  · intro other known
    rw [node_put tree names named]
    split
    · rfl
    · exact known

section Making

theorem file_makeDirectory (tree after : FileTree) (path : Text)
    (made : tree.makeDirectory path = .made after) (names : List Text) :
    after.file? names = tree.file? names := by
  unfold makeDirectory at made
  dsimp only at made
  split at made
  · next name _ _ =>
    split at made
    · next home _ =>
      split at made
      · cases made
      · next open' =>
        cases made
        simp only [Bool.or_eq_true, not_or, Bool.not_eq_true, Option.isSome_eq_false_iff,
          Option.isNone_iff_eq_none] at open'
        exact file_put_directory tree _ (by simp) open'.2 names
    · split at made <;> cases made
  · cases made

theorem file_makeLast (tree : FileTree) (path : Text) (names : List Text) :
    (tree.makeLast path).2.file? names = tree.file? names := by
  unfold makeLast
  split
  · next after made => exact file_makeDirectory tree after path made names
  · rfl

/-- Making directories changes no file, whether or not it succeeds. -/
theorem file_makeDirectories (tree : FileTree) (path : Text) (names : List Text) :
    (tree.makeDirectories path).2.file? names = tree.file? names := by
  unfold makeDirectories
  generalize Path.above path = above
  induction above generalizing path with
  | nil =>
    unfold makeDirectoriesBelow
    split
    · rfl
    · exact file_makeLast tree path names
  | cons parent above ih =>
    have upper := ih parent
    unfold makeDirectoriesBelow
    split
    · split
      · next after made =>
        rw [made] at upper
        rw [file_makeLast after path names]
        exact upper
      · next after refused =>
        rw [refused] at upper
        exact upper
    · exact file_makeLast tree path names

end Making

/-- A path leads to a directory. -/
structure LeadsTo (tree : FileTree) (path : Text) (home : List Text) : Prop where
  follows : tree.follow [] (Path.steps path) = some home
  directory : tree.isDirectoryAt home = true

theorem LeadsTo.grows {before after : FileTree} {path : Text} {home : List Text}
    (leads : before.LeadsTo path home) (grows : Grows before after) : after.LeadsTo path home :=
  ⟨grows.follow [] _ home leads.follows, grows.directory home leads.directory⟩

theorem follow_append (tree : FileTree) (here front back : List Text) :
    tree.follow here (front ++ back) = (tree.follow here front).bind (tree.follow · back) := by
  fun_induction FileTree.follow tree here front with
  | case1 here => rfl
  | case2 here step steps blocked => simp_all [FileTree.follow]
  | case3 here steps open' ih => simpa [FileTree.follow, open'] using ih
  | case4 here steps open' _ ih => simpa [FileTree.follow, open'] using ih
  | case5 here step steps open' stays back' known ih =>
    simpa [FileTree.follow, open', stays, back', known] using ih
  | case6 here step steps open' stays back' missing =>
    simp [FileTree.follow, open', stays, back', missing]

/-- A name that a file can have below a path: the path of the file is usable, and the name stays
below the directory. -/
structure NamesFile (directory name : Text) : Prop where
  usable : Path.usable (Path.join directory name) = true
  ending : endsInSlash (Path.join directory name) = false
  stays : name ≠ ['.'] ∧ name ≠ ['.', '.']

/-- A file of a directory is read under its name joined to a path that leads there. -/
theorem readText_join (tree : FileTree) (directory name : Text) (home : List Text)
    (step : Path.IsStep name) (names : NamesFile directory name)
    (leads : tree.LeadsTo directory home) (content : Option Text)
    (stored : tree.file? (home ++ [name]) = some content) :
    tree.readText? (Path.join directory name) = content := by
  have node : tree.node? (home ++ [name]) = some (.file content) := by
    unfold file? at stored
    split at stored
    · next found => rw [found, Option.some.inj stored]
    · cases stored
  have last : tree.follow home [name] = some (home ++ [name]) := by
    simp [FileTree.follow, leads.directory, names.stays, node]
  have found : tree.lookup (Path.join directory name) = some (home ++ [name], .file content) := by
    simp only [lookup, names.usable, names.ending, Path.steps_join directory step, follow_append,
      leads.follows, Option.bind_some, last, node]
    rfl
  rw [readText?, found]

/-- Writing fails and changes nothing, or puts a file into the directory that the path leads to, in
place of no directory. -/
theorem writeText_cases (tree : FileTree) (directory name content : Text) (step : Path.IsStep name) :
    tree.writeText (Path.join directory name) content = (false, tree) ∨
      ∃ home, tree.LeadsTo directory home ∧ NamesFile directory name ∧
        tree.isDirectoryAt (home ++ [name]) = false ∧
        tree.writeText (Path.join directory name) content =
          (true, tree.put (home ++ [name]) (.file (some content))) := by
  have steps := Path.steps_join directory step
  by_cases fit : (Path.usable (Path.join directory name) &&
      !endsInSlash (Path.join directory name)) = true
  · simp only [writeText, steps, fit, List.getLast?_concat, List.dropLast_concat]
    simp only [Bool.and_eq_true, Bool.not_eq_true'] at fit
    cases found : tree.follow [] (Path.steps directory) with
    | none => exact Or.inl rfl
    | some home =>
      dsimp only
      split
      · exact Or.inl rfl
      · next open' =>
        simp only [Bool.or_eq_true, Bool.not_eq_true', decide_eq_true_eq, not_or,
          Bool.not_eq_false, Bool.not_eq_true] at open'
        obtain ⟨⟨⟨directory, here⟩, above⟩, free⟩ := open'
        exact Or.inr ⟨home, ⟨found, directory⟩, ⟨fit.1, fit.2, here, above⟩, free, rfl⟩
  · rw [Bool.not_eq_true] at fit
    simp [writeText, fit]

end FileTree

end HeaderBindings
