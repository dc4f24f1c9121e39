import HeaderBindings.Proofs.Files.Ordering
import HeaderBindings.Proofs.Run.Actions
import HeaderBindings.Proofs.Text.Bytes
import Mathlib

/-!
The inputs of a run, collected from a tree of files that does not change meanwhile. What can be
seen of such a tree is the kind of each path and the entries of each directory. A directory input
stands for the headers below it: exactly the regular files with the extension of headers, each once,
in the order of their names step by step.
-/

namespace HeaderBindings

namespace Path

/-- An extension stands behind the last dot of a name, and something in front of that dot. -/
def HasExtension (name extension : Text) : Prop :=
  name ≠ ['.', '.'] ∧ ∃ stem, name = stem ++ '.' :: extension ∧ stem ≠ [] ∧ '.' ∉ extension

theorem isHeaderName_iff (name : Text) : isHeaderName name = true ↔ HasExtension name ['h'] := by
  constructor
  · intro header
    unfold isHeaderName at header
    split at header
    · next c stem backwards =>
      have whole : name = (c :: stem).reverse ++ ['.', 'h'] := by
        rw [← List.reverse_reverse name, backwards]
        simp
      have apart : name ≠ ['.', '.'] := by
        rintro rfl
        cases backwards
      exact ⟨apart, _, whole, by simp, by decide⟩
    · cases header
  · rintro ⟨-, stem, rfl, written, -⟩
    obtain ⟨c, front, backwards⟩ := List.exists_cons_of_ne_nil (List.reverse_ne_nil_iff.mpr written)
    simp [isHeaderName, backwards]

/-- The path that names lead to from a directory. -/
def below (directory : Text) (names : List Text) : Text := names.foldl join directory

@[simp] theorem below_nil (directory : Text) : below directory [] = directory := rfl

@[simp] theorem below_cons (directory name : Text) (names : List Text) :
    below directory (name :: names) = below (join directory name) names := rfl

theorem steps_below (directory : Text) (names : List Text) (named : ∀ name ∈ names, IsStep name) :
    steps (below directory names) = steps directory ++ names := by
  induction names generalizing directory with
  | nil => simp
  | cons name names ih =>
    obtain ⟨step, named⟩ := List.forall_mem_cons.mp named
    rw [below_cons, ih _ named, steps_join directory step, List.append_assoc,
      List.singleton_append]

theorem byteCount_join (directory name : Text) :
    directory.byteCount + name.length ≤ (join directory name).byteCount := by
  have own := name.length_le_byteCount
  unfold join
  split <;> simp only [Text.byteCount_append, Text.byteCount] <;> omega

instance : DecidablePred IsStep := fun name =>
  decidable_of_iff (name ≠ [] ∧ '/' ∉ name)
    ⟨fun step => ⟨step.1, step.2⟩, fun step => ⟨step.written, step.slash⟩⟩

end Path

/-- What can be seen of a tree of files without links: the kind of a path and the entries of a
directory, where nothing is answered when there is none or it cannot be read. -/
structure Disk where
  kind? : Text → Option FileKind
  entries? : Text → Option (List (Text × FileKind))

namespace Disk

/-- What holds of every file system: the entries of a directory have different names, each is one
step of a path, and a path that is too long cannot be read. -/
structure WellFormed (disk : Disk) : Prop where
  apart : ∀ directory entries, disk.entries? directory = some entries → (entries.map (·.1)).Nodup
  named : ∀ directory entries, disk.entries? directory = some entries →
    ∀ entry ∈ entries, Path.IsStep entry.1
  short : ∀ directory entries, disk.entries? directory = some entries →
    directory.byteCount ≤ Path.longestPath

variable (disk : Disk)

/-- The names that lead down from a directory to an entry of a kind. -/
inductive Reaches : Text → List Text → FileKind → Prop where
  | entry {directory name : Text} {kind : FileKind} {entries : List (Text × FileKind)}
      (read : disk.entries? directory = some entries) (member : (name, kind) ∈ entries) :
      Reaches directory [name] kind
  | deeper {directory name : Text} {names : List Text} {kind : FileKind}
      {entries : List (Text × FileKind)} (read : disk.entries? directory = some entries)
      (member : (name, .directory) ∈ entries)
      (later : Reaches (Path.join directory name) names kind) :
      Reaches directory (name :: names) kind

/-- A directory and all directories below it can be read. -/
def Readable (directory : Text) : Prop :=
  (disk.entries? directory).isSome ∧
    ∀ names, disk.Reaches directory names .directory →
      (disk.entries? (Path.below directory names)).isSome

/-- The names lead down to a regular file with the extension of headers. -/
def IsHeader (directory : Text) (names : List Text) : Prop :=
  disk.Reaches directory names .file ∧
    ∃ name, names.getLast? = some name ∧ Path.HasExtension name ['h']

/-- The order of names step by step, each by its bytes. -/
def Before (names later : List Text) : Prop := names.map Text.encoded < later.map Text.encoded

/-- The list of the headers below a directory: complete, and in order. -/
structure Lists (directory : Text) (headers : List (List Text)) : Prop where
  ordered : headers.Pairwise Before
  exact : ∀ names, names ∈ headers ↔ disk.IsHeader directory names

/-- The paths that an input stands for. -/
inductive StandsFor (input : Text) : List Text → Prop where
  | itself {kind : FileKind} (known : disk.kind? input = some kind) (other : kind ≠ .directory) :
      StandsFor input [input]
  | headers {headers : List (List Text)} (known : disk.kind? input = some .directory)
      (lists : disk.Lists input headers) (apart : (headers.map (Path.below input)).Nodup) :
      StandsFor input (headers.map (Path.below input))

/-- The input is there, and if it is a directory, it can be read with all directories below it. -/
def Present (input : Text) : Prop :=
  (disk.kind? input).isSome ∧ (disk.kind? input = some .directory → disk.Readable input)

/-- What keeps an input from being collected: it is missing, or it is a directory and it or one
below it cannot be read. -/
inductive Blocks (input : Text) : Text → Prop where
  | missing (unknown : disk.kind? input = none) : Blocks input input
  | closed {names : List Text} (known : disk.kind? input = some .directory)
      (leads : names = [] ∨ disk.Reaches input names .directory)
      (unread : disk.entries? (Path.below input names) = none) : Blocks input (Path.below input names)

/-- What a search below a directory ends with: its headers in order, or a directory that cannot be
read. -/
inductive Finds (directory : Text) : Except RunFailure (List Text) → Prop where
  | found (headers : List (List Text)) (readable : disk.Readable directory)
      (lists : disk.Lists directory headers) :
      Finds directory (.ok (headers.map (Path.below directory)))
  | closed (names : List Text) (leads : names = [] ∨ disk.Reaches directory names .directory)
      (unread : disk.entries? (Path.below directory names) = none) :
      Finds directory (.error (.unreadable (Path.below directory names)))

section Entries

variable {disk} {directory : Text} {entries : List (Text × FileKind)}

/-- The names of a header that is an entry of a directory, or below an entry that is one itself. -/
inductive HeaderAt (disk : Disk) (directory name : Text) : FileKind → List Text → Prop where
  | file (extension : Path.HasExtension name ['h']) : HeaderAt disk directory name .file [name]
  | below {names : List Text} (header : disk.IsHeader (Path.join directory name) names) :
      HeaderAt disk directory name .directory (name :: names)

theorem reaches_iff (read : disk.entries? directory = some entries) (names : List Text)
    (kind : FileKind) : disk.Reaches directory names kind ↔
      ∃ entry ∈ entries, (names = [entry.1] ∧ kind = entry.2) ∨
        entry.2 = .directory ∧ ∃ later, names = entry.1 :: later ∧
          disk.Reaches (Path.join directory entry.1) later kind := by
  constructor
  · intro reaches
    cases reaches with
    | entry known member =>
      rw [read] at known
      cases known
      exact ⟨_, member, .inl ⟨rfl, rfl⟩⟩
    | deeper known member later =>
      rw [read] at known
      cases known
      exact ⟨_, member, .inr ⟨rfl, _, rfl, later⟩⟩
  · rintro ⟨⟨name, kind⟩, member, ⟨rfl, rfl⟩ | ⟨rfl, later, rfl, reaches⟩⟩
    · exact .entry read member
    · exact .deeper read member reaches

/-- The headers below a directory are those of its entries. -/
theorem isHeader_iff (read : disk.entries? directory = some entries) (names : List Text) :
    disk.IsHeader directory names ↔ ∃ entry ∈ entries, HeaderAt disk directory entry.1 entry.2 names := by
  unfold IsHeader
  rw [reaches_iff read]
  constructor
  · rintro ⟨⟨⟨name, kind⟩, member, ⟨rfl, rfl⟩ | ⟨rfl, later, rfl, reaches⟩⟩, last, ends, extension⟩
    · cases ends
      exact ⟨_, member, .file extension⟩
    · refine ⟨_, member, .below ⟨reaches, last, ?_, extension⟩⟩
      cases reaches <;> simpa using ends
  · rintro ⟨⟨name, kind⟩, member, here⟩
    cases here with
    | file extension => exact ⟨⟨_, member, .inl ⟨rfl, rfl⟩⟩, name, rfl, extension⟩
    | below header =>
      obtain ⟨reaches, last, ends, extension⟩ := header
      refine ⟨⟨_, member, .inr ⟨rfl, _, rfl, reaches⟩⟩, last, ?_, extension⟩
      simp [List.getLast?_cons, ends]

theorem HeaderAt.starts {name : Text} {kind : FileKind} {names : List Text}
    (header : HeaderAt disk directory name kind names) : ∃ later, names = name :: later := by
  cases header with
  | file => exact ⟨[], rfl⟩
  | below => exact ⟨_, rfl⟩

theorem readable_iff (read : disk.entries? directory = some entries) :
    disk.Readable directory ↔
      ∀ entry ∈ entries, entry.2 = .directory → disk.Readable (Path.join directory entry.1) := by
  unfold Readable
  constructor
  · rintro ⟨-, readable⟩ ⟨name, kind⟩ member rfl
    refine ⟨readable [name] (.entry read member), ?_⟩
    exact fun names reaches => readable (name :: names) (.deeper read member reaches)
  · intro readable
    refine ⟨by rw [read]; rfl, fun names reaches => ?_⟩
    obtain ⟨entry, member, ⟨rfl, here⟩ | ⟨here, later, rfl, inner⟩⟩ :=
      (reaches_iff read _ _).mp reaches
    · exact (readable entry member here.symm).1
    · exact (readable entry member here).2 later inner

/-- What a search through some entries of a directory ends with. -/
inductive FindsAmong (disk : Disk) (directory : Text) (entries : List (Text × FileKind)) :
    Except RunFailure (List Text) → Prop where
  | found (headers : List (List Text))
      (readable : ∀ entry ∈ entries, entry.2 = .directory →
        disk.Readable (Path.join directory entry.1))
      (ordered : headers.Pairwise Before)
      (exact : ∀ names, names ∈ headers ↔
        ∃ entry ∈ entries, HeaderAt disk directory entry.1 entry.2 names) :
      FindsAmong disk directory entries (.ok (headers.map (Path.below directory)))
  | closed {entry : Text × FileKind} (names : List Text) (member : entry ∈ entries)
      (kind : entry.2 = .directory)
      (leads : names = [] ∨ disk.Reaches (Path.join directory entry.1) names .directory)
      (unread : disk.entries? (Path.below (Path.join directory entry.1) names) = none) :
      FindsAmong disk directory entries
        (.error (.unreadable (Path.below (Path.join directory entry.1) names)))

theorem findsAmong_nil : FindsAmong disk directory [] (.ok []) :=
  .found [] nofun .nil (by simp)

theorem findsAmong_file (name : Text) : FindsAmong disk directory [(name, .file)]
    (.ok (if Path.isHeaderName name then [Path.join directory name] else [])) := by
  split
  · next header =>
    refine .found [[name]] (by simp) (List.pairwise_singleton _ _) fun names => ?_
    rw [List.mem_singleton]
    constructor
    · rintro rfl
      exact ⟨_, List.mem_cons_self, .file ((Path.isHeaderName_iff name).mp header)⟩
    · rintro ⟨entry, member, here⟩
      cases List.mem_singleton.mp member
      cases here
      rfl
  · next other =>
    refine .found [] (by simp) .nil fun names => ?_
    constructor
    · exact nofun
    · rintro ⟨entry, member, here⟩
      cases List.mem_singleton.mp member
      cases here with
      | file extension => exact absurd ((Path.isHeaderName_iff name).mpr extension) other

theorem findsAmong_other (name : Text) : FindsAmong disk directory [(name, .other)] (.ok []) := by
  refine .found [] (by simp) .nil fun names => ?_
  constructor
  · exact nofun
  · rintro ⟨entry, member, here⟩
    cases List.mem_singleton.mp member
    cases here

/-- The headers below an entry that is a directory stay in order behind its name. -/
theorem findsAmong_directory (name : Text) (result : Except RunFailure (List Text))
    (finds : disk.Finds (Path.join directory name) result) :
    FindsAmong disk directory [(name, .directory)] result := by
  cases finds with
  | found headers readable lists =>
    have paths : headers.map (Path.below (Path.join directory name)) =
        (headers.map (name :: ·)).map (Path.below directory) := by
      simp [Function.comp_def]
    rw [paths]
    refine .found _ (by simpa using readable) ?_ fun names => ?_
    · exact List.pairwise_map.mpr (lists.ordered.imp fun before =>
        List.cons_lt_cons_iff.mpr (.inr ⟨rfl, before⟩))
    · constructor
      · intro member
        obtain ⟨later, listed, rfl⟩ := List.mem_map.mp member
        exact ⟨_, List.mem_cons_self, .below ((lists.exact later).mp listed)⟩
      · rintro ⟨entry, member, here⟩
        cases List.mem_singleton.mp member
        cases here with
        | below header => exact List.mem_map.mpr ⟨_, (lists.exact _).mpr header, rfl⟩
  | closed names leads unread => exact .closed names List.mem_cons_self rfl leads unread

theorem FindsAmong.weaken {failure : RunFailure}
    (finds : FindsAmong disk directory entries (.error failure)) (more : List (Text × FileKind))
    (part : entries ⊆ more) : FindsAmong disk directory more (.error failure) := by
  cases finds with
  | closed names member kind leads unread => exact .closed names (part member) kind leads unread

/-- What the first entry leads to comes before what the entries behind it lead to. -/
theorem FindsAmong.cons {entry : Text × FileKind} {first later : List Text}
    (here : FindsAmong disk directory [entry] (.ok first))
    (there : FindsAmong disk directory entries (.ok later))
    (least : ∀ other ∈ entries, Text.encoded entry.1 < Text.encoded other.1) :
    FindsAmong disk directory (entry :: entries) (.ok (first ++ later)) := by
  obtain ⟨front, readable, ordered, exact⟩ := here
  obtain ⟨back, readable', ordered', exact'⟩ := there
  rw [← List.map_append]
  refine .found _ ?_ ?_ fun names => ?_
  · exact List.forall_mem_cons.mpr ⟨readable entry List.mem_cons_self, readable'⟩
  · refine List.pairwise_append.mpr ⟨ordered, ordered', fun names member other listed => ?_⟩
    obtain ⟨own, known, header⟩ := (exact names).mp member
    cases List.mem_singleton.mp known
    obtain ⟨next, among, header'⟩ := (exact' other).mp listed
    obtain ⟨below, rfl⟩ := header.starts
    obtain ⟨below', rfl⟩ := header'.starts
    exact List.cons_lt_cons_iff.mpr (.inl (least next among))
  · rw [List.mem_append, exact, exact']
    simp

/-- A directory whose entries have been searched has been searched itself. -/
theorem FindsAmong.finds {result : Except RunFailure (List Text)}
    (finds : FindsAmong disk directory entries result)
    (read : ∃ listed, disk.entries? directory = some listed ∧ listed.Perm entries) :
    disk.Finds directory result := by
  obtain ⟨listed, read, same⟩ := read
  cases finds with
  | found headers readable ordered exact =>
    refine .found headers ((readable_iff read).mpr fun entry member => ?_) ⟨ordered, fun names => ?_⟩
    · exact readable entry (same.subset member)
    · rw [exact, isHeader_iff read]
      simp only [same.mem_iff]
  | @closed entry names member kind leads unread =>
    refine .closed (entry.1 :: names) (.inr ?_) unread
    have known : (entry.1, .directory) ∈ listed := same.symm.subset (kind ▸ member)
    rcases leads with rfl | reaches
    · exact .entry read known
    · exact .deeper read known reaches

end Entries

variable {disk}

theorem Blocks.not_present {input path : Text} (blocks : disk.Blocks input path) :
    ¬ disk.Present input := by
  rintro ⟨known, readable⟩
  cases blocks with
  | missing unknown => simp [unknown] at known
  | @closed names directory leads unread =>
    obtain ⟨here, inner⟩ := readable directory
    have read : (disk.entries? (Path.below input names)).isSome := by
      rcases leads with rfl | reaches
      · exact here
      · exact inner _ reaches
    simp [unread] at read

theorem Reaches.named (formed : disk.WellFormed) {directory : Text} {names : List Text}
    {kind : FileKind} (reaches : disk.Reaches directory names kind) :
    ∀ name ∈ names, Path.IsStep name := by
  induction reaches with
  | entry read member => simpa using formed.named _ _ read _ member
  | deeper read member _ ih =>
    exact List.forall_mem_cons.mpr ⟨formed.named _ _ read _ member, ih⟩

/-- Different names lead to different paths, so no header is listed twice. -/
theorem Lists.paths_nodup (formed : disk.WellFormed) {directory : Text} {headers : List (List Text)}
    (lists : disk.Lists directory headers) : (headers.map (Path.below directory)).Nodup := by
  have named (names : List Text) (member : names ∈ headers) : ∀ name ∈ names, Path.IsStep name :=
    ((lists.exact names).mp member).1.named formed
  have apart : headers.Nodup := by
    refine lists.ordered.imp fun before => ?_
    rintro rfl
    exact List.lt_irrefl _ before
  refine apart.map_on (fun names member other listed same => ?_)
  have steps := congrArg Path.steps same
  rw [Path.steps_below directory names (named names member),
    Path.steps_below directory other (named other listed)] at steps
  exact List.append_cancel_left steps

end Disk

namespace Run

variable {σ α β : Type} {state : σ}

/-- An action ends with a result and leaves the state as it is. -/
def Yields (action : Action (StateM σ) α) (state : σ) (result : Except RunFailure α) : Prop :=
  action.run.run state = (result, state)

theorem Yields.bind {action : Action (StateM σ) α} {next : α → Action (StateM σ) β} {value : α}
    {result : Except RunFailure β} (first : Yields action state (.ok value))
    (later : Yields (next value) state result) : Yields (action >>= next) state result := by
  unfold Yields at first later ⊢
  simp only [ExceptT.run_bind, StateT.run_bind, first]
  exact later

theorem Yields.bind_error {action : Action (StateM σ) α} {failure : RunFailure}
    (first : Yields action state (.error failure)) (next : α → Action (StateM σ) β) :
    Yields (action >>= next) state (.error failure) := by
  unfold Yields at first ⊢
  simp only [ExceptT.run_bind, StateT.run_bind, first]
  rfl

variable {disk : Disk}

/-- Searching the entries of a directory one after another, given the search below each. -/
theorem headersAmong_finds (headersIn : Text → Action (StateM σ) (List Text)) (directory : Text)
    (entries : List (Text × FileKind))
    (inner : ∀ entry ∈ entries, ∃ result,
      Yields (headersIn (Path.join directory entry.1)) state result ∧
        disk.Finds (Path.join directory entry.1) result)
    (ordered : entries.Pairwise fun entry later => Text.encoded entry.1 < Text.encoded later.1) :
    ∃ result, Yields (headersAmong headersIn directory entries) state result ∧
      disk.FindsAmong directory entries result := by
  induction entries with
  | nil => exact ⟨_, rfl, Disk.findsAmong_nil⟩
  | cons entry entries ih =>
    obtain ⟨name, kind⟩ := entry
    obtain ⟨here, inner⟩ := List.forall_mem_cons.mp inner
    obtain ⟨least, ordered⟩ := List.pairwise_cons.mp ordered
    obtain ⟨later, yields', finds'⟩ := ih inner ordered
    have step (action : Action (StateM σ) (List Text)) (first : Except RunFailure (List Text))
        (yields : Yields action state first) (finds : disk.FindsAmong directory [(name, kind)] first) :
        ∃ result, Yields (do
            let found ← action
            return found ++ (← headersAmong headersIn directory entries)) state result ∧
          disk.FindsAmong directory ((name, kind) :: entries) result := by
      cases first with
      | error failure => exact ⟨_, yields.bind_error _, finds.weaken _ (by simp)⟩
      | ok first =>
        cases later with
        | error failure =>
          exact ⟨_, yields.bind (yields'.bind_error _), finds'.weaken _ (List.subset_cons_self _ _)⟩
        | ok later => exact ⟨_, yields.bind (yields'.bind rfl), finds.cons finds' least⟩
    cases kind with
    | directory =>
      obtain ⟨result, yields, finds⟩ := here
      exact step _ result yields (Disk.findsAmong_directory name result finds)
    | file => exact step (pure _) _ rfl (Disk.findsAmong_file name)
    | other => exact step (pure _) _ rfl (Disk.findsAmong_other name)

variable [FileSystem (StateM σ)]

/-- Looking at files shows a tree of files and changes nothing. -/
structure Shows (state : σ) (disk : Disk) : Prop where
  kind : ∀ path, (FileSystem.kind? path : StateM σ (Option FileKind)).run state =
    (disk.kind? path, state)
  entries : ∀ path,
    (FileSystem.entries? path : StateM σ (Option (List (Text × FileKind)))).run state =
      (disk.entries? path, state)

variable (shows : Shows state disk) (formed : disk.WellFormed)

include shows

theorem Shows.yields_kind (path : Text) :
    Yields (liftM (FileSystem.kind? path : StateM σ _)) state (.ok (disk.kind? path)) := by
  unfold Yields
  exact congrArg (fun answer => (Except.ok answer.1, answer.2)) (shows.kind path)

theorem Shows.yields_entries (path : Text) :
    Yields (liftM (FileSystem.entries? path : StateM σ _)) state (.ok (disk.entries? path)) := by
  unfold Yields
  exact congrArg (fun answer => (Except.ok answer.1, answer.2)) (shows.entries path)

include formed

/-- The search is never ended by its depth: each step down makes the path longer. -/
theorem headersBelow_finds (depth : Nat) (directory : Text)
    (deep : Path.longestPath < depth + directory.byteCount) :
    ∃ result, Yields (headersBelow depth directory) state result ∧ disk.Finds directory result := by
  induction depth generalizing directory with
  | zero =>
    refine ⟨_, rfl, .closed [] (.inl rfl) ?_⟩
    rw [Path.below_nil, Option.eq_none_iff_forall_not_mem]
    intro entries read
    have short := formed.short directory entries read
    omega
  | succ depth ih =>
    have look := shows.yields_entries directory
    cases read : disk.entries? directory with
    | none =>
      rw [read] at look
      exact ⟨_, look.bind rfl, .closed [] (.inl rfl) read⟩
    | some entries =>
      rw [read] at look
      have same := sorted_perm entries
      have inner : ∀ entry ∈ sorted entries, ∃ result,
          Yields (headersBelow depth (Path.join directory entry.1)) state result ∧
            disk.Finds (Path.join directory entry.1) result := by
        intro entry member
        have written := List.length_pos_iff.mpr
          (formed.named directory entries read entry (same.subset member)).written
        have longer := Path.byteCount_join directory entry.1
        exact ih _ (by omega)
      obtain ⟨result, yields, finds⟩ := headersAmong_finds _ directory (sorted entries) inner
        (sorted_pairwise entries (formed.apart directory entries read))
      exact ⟨result, look.bind yields, finds.finds ⟨entries, read, same.symm⟩⟩

theorem headersOf_yields (input : Text) :
    (disk.Present input ∧
      ∃ paths, Yields (headersOf input) state (.ok paths) ∧ disk.StandsFor input paths) ∨
    ∃ path, disk.Blocks input path ∧ Yields (headersOf input) state (.error (.unreadable path)) := by
  have look := shows.yields_kind input
  cases known : disk.kind? input with
  | none =>
    rw [known] at look
    exact .inr ⟨input, .missing known, look.bind rfl⟩
  | some kind =>
    rw [known] at look
    by_cases directory : kind = .directory
    · subst directory
      obtain ⟨result, yields, finds⟩ := headersBelow_finds shows formed depthLimit input
        (by unfold depthLimit; omega)
      cases finds with
      | found headers readable lists =>
        exact .inl ⟨⟨by rw [known]; rfl, fun _ => readable⟩, _, look.bind yields,
          .headers known lists (lists.paths_nodup formed)⟩
      | closed names leads unread => exact .inr ⟨_, .closed known leads unread, look.bind yields⟩
    · refine .inl ⟨⟨by rw [known]; rfl, fun same => ?_⟩, [input], ?_, .itself known directory⟩
      · exact absurd (Option.some.inj (known.symm.trans same)) directory
      · apply look.bind
        cases kind with
        | directory => exact absurd rfl directory
        | file => rfl
        | other => rfl

/-- Either all inputs are collected, or one of them is in the way. -/
theorem collectInputs_yields (inputs : List Text) :
    ((∀ input ∈ inputs, disk.Present input) ∧ ∃ found, List.Forall₂ disk.StandsFor inputs found ∧
      Yields (collectInputs inputs) state (.ok found.flatten)) ∨
    ∃ input ∈ inputs, ∃ path, disk.Blocks input path ∧
      Yields (collectInputs inputs) state (.error (.unreadable path)) := by
  induction inputs with
  | nil => exact .inl ⟨nofun, [], .nil, rfl⟩
  | cons input inputs ih =>
    rcases headersOf_yields shows formed input with
      ⟨present, paths, yields, stands⟩ | ⟨path, blocks, yields⟩
    · rcases ih with ⟨others, found, same, yields'⟩ | ⟨other, member, path, blocks, yields'⟩
      · exact .inl ⟨List.forall_mem_cons.mpr ⟨present, others⟩, paths :: found, .cons stands same,
          yields.bind (yields'.bind rfl)⟩
      · exact .inr ⟨other, List.mem_cons_of_mem input member, path, blocks,
          yields.bind (yields'.bind_error _)⟩
    · exact .inr ⟨input, List.mem_cons_self, path, blocks, yields.bind_error _⟩

end Run

namespace FileTree

/-- The nodes of a tree stand under different names, each of which is one step of a path. -/
structure Sound (tree : FileTree) : Prop where
  apart : (tree.nodes.map (·.1)).Nodup
  named : ∀ node ∈ tree.nodes, ∀ name ∈ node.1, Path.IsStep name

def disk (tree : FileTree) : Disk := ⟨tree.kind?, tree.entries?⟩

variable (tree : FileTree)

/-- The one node that a name below a directory stands for. -/
theorem child_iff (names : List Text) (node : List Text × FileNode) (entry : Text × FileKind) :
    (match node.1.getLast? with
      | some name => if node.1.dropLast = names then some (name, kindOf node.2) else none
      | none => none) = some entry ↔ node.1 = names ++ [entry.1] ∧ kindOf node.2 = entry.2 := by
  obtain ⟨own, content⟩ := node
  obtain ⟨name, kind⟩ := entry
  cases own using List.reverseRecOn with
  | nil => simp
  | append_singleton front last => simp [and_assoc]

theorem disk_wellFormed (sound : tree.Sound) : tree.disk.WellFormed := by
  have listing {directory : Text} {entries : List (Text × FileKind)}
      (read : tree.disk.entries? directory = some entries) :
      Path.usable directory = true ∧ ∃ names, entries = tree.children names := by
    unfold disk entries? at read
    dsimp only at read
    split at read
    · next names found =>
      refine ⟨?_, names, (Option.some.inj read).symm⟩
      unfold lookup at found
      split at found
      · cases found
      · next usable => simpa using usable
    · cases read
  constructor
  · intro directory entries read
    obtain ⟨-, names, rfl⟩ := listing read
    refine List.pairwise_map.mpr (List.pairwise_filterMap.mpr ?_)
    refine (List.pairwise_map.mp sound.apart).imp fun apart entry own other theirs same => apart ?_
    rw [((child_iff names _ entry).mp own).1, ((child_iff names _ other).mp theirs).1, same]
  · intro directory entries read entry member
    obtain ⟨-, names, rfl⟩ := listing read
    obtain ⟨node, known, own⟩ := List.mem_filterMap.mp member
    apply sound.named node known
    rw [((child_iff names node entry).mp own).1]
    simp
  · intro directory entries read
    have usable := (listing read).1
    simp only [Path.usable, Bool.and_eq_true, decide_eq_true_eq] at usable
    exact usable.1.1.2

end FileTree

theorem World.shows_disk (world : World) : Run.Shows world world.tree.disk :=
  ⟨fun _ => rfl, fun _ => rfl⟩

namespace Run

/-- Collecting the inputs of a run is complete and in order: a file stands for itself, a directory
for the headers below it, and an input that is missing or cannot be read is reported. -/
theorem collectInputs_complete {σ : Type} [FileSystem (StateM σ)] {state : σ} {disk : Disk}
    (shows : Shows state disk) (formed : disk.WellFormed) (inputs : List Text) :
    ((∀ input ∈ inputs, disk.Present input) → ∃ found, List.Forall₂ disk.StandsFor inputs found ∧
      Yields (collectInputs inputs) state (.ok found.flatten)) ∧
    ((∃ input ∈ inputs, ¬ disk.Present input) → ∃ input ∈ inputs, ∃ path,
      disk.Blocks input path ∧ Yields (collectInputs inputs) state (.error (.unreadable path))) := by
  rcases collectInputs_yields shows formed inputs with
    ⟨present, collected⟩ | ⟨input, member, path, blocks, yields⟩
  · refine ⟨fun _ => collected, ?_⟩
    rintro ⟨input, member, absent⟩
    exact absurd (present input member) absent
  · refine ⟨fun present => ?_, fun _ => ⟨input, member, path, blocks, yields⟩⟩
    exact absurd (present input member) blocks.not_present

/-- A tree with a directory named like a header between directories and headers, a name that is
nothing but the extension, and a text. -/
def nestedTree : FileTree where
  nodes := [
    (["lib".toList], .directory),
    (["lib".toList, "b.h".toList], .file (some [])),
    (["lib".toList, "a".toList], .directory),
    (["lib".toList, "a".toList, "z.h".toList], .file none),
    (["lib".toList, "a.h".toList], .directory),
    (["lib".toList, "a.h".toList, "é.h".toList], .file (some [])),
    (["lib".toList, ".h".toList], .file (some [])),
    (["notes.txt".toList], .file (some []))]

theorem sound_nestedTree : nestedTree.Sound := ⟨by decide, by decide⟩

def nestedInputs : List Text := ["notes.txt".toList, "lib".toList, "lib/a".toList]

theorem collectInputs_complete_nestedTree :
    (∃ found, List.Forall₂ nestedTree.disk.StandsFor nestedInputs found ∧
      found.flatten = ["notes.txt".toList, "lib/a/z.h".toList, "lib/a.h/é.h".toList,
        "lib/b.h".toList, "lib/a/z.h".toList]) ∧
    ∃ input ∈ ["lib".toList, "gone.h".toList], ∃ path, nestedTree.disk.Blocks input path ∧
      Yields (collectInputs ["lib".toList, "gone.h".toList]) (⟨nestedTree, []⟩ : World)
        (.error (.unreadable path)) := by
  have complete := collectInputs_complete (World.shows_disk ⟨nestedTree, []⟩)
    (nestedTree.disk_wellFormed sound_nestedTree)
  constructor
  · have yields : carryOut (collectInputs nestedInputs) ⟨nestedTree, []⟩ =
        (.ok ["notes.txt".toList, "lib/a/z.h".toList, "lib/a.h/é.h".toList, "lib/b.h".toList,
          "lib/a/z.h".toList], ⟨nestedTree, []⟩) := by
      cbv
    have present : ∀ input ∈ nestedInputs, nestedTree.disk.Present input := by
      by_contra absent
      push Not at absent
      obtain ⟨input, -, path, -, fails⟩ := (complete nestedInputs).2 absent
      cases (congrArg Prod.fst (yields.symm.trans fails))
    obtain ⟨found, stands, collected⟩ := (complete nestedInputs).1 present
    exact ⟨found, stands, Except.ok.inj (congrArg Prod.fst (collected.symm.trans yields))⟩
  · apply (complete _).2
    refine ⟨"gone.h".toList, by simp, fun present => ?_⟩
    have known := present.1
    revert known
    decide

end Run

end HeaderBindings
