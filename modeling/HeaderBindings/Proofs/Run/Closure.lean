import HeaderBindings.Proofs.Arrangement.Order
import HeaderBindings.Proofs.Run.Producing
import HeaderBindings.Proofs.Script.Layout
import HeaderBindings.Proofs.Script.Writing

/-!
Runs that succeed. The modules of the extracted classes are all written, each into a file of its own,
and a module imports nothing but the bridge and the module of the class that it extends, which the same
run has written.
-/

namespace HeaderBindings

namespace ScriptMember

-- All lines of a member stand inside the class.
theorem depth_lines (member : ScriptMember) : ∀ line ∈ member.lines, 1 ≤ line.depth := by
  have documented (doc : DocBlock) : ∀ line ∈ doc.lines 1, 1 ≤ line.depth := by
    intro line inside
    unfold DocBlock.lines at inside
    split at inside
    · cases inside
    · simp only [List.mem_append, List.mem_singleton, List.mem_map] at inside
      rcases inside with (rfl | ⟨entry, _, rfl⟩) | rfl <;> exact Nat.le_refl 1
  have block (doc : DocBlock) (head : Text) (body : Statement) :
      ∀ line ∈ ScriptMember.block doc head body, 1 ≤ line.depth := by
    intro line inside
    unfold ScriptMember.block at inside
    simp only [List.mem_append, List.mem_cons, List.not_mem_nil, or_false] at inside
    rcases inside with above | rfl | rfl | rfl
    · exact documented doc line above
    · exact Nat.le_refl 1
    · exact Nat.le_succ 1
    · exact Nat.le_refl 1
  cases member with
  | getter doc isStatic name type call => exact block doc _ _
  | setter doc isStatic name type call => exact block doc _ _
  | function doc signature body => exact block doc _ _
  | overloaded dispatch =>
    intro line inside
    simp only [lines, Dispatch.lines, Dispatch.implementationLines, Overload.signatureLines,
      Overload.branchLines, List.mem_append, List.mem_flatMap, List.mem_cons, List.not_mem_nil,
      or_false] at inside
    rcases inside with ⟨overload, _, above | rfl⟩ |
      ((rfl | rfl) | ⟨overload, _, ((rfl | rfl) | left) | rfl⟩) | rfl | rfl
    · exact documented overload.doc line above
    · exact Nat.le_refl 1
    · exact Nat.le_refl 1
    · exact Nat.le_succ 1
    · exact Nat.le_succ 1
    · exact Nat.le_add_left 1 2
    · split at left
      · cases left
      · rw [List.mem_singleton.mp left]
        exact Nat.le_add_left 1 2
    · exact Nat.le_succ 1
    · exact Nat.le_succ 1
    · exact Nat.le_refl 1
  | incomplete isStatic name =>
    intro line inside
    rw [List.mem_singleton.mp inside]

theorem depth_allLines (members : List ScriptMember) : ∀ line ∈ allLines members, 1 ≤ line.depth := by
  induction members using allLines.induct with
  | case1 => simp [allLines]
  | case2 member => exact member.depth_lines
  | case3 member next later ih =>
    intro line inside
    rw [allLines] at inside
    simp only [List.mem_append, List.mem_singleton] at inside
    rcases inside with (own | rfl) | below
    · exact member.depth_lines line own
    · exact Nat.le_refl 1
    · exact ih line below

end ScriptMember

section Sources

/-- A line of a module that imports nothing and is one line. -/
structure ScriptLine.Quiet (line : ScriptLine) : Prop where
  whole : '\n' ∉ line.text
  head : line.shown.head? ≠ some 'i'

/-- The lines that the import of the bridge is written as: one, unless the bridge's name holds line
feeds. -/
def bridgeLines (bridge : Text) : List Text :=
  (ScriptModule.importLine "NativeObject, allocate, invoke".toList bridge).written.lines

example : bridgeLines ScriptModule.defaultBridge =
    ["import \x7b NativeObject, allocate, invoke \x7d from \"../bridge\";".toList] := by decide

/-- The line that imports the module of a class. -/
def parentLine (parent : Text) : Text :=
  (ScriptModule.importLine parent ("./".toList ++ parent)).text

/-- The line that begins a class which extends another. -/
def extendingLine (name parent : Text) : Text :=
  "export class ".toList ++ name ++ " extends ".toList ++ parent ++ " \x7b".toList

theorem ScriptLine.Quiet.head_of_read {line : ScriptLine} (quiet : line.Quiet) (text : Text)
    (read : text ∈ (Text.pieces line.shown).map Text.dropReturn) : text.head? ≠ some 'i' := by
  rw [Text.pieces_free _ (line.lacks_shown isControl_feed quiet.whole)] at read
  rw [List.mem_singleton.mp read]
  exact fun head => quiet.head (Text.head_of_dropReturn _ _ head)

namespace ScriptModule

/-- No line feed is in what a module shows of its class. -/
structure Whole (module : ScriptModule) : Prop where
  className : '\n' ∉ module.className
  parent : ∀ name ∈ module.parent, '\n' ∉ name
  doc : module.doc.Lacks '\n'
  members : ∀ member ∈ module.members, member.Lacks '\n'

variable {module : ScriptModule} (whole : module.Whole)

theorem last_importLine (names source : Text) : (importLine names source).text.getLast? = some ';' := by
  have ended : (importLine names source).text =
      ("import \x7b ".toList ++ names ++ " \x7d from \"".toList ++ source ++ ['"']) ++ [';'] := by
    rw [List.append_assoc _ ['"']]
    rfl
  rw [ended, List.getLast?_concat]

theorem feed_importLine (names source : Text) (named : '\n' ∉ names) (free : '\n' ∉ source) :
    '\n' ∉ (importLine names source).text := by
  simp only [importLine, List.mem_append, not_or]
  exact ⟨⟨⟨⟨isControl_feed.plain _ (by decide), named⟩, isControl_feed.plain _ (by decide)⟩, free⟩,
    isControl_feed.plain _ (by decide)⟩

theorem feed_parentLine (parent : Text) (free : '\n' ∉ parent) : '\n' ∉ parentLine parent := by
  apply feed_importLine parent _ free
  simp [free]

include whole

theorem feed_classLine : '\n' ∉ module.classLine.text := by
  have parent : '\n' ∉ module.parent.getD "NativeObject".toList := by
    cases known : module.parent with
    | none => decide
    | some name => exact whole.parent name known
  unfold classLine
  simp only [List.mem_append, not_or]
  exact ⟨⟨⟨⟨isControl_feed.plain _ (by decide), whole.className⟩, isControl_feed.plain _ (by decide)⟩,
    parent⟩, isControl_feed.plain _ (by decide)⟩

theorem quiet_or_import (line : ScriptLine) (inside : line ∈ module.lines) :
    line = importLine "NativeObject, allocate, invoke".toList module.bridge ∨
      (∃ parent ∈ module.parent, line = importLine parent ("./".toList ++ parent)) ∨ line.Quiet := by
  unfold lines headLines at inside
  simp only [List.mem_append, List.mem_cons, List.not_mem_nil, or_false] at inside
  rcases inside with
    ((((((rfl | rfl) | imported) | rfl) | documented) | rfl) | member) | rfl
  · have free : '\n' ∉ "// Generated by veneer from `".toList ++ module.className
        ++ "`. Do not edit.".toList := by
      simp only [List.mem_append, not_or]
      exact ⟨⟨isControl_feed.plain _ (by decide), whole.className⟩,
        isControl_feed.plain _ (by decide)⟩
    exact Or.inr (Or.inr ⟨free, by simp [ScriptLine.shown]⟩)
  · exact Or.inl rfl
  · obtain ⟨parent, known, rfl⟩ := Option.map_eq_some_iff.mp (Option.mem_toList.mp imported)
    exact Or.inr (Or.inl ⟨parent, known, rfl⟩)
  · exact Or.inr (Or.inr ⟨by decide, by decide⟩)
  · refine Or.inr (Or.inr ⟨DocBlock.lacks_lines isControl_feed 0 _ whole.doc line documented, ?_⟩)
    unfold DocBlock.lines at documented
    split at documented
    · cases documented
    · simp only [List.mem_append, List.mem_singleton, List.mem_map] at documented
      rcases documented with (rfl | ⟨entry, _, rfl⟩) | rfl
      · decide
      · simp [ScriptLine.shown]
      · decide
  · exact Or.inr (Or.inr ⟨feed_classLine whole, by simp [ScriptLine.shown, classLine]⟩)
  · refine Or.inr (Or.inr
      ⟨ScriptMember.lacks_allLines isControl_feed _ whole.members line member, ?_⟩)
    have deep := ScriptMember.depth_allLines _ line member
    cases empty : line.text with
    | nil => simp [ScriptLine.shown, empty]
    | cons c rest =>
      have blank : 2 * line.depth = 2 * line.depth - 1 + 1 := by omega
      rw [ScriptLine.shown, empty, blank, List.replicate_succ]
      simp
  · exact Or.inr (Or.inr ⟨by decide, by decide⟩)

-- What a line of a module's text is, before the module is put in order.
theorem line_of_source (text : Text) (inside : text ∈ module.source.lines) :
    text ∈ bridgeLines module.bridge ∨ (∃ parent ∈ module.parent, text = parentLine parent) ∨
      text.head? ≠ some 'i' := by
  rw [source, write_eq, Text.lines_unlines_pieces, List.flatMap_map] at inside
  obtain ⟨line, known, read⟩ := List.mem_flatMap.mp inside
  rcases quiet_or_import whole line known with rfl | ⟨parent, extended, rfl⟩ | quiet
  · have alone := Text.lines_unlines_pieces
      [(importLine "NativeObject, allocate, invoke".toList module.bridge).shown]
    rw [List.flatMap_singleton] at alone
    rw [← alone, Text.unlines, List.flatMap_singleton] at read
    exact Or.inl read
  · have free := feed_parentLine parent (whole.parent parent extended)
    have shown : (importLine parent ("./".toList ++ parent)).shown = parentLine parent :=
      ScriptLine.shown_outer _
    have last : (parentLine parent).getLast? = some ';' := last_importLine parent _
    rw [shown, Text.pieces_free _ free, List.map_singleton, List.mem_singleton,
      Text.dropReturn_of_last _ ';' last (by decide)] at read
    exact Or.inr (Or.inl ⟨parent, extended, read⟩)
  · exact Or.inr (Or.inr (quiet.head_of_read text read))

end ScriptModule

end Sources

section Origins

/-- A line that imports something from a module. -/
def ImportsFrom (source line : Text) : Prop :=
  ∃ what, line = "import ".toList ++ what ++ " from \"".toList ++ source ++ "\";".toList

/-- A bridge that is none of the modules beside it: its name goes up to the quotation mark behind it, and
does not begin as theirs do. -/
structure BridgeApart (bridge : Text) : Prop where
  unquoted : '"' ∉ bridge
  elsewhere : Text.startsWith "./".toList bridge = false

namespace ImportsFrom

theorem isImport {source line : Text} (imports : ImportsFrom source line) :
    Text.startsWith "import ".toList line = true := by
  obtain ⟨what, rfl⟩ := imports
  simp [Text.startsWith_iff]

theorem count_quote {source line : Text} (imports : ImportsFrom source line) :
    2 ≤ line.count '"' := by
  obtain ⟨what, rfl⟩ := imports
  have opening : " from \"".toList.count '"' = 1 := by decide
  have closing : "\";".toList.count '"' = 1 := by decide
  simp only [List.count_append]
  omega

-- A text from its first quotation mark on.
theorem dropWhile_quote (front rest : Text) (free : '"' ∉ front) :
    (front ++ '"' :: rest).dropWhile (· != '"') = '"' :: rest := by
  have passed : ∀ c ∈ front, (c != '"') = true := by
    intro c member
    simpa using fun same : c = '"' => free (same ▸ member)
  simp [List.dropWhile_append_of_pos passed]

/-- A line that imports plain names from a module with a plain name imports from no other one. -/
theorem source_eq {names source other : Text} (plain : '"' ∉ names) (unquoted : '"' ∉ source)
    (imports : ImportsFrom other (ScriptModule.importLine names source).text) : other = source := by
  obtain ⟨what, same⟩ := imports
  have unmarked : ∀ text ∈ ["import \x7b ".toList, "import ".toList], text.count '"' = 0 := by decide
  have marked : ∀ text ∈ [" \x7d from \"".toList, " from \"".toList, "\";".toList],
      text.count '"' = 1 := by decide
  simp only [List.forall_mem_cons] at unmarked marked
  have counted := congrArg (List.count '"') same
  simp only [ScriptModule.importLine, List.count_append, List.count_eq_zero.mpr plain,
    List.count_eq_zero.mpr unquoted, unmarked, marked] at counted
  have free : '"' ∉ what := List.count_eq_zero.mp (by omega)
  -- What stands behind the first quotation mark of each side is the name and the end of the line.
  have left : (ScriptModule.importLine names source).text =
      ("import \x7b ".toList ++ names ++ " \x7d from ".toList) ++ '"' :: (source ++ "\";".toList) := by
    simp [ScriptModule.importLine]
  have right : "import ".toList ++ what ++ " from \"".toList ++ other ++ "\";".toList =
      ("import ".toList ++ what ++ " from ".toList) ++ '"' :: (other ++ "\";".toList) := by
    simp
  rw [left, right] at same
  have behind := congrArg (List.dropWhile (· != '"')) same
  rw [dropWhile_quote _ _ (by simpa using plain), dropWhile_quote _ _ (by simpa using free)] at behind
  exact (List.append_cancel_right (List.cons.inj behind).2).symm

/-- The lines of the bridge's import name no other module: where a line feed stands between the two
quotation marks, no line has both. -/
theorem bridge_eq {bridge other line : Text} (unquoted : '"' ∉ bridge)
    (member : line ∈ bridgeLines bridge) (imports : ImportsFrom other line) : other = bridge := by
  let names := "NativeObject, allocate, invoke".toList
  by_cases broken : '\n' ∈ bridge
  · obtain ⟨above, below, rfl, free⟩ := List.eq_append_cons_of_mem broken
    let front := "import \x7b ".toList ++ names ++ " \x7d from \"".toList ++ above
    have cut : (ScriptModule.importLine names (above ++ '\n' :: below)).written =
        front ++ '\n' :: (below ++ "\";\n".toList) := by
      simp [ScriptModule.importLine, ScriptLine.written, front]
    have frontFree : '\n' ∉ front := by
      simp only [front, List.mem_append, not_or]
      exact ⟨⟨⟨by decide, by decide⟩, by decide⟩, free⟩
    have unmarked : ∀ text ∈ [above, below], text.count '"' = 0 := by
      simpa [List.count_eq_zero] using unquoted
    simp only [List.forall_mem_cons] at unmarked
    have fronts : front.count '"' = 1 := by
      simp only [front, List.count_append, unmarked]
      decide
    have backs : (below ++ "\";\n".toList).count '"' = 1 := by
      simp only [List.count_append, unmarked]
      decide
    have twice := imports.count_quote
    rw [bridgeLines, cut, Text.lines_feed _ _ frontFree] at member
    rcases List.mem_cons.mp member with rfl | later
    · have := Text.count_dropReturn_le '"' front
      omega
    · have inside := (List.sublist_flatten_of_mem later).count_le '"'
      have := Text.count_lines_le '"' (below ++ "\";\n".toList)
      omega
  · have written : (ScriptModule.importLine names bridge).written =
        (ScriptModule.importLine names bridge).text ++ '\n' :: [] := by
      simp [ScriptModule.importLine, ScriptLine.written]
    have free := ScriptModule.feed_importLine names bridge (by decide) broken
    rw [bridgeLines, written, Text.lines_feed _ _ free,
      Text.dropReturn_of_last _ ';' (ScriptModule.last_importLine names bridge) (by decide)] at member
    have plain : '"' ∉ names := by decide
    apply source_eq plain unquoted
    rwa [← List.mem_singleton.mp member]

theorem not_bridge {bridge name line : Text} (apart : BridgeApart bridge)
    (imports : ImportsFrom ("./".toList ++ name) line) : line ∉ bridgeLines bridge := by
  intro member
  have begins := apart.elsewhere
  rw [← bridge_eq apart.unquoted member imports] at begins
  simp [Text.startsWith, Text.after?] at begins

theorem parent_eq {name parent : Text} (plain : '"' ∉ parent)
    (imports : ImportsFrom ("./".toList ++ name) (parentLine parent)) : name = parent := by
  have unquoted : '"' ∉ "./".toList ++ parent := by simpa using plain
  exact List.append_cancel_left (source_eq plain unquoted imports)

end ImportsFrom

end Origins

section Imports

variable {classes : ClassSet} {decl : ClassDecl}

/-- The text of a module in order is the tidied lines of its source. -/
theorem pieces_reflow (module : ScriptModule) : Text.pieces (reflow module.source) =
    tidy (Item.arrange (Item.ofLines module.source.lines)) ++ [[]] := by
  have ended : module.source.getLast? = some '\n' := by
    have closed : module.source = ScriptModule.write (module.headLines ++ module.doc.lines 0
        ++ [module.classLine] ++ ScriptMember.allLines module.members) ++ ['\x7d', '\n'] := by
      rw [ScriptModule.source, ScriptModule.lines, ScriptModule.write, List.flatMap_append]
      rfl
    rw [closed, List.getLast?_append]
    rfl
  rw [reflow_of_ended _ ended, Text.pieces_unlines _ (feed_of_tidy module.source)]

theorem ClassSet.name_of_contains (name : Text) (known : classes.contains name = true) :
    ∃ other ∈ classes.classes, other.name = name := by
  obtain ⟨other, found⟩ := Option.isSome_iff_exists.mp known
  exact ⟨other, List.mem_of_find?_eq_some found, by simpa using List.find?_some found⟩

/-- The parent of a class in a set is another class of the set, and the superclass that it names. -/
theorem ClassDecl.parentIn_sound (parent : Text) (extends' : decl.parentIn classes = some parent) :
    decl.superclass = some parent ∧ parent ≠ decl.name ∧
      ∃ other ∈ classes.classes, other.name = parent := by
  obtain ⟨given, apart⟩ := Option.filter_eq_some_iff.mp extends'
  rw [Bool.and_eq_true, bne_iff_ne] at apart
  exact ⟨(Option.filter_eq_some_iff.mp given).1, apart.1, ClassSet.name_of_contains parent apart.2⟩

/-- The module of a legible class is whole, if the classes of the set are. -/
theorem ClassDecl.Legible.whole (each : ∀ decl ∈ classes.classes, decl.Legible)
    (own : decl ∈ classes.classes) (bridge : Text) : (decl.scriptModule bridge classes).Whole where
  className := (each decl own).lacks.name
  parent := by
    intro parent extends'
    obtain ⟨_, _, other, known, rfl⟩ := ClassDecl.parentIn_sound parent extends'
    exact (each other known).lacks.name
  doc := decl.lacks_docBlock isControl_feed (each decl own).lacks
  members := decl.lacks_scriptMembers isControl_feed (each decl own).lacks

theorem head_stub (key : MemberKey) : ∀ line ∈ Item.stub key, line.head? = some ' ' := by
  intro line member
  simp only [Item.stub, List.mem_cons, List.not_mem_nil, or_false] at member
  rcases member with rfl | rfl | rfl <;> rfl

/-- The line that begins the class stays when the module is put in order. -/
theorem ScriptModule.Whole.classLine_mem {module : ScriptModule} (whole : module.Whole) :
    module.classLine.text ∈ Text.pieces (reflow module.source) := by
  have last : module.classLine.text.getLast? = some '\x7b' := List.getLast?_append_of_ne_nil _ (by decide)
  have free := ScriptModule.feed_classLine whole
  have shown : module.classLine.shown = module.classLine.text := ScriptLine.shown_outer _
  have given : module.classLine.text ∈ module.source.lines := by
    rw [ScriptModule.source, ScriptModule.write_eq, Text.lines_unlines_pieces, List.flatMap_map,
      List.mem_flatMap]
    refine ⟨module.classLine, by simp [ScriptModule.lines], ?_⟩
    rw [shown, Text.pieces_free _ free, List.map_singleton, List.mem_singleton,
      Text.dropReturn_of_last _ '\x7b' last (by decide)]
  have seen : Text.isBlankLine module.classLine.text = false :=
    Text.not_blankLine _ 'e' List.mem_cons_self (by decide)
  have unmarked (key : MemberKey) : module.classLine.text ≠ Item.markLine key := by
    intro same
    have heads := congrArg List.head? same
    cases heads
  rw [pieces_reflow]
  exact List.mem_append_left _ (mem_tidy _ _ given seen unmarked)

/-- A class extends another one of the same set, whose module is among the files. -/
structure GeneratedFile.Extends (classes : ClassSet) (files : List GeneratedFile)
    (file : GeneratedFile) (parent : Text) : Prop where
  known : parent ∈ classes.names
  other : parent ≠ file.className
  begins : extendingLine file.className parent ∈ Text.pieces file.source
  filed : ∃ other ∈ files, other.className = parent ∧ other.fileName = ScriptModule.fileNameOf parent

/-- What the module of a class imports when it is written: the bridge, and the module of the class that
it extends. Where the bridge is none of the modules beside it, whatever is imported from one of these
is the class that is extended. -/
structure GeneratedFile.Linked (bridge : Text) (classes : ClassSet) (files : List GeneratedFile)
    (file : GeneratedFile) : Prop where
  imports : ∀ line ∈ Text.pieces file.source, Text.startsWith "import ".toList line = true →
    line ∈ bridgeLines bridge ∨ ∃ parent, line = parentLine parent ∧ file.Extends classes files parent
  closed : BridgeApart bridge → ∀ line ∈ Text.pieces file.source, ∀ name,
    ImportsFrom ("./".toList ++ name) line → file.Extends classes files name

theorem imports_generatedFiles (each : ∀ decl ∈ classes.classes, decl.Legible) (bridge : Text)
    (file : GeneratedFile) (member : file ∈ generatedFiles bridge classes) (line : Text)
    (inside : line ∈ Text.pieces file.source) (imports : Text.startsWith "import ".toList line = true) :
    line ∈ bridgeLines bridge ∨ ∃ parent, line = parentLine parent ∧
      file.Extends classes (generatedFiles bridge classes) parent := by
  obtain ⟨decl, own, rfl⟩ := List.mem_map.mp member
  have whole := ClassDecl.Legible.whole each own bridge
  have source : (GeneratedFile.ofClass bridge classes decl).reflowed.source =
      reflow (decl.scriptModule bridge classes).source :=
    congrArg reflow (GeneratedFile.source_ofClass bridge classes decl)
  rw [source] at inside
  have written : line ∈ tidy (Item.arrange (Item.ofLines
      (decl.scriptModule bridge classes).source.lines)) ++ [[]] :=
    pieces_reflow _ ▸ inside
  have head : line.head? = some 'i' := by
    obtain ⟨rest, rfl⟩ := (Text.startsWith_iff _ _).mp imports
    rfl
  have tidied : line ∈ tidy (Item.arrange (Item.ofLines
      (decl.scriptModule bridge classes).source.lines)) := by
    rcases List.mem_append.mp written with here | last
    · exact here
    · rw [List.mem_singleton.mp last] at head
      cases head
  rcases source_of_tidy _ line tidied with given | ⟨key, filled⟩
  · rcases ScriptModule.line_of_source whole line given with bridged | ⟨parent, extends', same⟩ | other
    · exact Or.inl bridged
    · obtain ⟨_, apart, other, known, named⟩ := ClassDecl.parentIn_sound parent extends'
      refine Or.inr ⟨parent, same, ?_, apart, ?_, ?_⟩
      · exact named ▸ List.mem_map.mpr ⟨other, known, rfl⟩
      · have known : (decl.scriptModule bridge classes).parent = some parent := extends'
        have begins : (decl.scriptModule bridge classes).classLine.text =
            extendingLine decl.name parent := by
          rw [ScriptModule.classLine, known]
          rfl
        exact begins ▸ source ▸ whole.classLine_mem
      · exact ⟨_, List.mem_map.mpr ⟨other, known, rfl⟩, named, named ▸ rfl⟩
    · exact absurd head other
  · rw [head_stub key line filled] at head
    cases head

theorem linked_generatedFiles (each : ∀ decl ∈ classes.classes, decl.Legible) (bridge : Text) :
    ∀ file ∈ generatedFiles bridge classes,
      file.Linked bridge classes (generatedFiles bridge classes) := by
  intro file member
  have imports := imports_generatedFiles each bridge file member
  refine ⟨imports, fun apart line inside name named => ?_⟩
  rcases imports line inside named.isImport with bridged | ⟨parent, rfl, extends'⟩
  · exact absurd bridged (ImportsFrom.not_bridge apart named)
  · obtain ⟨decl, own, same⟩ := List.mem_map.mp extends'.known
    have plain : '"' ∉ parent := fun quote =>
      absurd (Token.chars_of_name (each decl own).name '"' (same ▸ quote)) (by decide)
    rwa [named.parent_eq plain]

end Imports

namespace Run

/-- The methods of a set's classes whose omission is warned of. -/
def omissions (classes : ClassSet) : List (Entry × DropReason) :=
  classes.classes.flatMap fun decl => (MemberPlan.ofClass decl).dropped.filter (·.2.isWarning)

theorem length_diagnostics (bridge : Text) (classes : ClassSet) :
    ((generatedFiles bridge classes).flatMap (·.diagnostics)).length =
      (omissions classes).length := by
  have each : (generatedFiles bridge classes).flatMap (·.diagnostics) =
      classes.classes.flatMap fun decl => (MemberPlan.ofClass decl).diagnostics decl.name := by
    rw [generatedFiles, List.flatMap_map]
    exact congrArg (List.flatMap · classes.classes)
      (funext fun decl => GeneratedFile.diagnostics_ofClass bridge classes decl)
  rw [each, omissions, List.length_flatMap, List.length_flatMap]
  simp [MemberPlan.diagnostics]

/-- What a run that succeeds has done with the classes that it extracted: each has a file of its own in
the output directory, the files import each other only, and the summary counts them. -/
structure Finished (settings : Settings) (set : ClassSet) (before after : FileTree)
    (summary : Summary) : Prop where
  apart : set.names.Nodup
  names : (generatedFiles settings.bridge set).map (·.fileName) =
    set.names.map ScriptModule.fileNameOf
  steps : ∀ file ∈ generatedFiles settings.bridge set, Path.IsStep file.fileName
  distinct : ((generatedFiles settings.bridge set).map (·.fileName)).Nodup
  written : ∃ home, Written settings.outputDir home (generatedFiles settings.bridge set) before after
  linked : ∀ file ∈ generatedFiles settings.bridge set,
    file.Linked settings.bridge set (generatedFiles settings.bridge set)
  classes : summary.classes = set.names.length
  files : summary.files = set.names.length
  warnings : summary.warnings = set.diagnostics.length + (omissions set).length

/-- A run with the text strategy that succeeds writes a set of modules that is closed under imports, but
for a bridge that is named as a module beside them. -/
theorem finished_generate (settings : Settings) (inputs : List Text) (inline : Option Text)
    (text : settings.strategy = .text) (world after : World) (summary : Summary)
    (ran : carryOut (generate settings inputs inline) world = (.ok summary, after)) :
    ∃ set, (carryOut (extract settings inputs inline) world).1 = .ok set ∧
      Finished settings set world.tree after.tree summary := by
  have kept := (looks_extractWith inputs inline none (by simp) settings).tree world
  have legible := legible_extractWith none settings inputs inline text world
  rw [generate, generateWith, carryOut_bind] at ran
  unfold extract
  generalize carryOut (extractWith none settings inputs inline) world = extraction
    at kept legible ran ⊢
  obtain ⟨failure | set, between⟩ := extraction
  · cases ran
  · have each := legible set rfl
    have filed : set.Each ClassDecl.Filed := ⟨each.apart, fun decl own => (each.classes decl own).filed⟩
    have ends := ends_produce settings filed between
    dsimp only at ran kept
    rw [ran, kept] at ends
    refine ⟨set, rfl, ?_⟩
    cases ends with
    | complete home written =>
      exact {
        apart := each.apart
        names := fileNames_generatedFiles settings.bridge set
        steps := filed.steps settings.bridge
        distinct := filed.apartFiles settings.bridge
        written := ⟨home, written⟩
        linked := linked_generatedFiles each.classes settings.bridge
        classes := by simp [Summary.of, ClassSet.size, ClassSet.names]
        files := by simp [Summary.of, generatedFiles, ClassSet.names]
        warnings := by rw [Summary.of, length_diagnostics] }

/-- A class that extends another one, which declares a method twice. -/
def panelHeader : Text :=
  "@interface Panel : View\n@end\n@interface View : NSObject\n- (void)a;\n- (void)a;\n@end\n".toList

theorem finished_generate_panel :
    let run := carryOut (generate {} [] (some panelHeader)) ⟨{}, []⟩
    run.1 = .ok ⟨2, 2, 1⟩ ∧ BridgeApart ({} : Settings).bridge ∧
      ∃ set, (carryOut (extract {} [] (some panelHeader)) ⟨{}, []⟩).1 = .ok set ∧
        Finished {} set {} run.2.tree ⟨2, 2, 1⟩ := by
  intro run
  have succeeded : run.1 = .ok ⟨2, 2, 1⟩ := by decide +kernel
  exact ⟨succeeded, ⟨by decide, by decide⟩, finished_generate {} [] (some panelHeader) rfl ⟨{}, []⟩ run.2 ⟨2, 2, 1⟩
    (Prod.ext succeeded rfl)⟩

/-- The bridge is imported from wherever the settings name it, also from where the modules are. -/
theorem bridge_among_modules :
    let settings : Settings := { bridge := "./bridge".toList }
    let run := carryOut (generate settings [] (some "@interface Box : NSObject\n@end\n".toList)) ⟨{}, []⟩
    run.1 = .ok ⟨1, 1, 0⟩ ∧ ∃ set text line,
      (carryOut (extract settings [] (some "@interface Box : NSObject\n@end\n".toList)) ⟨{}, []⟩).1 =
        .ok set ∧
      run.2.tree.readText? "generated/Box.ts".toList = some text ∧ line ∈ Text.pieces text ∧
      ImportsFrom ("./".toList ++ "bridge".toList) line ∧ "bridge".toList ∉ set.names := by
  intro settings run
  refine ⟨by decide +kernel,
    { classes := [{ name := "Box".toList, superclass := some "NSObject".toList }], diagnostics := [] },
    (run.2.tree.readText? "generated/Box.ts".toList).getD [],
    "import \x7b NativeObject, allocate, invoke \x7d from \"./bridge\";".toList,
    by decide +kernel, by decide +kernel, by decide +kernel, ?_, by decide⟩
  exact ⟨"\x7b NativeObject, allocate, invoke \x7d".toList, rfl⟩

end Run

end HeaderBindings
