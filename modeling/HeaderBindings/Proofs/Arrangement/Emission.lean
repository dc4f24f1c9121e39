import HeaderBindings.Proofs.Arrangement.Settling
import HeaderBindings.Proofs.Model.Merging
import HeaderBindings.Proofs.Script.Documentation
import HeaderBindings.Proofs.Script.Layout

/-!
The lines of a generated module read as items. A member with a body is an implementation, behind a
signature for each overload; accessors are lines, and what could not be bound is a mark.
-/

namespace HeaderBindings

open Item

section Special

theorem markStart_eq : markStart = ' ' :: ' ' :: '/' :: '/' :: " @veneer-incomplete ".toList := rfl

/-- Whether a line starts documentation, is a member's, or starts as a mark does. -/
def isSpecial (line : Text) : Bool :=
  startsDoc line || isHead line || Text.startsWith markStart line

theorem third_of_special (line : Text) (special : isSpecial line = true) :
    ∃ c rest, line = ' ' :: ' ' :: c :: rest ∧ (isNameHead c = true ∨ c = '/') := by
  simp only [isSpecial, isHead, Bool.or_eq_true, Option.isSome_iff_exists] at special
  rcases special with (starts | ((⟨key, signed⟩ | ⟨key, marked⟩) | ⟨key, opened⟩)) | starts
  · obtain ⟨rest, rfl⟩ := (startsDoc_iff line).mp starts
    exact ⟨'/', _, rfl, Or.inr rfl⟩
  · obtain ⟨c, rest, rfl, head⟩ := head_of_member _ line key signed
    exact ⟨c, rest, rfl, Or.inl head⟩
  · rw [((markerKey_eq_some_iff line key).mp marked).1, markLine, markStart_eq]
    exact ⟨'/', _, rfl, Or.inr rfl⟩
  · obtain ⟨c, rest, rfl, head⟩ := head_of_member _ line key opened
    exact ⟨c, rest, rfl, Or.inl head⟩
  · obtain ⟨rest, found⟩ := Option.isSome_iff_exists.mp starts
    rw [(Text.after_eq_some_iff _ _ _).mp found, markStart_eq]
    exact ⟨'/', _, rfl, Or.inr rfl⟩

theorem plain_of_third (c : Char) (rest : Text) (name : isNameHead c = false) (slash : c ≠ '/') :
    isSpecial (' ' :: ' ' :: c :: rest) = false := by
  rw [Bool.eq_false_iff]
  intro special
  obtain ⟨d, other, same, head⟩ := third_of_special _ special
  cases same
  rcases head with head | rfl
  · rw [name] at head
    cases head
  · exact slash rfl

theorem plain_of_outer (line : Text) (outer : ∀ rest, line ≠ ' ' :: ' ' :: rest) :
    isSpecial line = false := by
  rw [Bool.eq_false_iff]
  intro special
  obtain ⟨c, rest, same, _⟩ := third_of_special line special
  exact outer _ same

theorem not_special (line : Text) (plain : isSpecial line = false) :
    (startsDoc line = false ∧ isHead line = false) ∧ Text.after? markStart line = none := by
  simp only [isSpecial, Bool.or_eq_false_iff] at plain
  refine ⟨plain.1, ?_⟩
  cases found : Text.after? markStart line with
  | none => rfl
  | some rest =>
    rw [Text.startsWith, found] at plain
    cases plain.2

end Special

section Heads

theorem isName_identifier (name : Text) (identifier : Reading.isIdentifier name = true) :
    isName name = true := by
  cases name with
  | nil => cases identifier
  | cons c name =>
    simp only [Reading.isIdentifier, Bool.and_eq_true, List.all_eq_true] at identifier
    simp only [isName, Bool.and_eq_true, List.all_eq_true]
    refine ⟨?_, fun d member => tail_of_nameChar d (identifier.2 d member)⟩
    have start := identifier.1
    simp only [Token.isNameStart, Bool.or_eq_true] at start
    simp only [isNameHead, Bool.or_eq_true]
    exact Or.inl start

theorem cutAt_of_after (pattern text rest : Text) (found : Text.after? pattern text = some rest) :
    Text.cutAt? pattern text = some ([], rest) := by
  cases text <;> simp [Text.cutAt?, found]

-- A pattern is found where it stands or before that.
theorem cutAt_append (pattern before rest : Text) :
    ∃ front back, Text.cutAt? pattern (before ++ (pattern ++ rest)) = some (front, back) ∧
      rest.length ≤ back.length := by
  induction before with
  | nil =>
    have here := (Text.after_eq_some_iff pattern (pattern ++ rest) rest).mpr rfl
    exact ⟨[], rest, cutAt_of_after _ _ _ here, Nat.le_refl _⟩
  | cons c before ih =>
    cases found : Text.after? pattern (c :: before ++ (pattern ++ rest)) with
    | some other =>
      refine ⟨[], other, cutAt_of_after _ _ _ found, ?_⟩
      have sizes := congrArg List.length ((Text.after_eq_some_iff _ _ _).mp found)
      simp only [List.length_append, List.length_cons] at sizes
      omega
    | none =>
      obtain ⟨front, back, cut, longer⟩ := ih
      refine ⟨c :: front, back, ?_, longer⟩
      rw [List.cons_append] at found ⊢
      simp only [Text.cutAt?, found, cut, Option.map_some]

theorem closesParams_typed (params type : Text) (written : type ≠ []) :
    closesParams (params ++ ("): ".toList ++ type)) = true := by
  obtain ⟨front, back, cut, longer⟩ := cutAt_append "): ".toList params type
  have left : back ≠ [] := by
    rintro rfl
    exact written (List.length_eq_zero_iff.mp (Nat.le_zero.mp longer))
  rw [closesParams, cut]
  cases back with
  | nil => exact absurd rfl left
  | cons c back => simp

theorem memberKey_typed (ending params type : Text) (key : MemberKey)
    (named : isName key.name = true) (written : type ≠ []) :
    memberKey? ending (' ' :: ' ' :: (staticPart key.isStatic ++ key.name ++ ['('] ++ params
      ++ "): ".toList ++ type ++ ending)) = some key := by
  refine (memberKey_eq_some_iff ending _ key).mpr
    ⟨params ++ ("): ".toList ++ type), ?_, named, closesParams_typed params type written⟩
  simp only [memberLine, List.append_assoc, List.cons_append, List.nil_append]

-- A word and a blank behind it are no key of a member.
theorem memberKey_accessor (ending word rest : Text) (isStatic : Bool)
    (known : word = "get".toList ∨ word = "set".toList) :
    memberKey? ending (' ' :: ' ' :: (staticPart isStatic ++ (word ++ ' ' :: rest))) = none := by
  have named : name? (word ++ ' ' :: rest) = some (word, ' ' :: rest) := by
    refine name_append word _ ?_ (fun c head => by cases head; decide)
    rcases known with rfl | rfl <;> decide
  have unstatic : Text.after? "static ".toList (word ++ ' ' :: rest) = none := by
    rcases known with rfl | rfl <;> rfl
  have opened : (Text.after? "  ".toList
      (' ' :: ' ' :: (staticPart isStatic ++ (word ++ ' ' :: rest)))).bind key? =
      some (⟨isStatic, word⟩, ' ' :: rest) := by
    change key? (staticPart isStatic ++ (word ++ ' ' :: rest)) = _
    cases isStatic with
    | true =>
      have static : Text.after? "static ".toList (staticPart true ++ (word ++ ' ' :: rest)) =
          some (word ++ ' ' :: rest) := (Text.after_eq_some_iff _ _ _).mpr rfl
      rw [key?, static]
      simp [named]
    | false =>
      rw [staticPart, if_neg Bool.false_ne_true, List.nil_append, key?, unstatic]
      simp [named]
  rw [memberKey?, opened]
  split
  · next same => cases same
  · rfl

end Heads

section Kept

/-- A line that is neither blank nor the brace that closes the class. -/
structure Solid (line : Text) : Prop where
  visible : Text.isBlankLine line = false
  inner : line ≠ ['\x7d']

/-- A solid line without line breaks that is no mark. -/
structure Kept (line : Text) : Prop extends Solid line where
  whole : Text.OneLine line
  unmarked : Text.after? markStart line = none

namespace ScriptLine

theorem shown_of_ne_nil (depth : Nat) (text : Text) (written : text ≠ []) :
    shown ⟨depth, text⟩ = List.replicate (2 * depth) ' ' ++ text := by
  have full : text.isEmpty = false := by simpa using written
  rw [shown, full]
  rfl

theorem shown_member (text : Text) (written : text ≠ []) :
    shown ⟨1, text⟩ = ' ' :: ' ' :: text := shown_of_ne_nil 1 text written

theorem shown_body (text : Text) (written : text ≠ []) :
    shown ⟨2, text⟩ = ' ' :: ' ' :: ' ' :: ' ' :: text := shown_of_ne_nil 2 text written

theorem shown_branch (text : Text) (written : text ≠ []) :
    shown ⟨3, text⟩ = ' ' :: ' ' :: ' ' :: ' ' :: ' ' :: ' ' :: text :=
  shown_of_ne_nil 3 text written

end ScriptLine

/-- A kept line inside the body of a member. -/
structure Deep (line : Text) : Prop extends Kept line where
  deep : ∃ rest, line = ' ' :: ' ' :: ' ' :: rest

theorem deep_of_spaces (text : Text) (whole : Text.OneLine text) (c : Char) (member : c ∈ text)
    (ink : isBlank c = false) : Deep (' ' :: ' ' :: ' ' :: text) where
  visible := Text.not_blankLine _ c (by simp [member]) ink
  inner := fun same => by cases same
  whole := by
    simp only [Text.oneLine_cons]
    exact ⟨by decide, by decide, by decide, whole⟩
  unmarked := (not_special _ (plain_of_third ' ' text (by decide) (by decide))).2
  deep := ⟨text, rfl⟩

theorem Deep.plain {line : Text} (deep : Deep line) :
    startsDoc line = false ∧ isHead line = false := by
  obtain ⟨rest, rfl⟩ := deep.deep
  exact (not_special _ (plain_of_third ' ' rest (by decide) (by decide))).1

theorem Deep.unended {line : Text} (deep : Deep line) : isBodyEnd line = false := by
  obtain ⟨rest, rfl⟩ := deep.deep
  rw [isBodyEnd, beq_eq_false_iff_ne]
  exact fun same => by cases same

theorem deep_body (text : Text) (whole : Text.OneLine text) (c : Char) (member : c ∈ text)
    (ink : isBlank c = false) : Deep (ScriptLine.shown ⟨2, text⟩) := by
  rw [ScriptLine.shown_body text (List.ne_nil_of_mem member)]
  exact deep_of_spaces _ (by simpa using whole) c (List.mem_cons_of_mem _ member) ink

theorem deep_branch (text : Text) (whole : Text.OneLine text) (c : Char) (member : c ∈ text)
    (ink : isBlank c = false) : Deep (ScriptLine.shown ⟨3, text⟩) := by
  rw [ScriptLine.shown_branch text (List.ne_nil_of_mem member)]
  exact deep_of_spaces _ (by simpa using whole) c (by simp [member]) ink

/-- The line that ends a member. -/
def bodyEnd : Text := ' ' :: ' ' :: ['\x7d']

theorem kept_bodyEnd : Kept bodyEnd where
  visible := by decide
  inner := by decide
  whole := by decide
  unmarked := by decide

theorem plain_bodyEnd : startsDoc bodyEnd = false ∧ isHead bodyEnd = false :=
  (not_special bodyEnd (plain_of_third '\x7d' [] (by decide) (by decide))).1

end Kept

section Documents

namespace DocBlock

/-- The line of an entry in documentation of a member. -/
def entryLine (entry : Text) : Text := ' ' :: ' ' :: ' ' :: '*' :: ' ' :: escape entry

theorem endsDoc_entryLine (entry : Text) : endsDoc (entryLine entry) = false := by
  rw [endsDoc, Option.isSome_eq_false_iff, Option.isNone_iff_eq_none]
  cases found : before? ['*', '/'] (Text.trimEnd (entryLine entry)) with
  | none => rfl
  | some rest =>
    have ends : ['*', '/'] <:+: Text.trimEnd (entryLine entry) := by
      rw [before_inv _ _ _ found]
      exact (List.suffix_append rest _).isInfix
    have inside := ends.trans (Text.trimEnd_prefix _).isInfix
    simp only [entryLine, List.infix_cons_iff, List.cons_prefix_cons] at inside
    simp [escape_free] at inside

theorem shown_lines (block : DocBlock) (written : block ≠ []) :
    (block.lines 1).map ScriptLine.shown =
      "  /**".toList :: (block.map entryLine ++ ["   */".toList]) := by
  have full : block.isEmpty = false := by simpa using written
  have entries : (block.map fun entry => (⟨1, " * ".toList ++ escape entry⟩ : ScriptLine)).map
      ScriptLine.shown = block.map entryLine := by
    rw [List.map_map]
    rfl
  rw [lines, full, if_neg Bool.false_ne_true, List.map_append, List.map_append, entries]
  rfl

theorem above_shown (block : DocBlock) : Above ((block.lines 1).map ScriptLine.shown) := by
  by_cases written : block = []
  · exact Or.inl (by rw [written]; rfl)
  · rw [shown_lines block written]
    refine Or.inr ⟨⟨_, _, rfl, by decide⟩,
      "  /**".toList :: block.map entryLine, _, rfl, by decide, ?_⟩
    refine List.forall_mem_cons.mpr ⟨by decide, fun line member => ?_⟩
    obtain ⟨entry, _, rfl⟩ := List.mem_map.mp member
    exact endsDoc_entryLine entry

theorem kept_shown (block : DocBlock) (fits : block.Fits) :
    ∀ line ∈ (block.lines 1).map ScriptLine.shown, Kept line := by
  by_cases written : block = []
  · exact fun line member => by rw [written] at member; cases member
  · rw [shown_lines block written]
    refine List.forall_mem_cons.mpr ⟨⟨⟨by decide, by decide⟩, by decide, by decide⟩, ?_⟩
    refine List.forall_mem_append.mpr ⟨fun line member => ?_, ?_⟩
    · obtain ⟨entry, own, rfl⟩ := List.mem_map.mp member
      refine (deep_of_spaces _ ?_ '*' (by simp) (by decide)).toKept
      simp only [Text.oneLine_cons]
      exact ⟨by decide, by decide, oneLine_escape entry (fits entry own)⟩
    · have closing := deep_of_spaces "*/".toList (by decide) '*' (by decide) (by decide)
      exact List.forall_mem_singleton.mpr closing.toKept

end DocBlock

end Documents

section Heads

def Signature.key (signature : Signature) : MemberKey := ⟨signature.isStatic, signature.name⟩

def Dispatch.key (dispatch : Dispatch) : MemberKey := ⟨dispatch.isStatic, dispatch.name⟩

theorem kept_of_third (c : Char) (rest : Text) (slash : c ≠ '/') (whole : Text.OneLine (c :: rest))
    (d : Char) (member : d ∈ c :: rest) (ink : isBlank d = false) :
    Kept (' ' :: ' ' :: c :: rest) where
  visible := Text.not_blankLine _ d (List.mem_cons_of_mem _ (List.mem_cons_of_mem _ member)) ink
  inner := fun same => by cases same
  whole := by
    rw [Text.oneLine_cons, Text.oneLine_cons]
    exact ⟨by decide, by decide, whole⟩
  unmarked := by
    rw [markStart_eq]
    simp [Text.after?, Ne.symm slash]

theorem kept_keyed (key : MemberKey) (rest : Text) (named : isName key.name = true)
    (whole : Text.OneLine (staticPart key.isStatic ++ key.name ++ '(' :: rest)) :
    Kept (' ' :: ' ' :: (staticPart key.isStatic ++ key.name ++ '(' :: rest)) := by
  have member : '(' ∈ staticPart key.isStatic ++ key.name ++ '(' :: rest := by simp
  obtain ⟨c, text, same, head⟩ := head_of_key key named ('(' :: rest)
  rw [same] at whole member ⊢
  refine kept_of_third c text ?_ whole '(' member (by decide)
  rintro rfl
  exact absurd head (by decide)

theorem oneLine_joined (isStatic : Bool) (name params type ending : Text)
    (nameFree : Text.OneLine name) (paramsFree : Text.OneLine params) (typeFree : Text.OneLine type)
    (endingFree : Text.OneLine ending) :
    Text.OneLine (staticPart isStatic ++ name
      ++ '(' :: (params ++ ("): ".toList ++ (type ++ ending)))) := by
  simp only [Text.oneLine_append, Text.oneLine_cons]
  exact ⟨⟨Text.oneLine_staticPart isStatic, nameFree⟩, by decide, paramsFree, by decide, typeFree,
    endingFree⟩

theorem kept_typed (key : MemberKey) (params type ending : Text)
    (identifier : Reading.isIdentifier key.name = true) (paramsFree : Text.OneLine params)
    (typeFree : Text.OneLine type) (endingFree : Text.OneLine ending) :
    Kept (' ' :: ' ' :: (staticPart key.isStatic ++ key.name ++ ['('] ++ params
      ++ "): ".toList ++ type ++ ending)) := by
  have kept := kept_keyed key (params ++ ("): ".toList ++ (type ++ ending)))
    (isName_identifier key.name identifier) (oneLine_joined key.isStatic key.name params type ending
      (Text.oneLine_identifier _ identifier) paramsFree typeFree endingFree)
  simpa only [List.append_assoc, List.cons_append, List.nil_append] using kept

namespace Signature

variable (signature : Signature) (fits : signature.Fits) (ending : Text)

include fits in
theorem oneLine_params : Text.OneLine
    (Text.join ", ".toList (signature.params.map ScriptParam.text)) := by
  refine Text.oneLine_join _ _ (by decide) fun text member => ?_
  obtain ⟨param, own, rfl⟩ := List.mem_map.mp member
  unfold ScriptParam.text
  simp only [Text.oneLine_append]
  exact ⟨⟨fits.params param own, by decide⟩, param.type.oneLine_text⟩

include fits in
theorem memberKey_text :
    memberKey? ending (' ' :: ' ' :: (signature.text ++ ending)) = some signature.key :=
  memberKey_typed ending _ _ signature.key (isName_identifier _ fits.name) fits.typed

include fits in
theorem kept_text (free : Text.OneLine ending) : Kept (' ' :: ' ' :: (signature.text ++ ending)) :=
  kept_typed signature.key _ _ ending fits.name (signature.oneLine_params fits) fits.returns free

end Signature

namespace Dispatch

variable (dispatch : Dispatch) (fits : dispatch.Fits)

include fits in
theorem returns_fit : dispatch.returns ≠ [] ∧
    ∀ type ∈ dispatch.returns, Text.OneLine type ∧ type ≠ [] := by
  have each : ∀ type ∈ dispatch.returns, Text.OneLine type ∧ type ≠ [] := by
    intro type member
    rcases mem_adopt _ _ _ member with none | given
    · cases none
    · obtain ⟨overload, own, rfl⟩ := List.mem_map.mp given
      have signature := (fits.overloads overload own).1.signature
      exact ⟨signature.returns, signature.typed⟩
  refine ⟨?_, each⟩
  obtain ⟨overload, own⟩ := List.exists_mem_of_ne_nil _ fits.written
  have first : overload.signature.returns.text ∈ dispatch.returns :=
    mem_adopt_of_mem _ _ (List.mem_map.mpr ⟨overload, own, rfl⟩)
  exact List.ne_nil_of_mem first

include fits in
theorem oneLine_params : Text.OneLine (Text.join ", ".toList
    (dispatch.params.map UnionParam.text ++ ["...rest: unknown[]".toList])) := by
  refine Text.oneLine_join _ _ (by decide) (List.forall_mem_append.mpr ⟨fun text member => ?_, ?_⟩)
  · obtain ⟨param, own, rfl⟩ := List.mem_map.mp member
    obtain ⟨name, types⟩ := fits.params param own
    unfold UnionParam.text
    simp only [Text.oneLine_append]
    exact ⟨⟨name, by decide⟩, Text.oneLine_join _ _ (by decide) types⟩
  · exact List.forall_mem_singleton.mpr (by decide)

include fits in
theorem oneLine_returns : Text.OneLine (Text.join " | ".toList dispatch.returns) :=
  Text.oneLine_join _ _ (by decide) fun type member => ((dispatch.returns_fit fits).2 type member).1

include fits in
theorem typed : Text.join " | ".toList dispatch.returns ≠ [] := by
  obtain ⟨written, each⟩ := dispatch.returns_fit fits
  cases returns : dispatch.returns with
  | nil => exact absurd returns written
  | cons first later =>
    have nonempty := (each first (by simp [returns])).2
    cases later with
    | nil => simpa using nonempty
    | cons second later =>
      rw [Text.join_cons_cons]
      simp [nonempty]

include fits in
theorem implementationKey_head :
    implementationKey? (' ' :: ' ' :: (dispatch.head ++ " \x7b".toList)) = some dispatch.key :=
  memberKey_typed _ _ _ dispatch.key (isName_identifier _ fits.name) (dispatch.typed fits)

include fits in
theorem kept_head : Kept (' ' :: ' ' :: (dispatch.head ++ " \x7b".toList)) :=
  kept_typed dispatch.key _ _ _ fits.name (dispatch.oneLine_params fits)
    (dispatch.oneLine_returns fits) (by decide)

include fits in
theorem oneLine_gathering : Text.OneLine dispatch.gathering := by
  have names : Text.OneLine (Text.join ", ".toList
      (dispatch.params.map (·.name) ++ ["...rest".toList])) := by
    refine Text.oneLine_join _ _ (by decide) (List.forall_mem_append.mpr ⟨fun text member => ?_, ?_⟩)
    · obtain ⟨param, own, rfl⟩ := List.mem_map.mp member
      exact (fits.params param own).1
    · exact List.forall_mem_singleton.mpr (by decide)
  unfold gathering
  simp only [Text.oneLine_append]
  exact ⟨⟨by decide, names⟩, by decide⟩

include fits in
theorem oneLine_failure : Text.OneLine dispatch.failure := by
  unfold failure
  simp only [Text.oneLine_append]
  exact ⟨⟨by decide, fits.base⟩, by decide⟩

end Dispatch

end Heads

section Bodies

theorem mem_statement (statement : Statement) : ';' ∈ statement.text := by
  cases statement <;> unfold Statement.text <;> simp only [List.mem_append] <;> simp

theorem deep_statement (statement : Statement) (whole : Text.OneLine statement.text) :
    Deep (ScriptLine.shown ⟨2, statement.text⟩) :=
  deep_body _ whole ';' (mem_statement statement) (by decide)

theorem Overload.deep_branchLines (overload : Overload) (fits : overload.Fits) :
    ∀ line ∈ overload.branchLines.map ScriptLine.shown, Deep line := by
  have test : Text.OneLine
      ("if (args.length === ".toList ++ Text.ofNat overload.arity ++ ") \x7b".toList) := by
    simp only [Text.oneLine_append]
    exact ⟨⟨by decide, Text.oneLine_ofNat _⟩, by decide⟩
  have branch := deep_body _ test '\x7b' (List.mem_append_right _ (by decide)) (by decide)
  have body := deep_branch _ fits.body ';' (mem_statement overload.body) (by decide)
  have leave := deep_branch "return;".toList (by decide) ';' (by decide) (by decide)
  have close := deep_body ['\x7d'] (by decide) '\x7d' (by decide) (by decide)
  unfold branchLines
  intro line member
  simp only [List.map_append, List.map_cons, List.map_nil, List.mem_append, List.mem_cons,
    List.not_mem_nil, or_false] at member
  rcases member with ((rfl | rfl) | last) | rfl
  · exact branch
  · exact body
  · split at last
    · cases last
    · rw [List.mem_singleton.mp last]
      exact leave
  · exact close

/-- The lines of an overloaded member between its head and its end. -/
def Dispatch.bodyLines (dispatch : Dispatch) : List Text :=
  ScriptLine.shown ⟨2, dispatch.gathering⟩ ::
    (dispatch.overloads.flatMap Overload.branchLines).map ScriptLine.shown ++
      [ScriptLine.shown ⟨2, dispatch.failure⟩]

theorem Dispatch.deep_bodyLines (dispatch : Dispatch) (fits : dispatch.Fits) :
    ∀ line ∈ dispatch.bodyLines, Deep line := by
  refine List.forall_mem_append.mpr ⟨List.forall_mem_cons.mpr ⟨?_, fun line member => ?_⟩, ?_⟩
  · refine deep_body _ (dispatch.oneLine_gathering fits) ';' ?_ (by decide)
    exact List.mem_append_right _ (by decide)
  · obtain ⟨own, inside, rfl⟩ := List.mem_map.mp member
    obtain ⟨overload, known, here⟩ := List.mem_flatMap.mp inside
    exact overload.deep_branchLines (fits.overloads overload known).1 _ (List.mem_map_of_mem here)
  · refine List.forall_mem_singleton.mpr
      (deep_body _ (dispatch.oneLine_failure fits) ';' ?_ (by decide))
    exact List.mem_append_right _ (by decide)

theorem upTo_deep (inner : List Text) (deep : ∀ line ∈ inner, Deep line) :
    UpTo isBodyEnd (inner ++ [bodyEnd]) :=
  ⟨inner, bodyEnd, rfl, by decide, fun line member => (deep line member).unended⟩

end Bodies

section Accessors

theorem markerKey_of_unmarked (line : Text) (unmarked : Text.after? markStart line = none) :
    markerKey? line = none := by
  cases marked : markerKey? line with
  | none => rfl
  | some key =>
    have starts : Text.after? markStart line = some (staticPart key.isStatic ++ key.name) := by
      rw [Text.after_eq_some_iff, ((markerKey_eq_some_iff line key).mp marked).1, markLine]
    rw [unmarked] at starts
    cases starts

/-- The line that opens an accessor, from its kind on. -/
def accessorLine (isStatic : Bool) (word rest : Text) : Text :=
  ' ' :: ' ' :: (staticPart isStatic ++ (word ++ ' ' :: rest))

variable (isStatic : Bool) (word rest : Text) (known : word = "get".toList ∨ word = "set".toList)

include known in
theorem kept_accessorLine (whole : Text.OneLine rest) : Kept (accessorLine isStatic word rest) := by
  have named : isName word = true := by rcases known with rfl | rfl <;> decide
  have free : Text.OneLine word := by rcases known with rfl | rfl <;> decide
  have line : Text.OneLine (staticPart isStatic ++ word ++ ' ' :: rest) := by
    simp only [Text.oneLine_append, Text.oneLine_cons]
    exact ⟨⟨Text.oneLine_staticPart isStatic, free⟩, by decide, whole⟩
  obtain ⟨c, text, same, head⟩ := head_of_key ⟨isStatic, word⟩ named (' ' :: rest)
  have opened : accessorLine isStatic word rest = ' ' :: ' ' :: c :: text := by
    rw [← same, accessorLine, List.append_assoc]
  have letter : 'e' ∈ staticPart isStatic ++ word ++ ' ' :: rest := by
    refine List.mem_append_left _ (List.mem_append_right _ ?_)
    rcases known with rfl | rfl <;> decide
  rw [opened]
  rw [same] at line letter
  refine kept_of_third c text ?_ line 'e' letter (by decide)
  rintro rfl
  exact absurd head (by decide)

include known in
theorem plain_accessorLine (whole : Text.OneLine rest) :
    startsDoc (accessorLine isStatic word rest) = false ∧
      isHead (accessorLine isStatic word rest) = false := by
  have unmarked := (kept_accessorLine isStatic word rest known whole).unmarked
  refine ⟨?_, (not_isHead _).mpr ⟨memberKey_accessor _ word rest isStatic known,
    markerKey_of_unmarked _ unmarked, memberKey_accessor _ word rest isStatic known⟩⟩
  rw [Bool.eq_false_iff]
  intro starts
  obtain ⟨later, same⟩ := (startsDoc_iff _).mp starts
  have text := (List.cons.inj (List.cons.inj same).2).2
  rcases known with rfl | rfl <;> cases isStatic <;> cases text

/-- A text that opens the block of an accessor. -/
def OpensAccessor (head : Text) : Prop :=
  ∃ isStatic word rest, (word = "get".toList ∨ word = "set".toList) ∧ Text.OneLine rest ∧
    ' ' :: ' ' :: (head ++ " \x7b".toList) = accessorLine isStatic word rest

theorem OpensAccessor.kept {head : Text} (opened : OpensAccessor head) :
    Kept (' ' :: ' ' :: (head ++ " \x7b".toList)) := by
  obtain ⟨isStatic, word, rest, known, whole, same⟩ := opened
  exact same ▸ kept_accessorLine isStatic word rest known whole

theorem OpensAccessor.plain {head : Text} (opened : OpensAccessor head) :
    startsDoc (' ' :: ' ' :: (head ++ " \x7b".toList)) = false ∧
      isHead (' ' :: ' ' :: (head ++ " \x7b".toList)) = false := by
  obtain ⟨isStatic, word, rest, known, whole, same⟩ := opened
  exact same ▸ plain_accessorLine isStatic word rest known whole

theorem opensAccessor_getter (isStatic : Bool) (name : Text) (type : ScriptType)
    (whole : Text.OneLine name) : OpensAccessor
      (staticPart isStatic ++ "get ".toList ++ name ++ "(): ".toList ++ type.text) := by
  refine ⟨isStatic, "get".toList, name ++ "(): ".toList ++ type.text ++ " \x7b".toList, Or.inl rfl,
    ?_, ?_⟩
  · simp only [Text.oneLine_append]
    exact ⟨⟨⟨whole, by decide⟩, type.oneLine_text⟩, by decide⟩
  · simp only [accessorLine, List.append_assoc]
    rfl

theorem opensAccessor_setter (isStatic : Bool) (name : Text) (type : ScriptType)
    (whole : Text.OneLine name) : OpensAccessor
      (staticPart isStatic ++ "set ".toList ++ name ++ "(value: ".toList ++ type.text ++ [')']) := by
  refine ⟨isStatic, "set".toList, name ++ "(value: ".toList ++ type.text ++ [')'] ++ " \x7b".toList,
    Or.inr rfl, ?_, ?_⟩
  · simp only [Text.oneLine_append]
    exact ⟨⟨⟨⟨whole, by decide⟩, type.oneLine_text⟩, by decide⟩, by decide⟩
  · simp only [accessorLine, List.append_assoc]
    rfl

end Accessors

section Members

namespace ScriptMember

/-- The items that the lines of a member are read as. -/
def items (member : ScriptMember) : List Item :=
  match member with
  | getter .. | setter .. => rawLines (member.lines.map ScriptLine.shown)
  | function _ head _ => [implementation head.key (member.lines.map ScriptLine.shown)]
  | overloaded dispatch =>
    (dispatch.overloads.map fun overload =>
        signature dispatch.key (overload.signatureLines.map ScriptLine.shown))
      ++ [implementation dispatch.key (dispatch.implementationLines.map ScriptLine.shown)]
  | incomplete isStatic name => [Item.marker ⟨isStatic, name⟩ []]

theorem shown_block (doc : DocBlock) (head : Text) (body : Statement) :
    (block doc head body).map ScriptLine.shown = (doc.lines 1).map ScriptLine.shown ++
      (' ' :: ' ' :: (head ++ " \x7b".toList)) ::
        ([ScriptLine.shown ⟨2, body.text⟩] ++ [bodyEnd]) := by
  have written : head ++ " \x7b".toList ≠ [] := by simp
  rw [block, List.map_append, List.map_cons, ScriptLine.shown_member _ written]
  rfl

theorem ofLines_accessor (doc : DocBlock) (head : Text) (body : Statement) (below : List Text)
    (opened : OpensAccessor head) (free : Text.OneLine body.text) :
    ofLines ((block doc head body).map ScriptLine.shown ++ below) =
      rawLines ((block doc head body).map ScriptLine.shown) ++ ofLines below := by
  have first := opened.plain
  have others : ∀ line ∈ [ScriptLine.shown ⟨2, body.text⟩, bodyEnd],
      startsDoc line = false ∧ isHead line = false :=
    List.forall_mem_cons.mpr ⟨(deep_statement body free).plain,
      List.forall_mem_singleton.mpr plain_bodyEnd⟩
  have lines := ofLines_rawLines ((' ' :: ' ' :: (head ++ " \x7b".toList)) :: _) below
    (List.forall_mem_cons.mpr ⟨first, others⟩)
  rw [shown_block, List.append_assoc]
  rcases doc.above_shown with none | documents
  · rw [none, List.nil_append, List.nil_append]
    exact lines
  · have read := ofLines_comment _ ([ScriptLine.shown ⟨2, body.text⟩, bodyEnd] ++ below) _
      documents first.2
    refine (read.trans (congrArg _ lines)).trans ?_
    simp [rawLines]

theorem ofLines_function (doc : DocBlock) (signature : Signature) (body : Statement)
    (fits : (function doc signature body).Fits) (below : List Text) :
    ofLines ((function doc signature body).lines.map ScriptLine.shown ++ below) =
      (function doc signature body).items ++ ofLines below := by
  obtain ⟨_, signed, free⟩ := fits
  have opened : implementationKey? (' ' :: ' ' :: (signature.text ++ " \x7b".toList)) =
      some signature.key := signature.memberKey_text signed _
  have whole := upTo_deep [ScriptLine.shown ⟨2, body.text⟩]
    (List.forall_mem_singleton.mpr (deep_statement body free))
  have read := ofLines_implementation _ _ below _ _ doc.above_shown opened whole
  change ofLines ((block doc signature.text body).map ScriptLine.shown ++ below) =
    [implementation signature.key ((block doc signature.text body).map ScriptLine.shown)]
      ++ ofLines below
  rw [shown_block, List.append_assoc, List.cons_append, read]
  rfl

theorem shown_signatureLines (overload : Overload) :
    overload.signatureLines.map ScriptLine.shown = (overload.doc.lines 1).map ScriptLine.shown ++
      [' ' :: ' ' :: (overload.signature.text ++ [';'])] := by
  have written : overload.signature.text ++ [';'] ≠ [] := by simp
  rw [Overload.signatureLines, List.map_append, List.map_singleton,
    ScriptLine.shown_member _ written]

theorem shown_implementationLines (dispatch : Dispatch) :
    dispatch.implementationLines.map ScriptLine.shown =
      (' ' :: ' ' :: (dispatch.head ++ " \x7b".toList)) :: (dispatch.bodyLines ++ [bodyEnd]) := by
  have written : dispatch.head ++ " \x7b".toList ≠ [] := by simp
  have head := ScriptLine.shown_member _ written
  simp only [Dispatch.implementationLines, Dispatch.bodyLines, List.map_append, List.map_cons,
    List.map_nil, List.append_assoc, List.cons_append, List.nil_append, head]
  rfl

theorem ofLines_signatures (key : MemberKey) (overloads : List Overload) (below : List Text)
    (each : ∀ overload ∈ overloads, overload.Fits ∧ overload.signature.key = key) :
    ofLines ((overloads.flatMap Overload.signatureLines).map ScriptLine.shown ++ below) =
      (overloads.map fun overload =>
        signature key (overload.signatureLines.map ScriptLine.shown)) ++ ofLines below := by
  induction overloads with
  | nil => rfl
  | cons overload overloads ih =>
    obtain ⟨fits, keyed⟩ := each overload List.mem_cons_self
    have signed : signatureKey? (' ' :: ' ' :: (overload.signature.text ++ [';'])) = some key :=
      keyed ▸ overload.signature.memberKey_text fits.signature _
    rw [List.flatMap_cons, List.map_append, shown_signatureLines, List.append_assoc,
      List.append_assoc, List.singleton_append,
      ofLines_signature _ _ _ key overload.doc.above_shown signed,
      ih fun next member => each next (List.mem_cons_of_mem overload member), List.map_cons,
      shown_signatureLines, List.cons_append]

theorem ofLines_overloaded (dispatch : Dispatch) (fits : dispatch.Fits) (below : List Text) :
    ofLines ((overloaded dispatch).lines.map ScriptLine.shown ++ below) =
      (overloaded dispatch).items ++ ofLines below := by
  have keyed : ∀ overload ∈ dispatch.overloads,
      overload.Fits ∧ overload.signature.key = dispatch.key := by
    intro overload member
    obtain ⟨own, side, name⟩ := fits.overloads overload member
    exact ⟨own, by rw [Signature.key, side, name, Dispatch.key]⟩
  have read := ofLines_implementation [] _ below _ _ (Or.inl rfl)
    (dispatch.implementationKey_head fits) (upTo_deep _ (dispatch.deep_bodyLines fits))
  rw [List.nil_append, List.nil_append] at read
  change ofLines ((dispatch.overloads.flatMap Overload.signatureLines
    ++ dispatch.implementationLines).map ScriptLine.shown ++ below) = _
  rw [List.map_append, List.append_assoc, ofLines_signatures dispatch.key dispatch.overloads _ keyed,
    shown_implementationLines, List.cons_append, read, items, shown_implementationLines,
    List.append_assoc]
  rfl

theorem shown_incomplete (isStatic : Bool) (name : Text) :
    (incomplete isStatic name).lines.map ScriptLine.shown = [markLine ⟨isStatic, name⟩] := by
  have written : marker ++ [' '] ++ staticPart isStatic ++ name ≠ [] := by simp
  have shown := ScriptLine.shown_member _ written
  have start : ' ' :: ' ' :: (marker ++ [' '] ++ staticPart isStatic ++ name) =
      markLine ⟨isStatic, name⟩ := by
    rw [markLine, markStart_eq, List.append_assoc]
    rfl
  rw [start] at shown
  exact congrArg (fun line => [line]) shown

/-- The lines of a member are read as its items, whatever stands below. -/
theorem ofLines_lines (member : ScriptMember) (fits : member.Fits) (below : List Text) :
    ofLines (member.lines.map ScriptLine.shown ++ below) = member.items ++ ofLines below := by
  cases member with
  | getter doc isStatic name type call =>
    obtain ⟨_, nameFree, callFree⟩ := fits
    exact ofLines_accessor doc _ _ below (opensAccessor_getter isStatic name type nameFree)
      (Statement.oneLine_giveBack call type callFree)
  | setter doc isStatic name type call =>
    obtain ⟨_, nameFree, callFree⟩ := fits
    exact ofLines_accessor doc _ _ below (opensAccessor_setter isStatic name type nameFree)
      (Statement.oneLine_perform call callFree)
  | function doc signature body => exact ofLines_function doc signature body fits below
  | overloaded dispatch => exact ofLines_overloaded dispatch fits below
  | incomplete isStatic name =>
    have marked : markerKey? (markLine ⟨isStatic, name⟩) = some ⟨isStatic, name⟩ :=
      (markerKey_eq_some_iff _ _).mpr ⟨rfl, isName_identifier name fits⟩
    have read := ofLines_marker [] below _ _ (Or.inl rfl) marked
    rw [List.nil_append] at read
    rw [shown_incomplete, List.singleton_append, read]
    rfl

end ScriptMember

end Members

end HeaderBindings
