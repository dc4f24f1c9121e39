import HeaderBindings.Declaration.Comment
import HeaderBindings.Proofs.Checked.Access
import HeaderBindings.Script.Type
import Mathlib.Data.List.Induction
import Mathlib.Data.List.TakeWhile
import Mathlib.Tactic.SplitIfs

/-!
Texts read by places: the words and the tags of a documentation comment, and the angles of a native
type. Each place is found in the text itself, at a character that takes one byte or at the end of what
stands in front of it, and so it is the boundary of a character.
-/

namespace HeaderBindings

namespace Checked

variable {α β γ : Type}

theorem foldlM_eq {step : γ → α → Checked γ} {plain : γ → α → γ}
    (same : ∀ state member, step state member = .ok (plain state member)) (list : List α)
    (state : γ) : list.foldlM step state = .ok (list.foldl plain state) := by
  induction list generalizing state with
  | nil => rfl
  | cons member list ih => rw [List.foldlM_cons, same, ok_bind, ih, List.foldl_cons]

theorem mapM_eq {read : α → Checked β} (plain : α → β) (list : List α)
    (same : ∀ member ∈ list, read member = .ok (plain member)) :
    list.mapM read = .ok (list.map plain) := by
  induction list with
  | nil => rfl
  | cons member list ih =>
    obtain ⟨here, later⟩ := List.forall_mem_cons.mp same
    rw [List.mapM_cons, here, ok_bind, ih later, ok_bind, List.map_cons]
    rfl

/-- A text at its first character of a kind. -/
theorem findWhere_split (wanted : Char → Bool) (text : Text) :
    (findWhere? wanted text = none ∧ text.takeWhile (!wanted ·) = text ∧
      text.dropWhile (!wanted ·) = []) ∨
    ∃ front c back, text = front ++ c :: back ∧ wanted c = true ∧
      findWhere? wanted text = some (Text.byteCount front) ∧ text.takeWhile (!wanted ·) = front ∧
      text.dropWhile (!wanted ·) = c :: back := by
  unfold findWhere?
  cases left : text.dropWhile (!wanted ·) with
  | nil =>
    have none : ∀ c ∈ text, (!wanted c) = true := List.dropWhile_eq_nil_iff.mp left
    have absent : ¬ text.any wanted = true := by simpa using none
    exact .inl ⟨if_neg absent, List.takeWhile_eq_self_iff.mpr none, rfl⟩
  | cons c back =>
    have whole : text.takeWhile (!wanted ·) ++ c :: back = text := by
      rw [← left]
      exact List.takeWhile_append_dropWhile
    have stopped := List.head?_dropWhile_not (!wanted ·) text
    have here : wanted c = true := by simpa [left] using stopped
    have any : text.any wanted = true := by
      rw [← whole]
      simp [here]
    exact .inr ⟨_, c, back, whole.symm, here, if_pos any, rfl, rfl⟩

section Comments

open HeaderBindings.DocComment (Section)

/-- The text before the first blank and the text from it on, after leading blanks. -/
def splitWord (text : Text) : Checked (Text × Text) := do
  let text := Text.trimStart text
  match findWhere? isBlank text with
  | some stop => return (← till text stop, Text.trimStart (← since text stop))
  | none => return (text, [])

/-- Whether the character at a place is the sign of a tag; behind a backslash a command follows. -/
def isTagAt (line : Text) (place : Nat) (c : Char) : Checked Bool :=
  if c = '\\' then do
    let after ← since line (place + 1)
    return DocComment.commands.contains (after.takeWhile Char.isAlphanum)
  else return c == '@'

/-- The text before the first tag and the text from each tag's name on: a character is at a place, and
the text that it belongs to starts at another one. -/
def tagsFrom (line : Text) (start place : Nat) (afterBlank : Bool) : Text → Checked (List Text)
  | [] => do return [← since line start]
  | c :: text => do
    let isTag ← isTagAt line place c
    if isTag && afterBlank then do
      let segment ← part line start place
      return segment :: (← tagsFrom line (place + 1) (place + c.utf8Size) (isBlank c) text)
    else tagsFrom line start (place + c.utf8Size) (isBlank c) text

def openSection (tagged : Text) : Checked (Section × Text) := do
  let (tag, rest) ← splitWord tagged
  if tag = "param".toList then
    let (word, text) ← splitWord rest
    let name := word.dropTrailing (· == ':')
    return (if name.isEmpty then .ignored else .param name, text)
  else if tag = "return".toList || tag = "returns".toList || tag = "result".toList then
    return (.returns, rest)
  else if tag = "brief".toList || tag = "abstract".toList || tag = "discussion".toList then
    return (.description, rest)
  else return (.ignored, rest)

def readTag (state : DocComment × Section) (tagged : Text) : Checked (DocComment × Section) := do
  let (part, text) ← openSection tagged
  return (state.1.append text part, part)

def readComment (state : DocComment × Section) (line : Text) : Checked (DocComment × Section) := do
  match ← tagsFrom line 0 0 true line with
  | [] => return state
  | first :: later => later.foldlM readTag (state.1.append first state.2, state.2)

def docComment (block : Text) : Checked DocComment := do
  let lines := (block.lines.map DocComment.cleanLine).filter (!·.isEmpty)
  return (← lines.foldlM readComment ({}, .description)).1

theorem splitWord_eq (text : Text) : splitWord text = .ok text.splitWord := by
  rw [splitWord, Text.splitWord]
  rcases findWhere_split isBlank (Text.trimStart text) with
    ⟨absent, all, none⟩ | ⟨front, c, back, whole, -, found, before, behind⟩
  · simp only [absent, all, none]
    rfl
  · simp only [found, before, behind]
    rw [whole, till_append, since_append]
    rfl

theorem isTagAt_eq (front text : Text) (c : Char) :
    isTagAt (front ++ c :: text) front.byteCount c = .ok (DocComment.isTag c text) := by
  unfold isTagAt DocComment.isTag
  split
  · next slash =>
    subst slash
    have behind := since_append (front ++ ['\\']) text
    rw [List.append_assoc, List.singleton_append, Text.byteCount_append] at behind
    have one : Text.byteCount ['\\'] = 1 := rfl
    rw [← one, behind]
    rfl
  · next other =>
    have plain : (c == '\\') = false := by simpa using other
    simp [plain]
    rfl

/-- The sign of a tag takes one byte. -/
theorem utf8Size_tag {c : Char} {text : Text} (isTag : DocComment.isTag c text = true) :
    c.utf8Size = 1 := by
  simp only [DocComment.isTag, Bool.or_eq_true, Bool.and_eq_true, beq_iff_eq] at isTag
  rcases isTag with rfl | ⟨rfl, -⟩ <;> rfl

theorem tagsFrom_cut (done segment text : Text) (afterBlank : Bool) :
    tagsFrom (done ++ (segment ++ text)) done.byteCount (done.byteCount + segment.byteCount) afterBlank
        text =
      .ok ((segment ++ (DocComment.cutTags afterBlank text).1) ::
        (DocComment.cutTags afterBlank text).2) := by
  induction text generalizing done segment afterBlank with
  | nil =>
    rw [tagsFrom, List.append_nil, since_append, DocComment.cutTags, List.append_nil]
    rfl
  | cons c text ih =>
    have isTag := isTagAt_eq (done ++ segment) text c
    rw [List.append_assoc, Text.byteCount_append] at isTag
    rw [tagsFrom, isTag, ok_bind, DocComment.cutTags, Bool.and_comm]
    split
    · next tag =>
      have one := utf8Size_tag (Bool.and_eq_true_iff.mp tag).2
      have onwards := ih (done ++ (segment ++ [c])) [] (isBlank c)
      simp only [List.append_assoc, List.singleton_append, List.nil_append, Text.byteCount_append,
        Text.byteCount, Nat.add_zero, one, ← Nat.add_assoc] at onwards
      rw [part_append, one, onwards]
      simp
    · have onwards := ih done (segment ++ [c]) (isBlank c)
      simp only [List.append_assoc, List.singleton_append, Text.byteCount_append, Text.byteCount,
        Nat.add_zero, ← Nat.add_assoc] at onwards
      exact onwards

theorem openSection_eq (tagged : Text) :
    openSection tagged = .ok (DocComment.openSection tagged) := by
  simp only [openSection, DocComment.openSection, splitWord_eq, ok_bind]
  split_ifs <;> rfl

theorem readTag_eq (state : DocComment × Section) (tagged : Text) :
    readTag state tagged = .ok (DocComment.readTag state tagged) := by
  rw [readTag, openSection_eq]
  rfl

theorem readComment_eq (state : DocComment × Section) (line : Text) :
    readComment state line = .ok (DocComment.readLine state line) := by
  have cut := tagsFrom_cut [] [] line true
  simp only [Text.byteCount, List.nil_append, Nat.add_zero] at cut
  rw [readComment, cut]
  exact foldlM_eq readTag_eq _ _

theorem docComment_eq (block : Text) : docComment block = .ok (DocComment.parse block) := by
  rw [docComment]
  simp only [foldlM_eq readComment_eq, ok_bind]
  rfl

end Comments

section Types

open ScriptType (Family anyObject ofFamily)

/-- The base of a type and the text between its angles. -/
def splitAngles (native : Text) : Checked (Text × Option Text) :=
  match findWhere? (· == '<') native, native.getLast? with
  | some opens, some '>' => do
    let stop ← minus native.byteCount 1
    let inner ← part native (opens + 1) stop
    let base ← till native opens
    return (Text.trim base, some inner)
  | _, _ => return (native, none)

/-- The type that a native type maps to, in at most so many rounds. -/
def ofNative : Nat → Text → Checked ScriptType
  | 0, _ => .error .endless
  | rounds + 1, native => do
    let name := Text.trim native
    if name.isEmpty then return anyObject
    else if Family.strings.contains name then return .string
    else if name.contains '^' || name.contains '(' then return .opaqueObject name
    else do
      let (base, inner?) ← splitAngles name
      let args ← ((inner?.map ScriptType.arguments).getD []).mapM (ofNative rounds)
      return ofFamily name args (Family.ofBase base)

theorem splitAngles_eq (native : Text) : splitAngles native = .ok (ScriptType.splitAngles native) := by
  unfold splitAngles ScriptType.splitAngles
  rcases findWhere_split (· == '<') native with
    ⟨absent, -, none⟩ | ⟨front, c, inner, whole, opens, found, before, behind⟩
  · have gone : native.dropWhile (· != '<') = [] := none
    rw [absent, gone]
    rfl
  · obtain rfl : c = '<' := by simpa using opens
    have gone : native.dropWhile (· != '<') = '<' :: inner := behind
    have base : native.takeWhile (· != '<') = front := before
    rw [found, gone, base]
    split
    · next place same last =>
      obtain rfl := Option.some.inj same
      -- The closing angle is behind the opening one, which is another character.
      obtain ⟨arguments, rfl⟩ : ∃ arguments, inner = arguments ++ ['>'] := by
        cases inner using List.reverseRecOn with
        | nil => simp [whole] at last
        | append_singleton arguments d =>
          rw [whole, ← List.cons_append, ← List.append_assoc, List.getLast?_concat] at last
          exact ⟨arguments, by rw [Option.some.inj last]⟩
      have opening : Text.byteCount front + 1 = Text.byteCount (front ++ ['<']) :=
        (Text.byteCount_append front ['<']).symm
      have apart : native = (front ++ ['<']) ++ (arguments ++ ['>']) := by simp [whole]
      have stop : minus native.byteCount 1 =
          .ok (Text.byteCount (front ++ ['<']) + Text.byteCount arguments) := by
        rw [apart, Text.byteCount_append, Text.byteCount_append arguments, ← Nat.add_assoc]
        exact minus_add _ 1
      have within : part native (Text.byteCount front + 1)
          (Text.byteCount (front ++ ['<']) + Text.byteCount arguments) = .ok arguments := by
        rw [opening, apart]
        exact part_append _ _ _
      have base' : till native front.byteCount = .ok front := by
        rw [whole]
        exact till_append _ _
      simp only [stop, ok_bind, within, base', last, List.dropLast_concat]
      rfl
    · next other =>
      split
      · next last => exact absurd last (other _ rfl)
      · rfl

theorem ofNative_eq (rounds : Nat) (native : Text) (enough : native.length < rounds) :
    ofNative rounds native = .ok (ScriptType.ofNative native) := by
  induction rounds generalizing native with
  | zero => omega
  | succ rounds ih =>
    have args : ((ScriptType.splitAngles native.trim).2.map ScriptType.arguments).getD [] =
        ScriptType.argumentsOf native.trim := by
      rw [ScriptType.argumentsOf]
      cases (ScriptType.splitAngles native.trim).2 <;> rfl
    have shorter := Text.length_trim native
    have inner := mapM_eq ScriptType.ofNative (ScriptType.argumentsOf native.trim)
      fun argument member => ih argument (by
        have := ScriptType.length_argumentOf _ _ member
        omega)
    rw [ofNative, ScriptType.ofNative, List.attach_map_val]
    simp only [splitAngles_eq, ok_bind, args, inner]
    split_ifs <;> rfl

end Types

end Checked

end HeaderBindings
