import HeaderBindings.Proofs.Declaration.Property

/-!
The body of a property: a type with the name behind it, or a block's type with the name behind its
caret. Both are read as the same name and type, since the name is looked for behind the first caret, and
where none is there it is the last identifier.
-/

namespace HeaderBindings

open Property.Reader

/-- How the name and the type of a property may be written. -/
inductive WrittenProperty.Body (written : WrittenProperty) : List Token → Prop
  | plain (typed : written.type ≠ [])
      (carets : NativeType.CaretsBare (written.type ++ [.identifier written.name]))
      (name : isMacroName written.name = false) :
      written.Body (written.type ++ [.identifier written.name])
  | block (result params : List Token)
      (type : written.type = result ++ .leftParen :: .caret :: .rightParen :: enclosed params)
      (first : .caret ∉ result) (carets : NativeType.CaretsBare params)
      (nests : Token.Nests .leftParen .rightParen params) :
      written.Body
        (result ++ .leftParen :: .caret :: .identifier written.name :: .rightParen :: enclosed params)

-- The group at the end of a block is its parameters, which no macro name precedes.
theorem stops_block (front params : List Token)
    (nests : Token.Nests .leftParen .rightParen params) :
    Stops (front ++ .rightParen :: enclosed params) := by
  intro availability
  have reversed : (front ++ .rightParen :: enclosed params).reverse =
      .rightParen :: (params.reverse ++ .leftParen :: .rightParen :: front.reverse) := by
    simp [enclosed]
  have group := Token.group_nests (by decide) params.reverse (.rightParen :: front.reverse)
    (nests.reverse (by decide))
  rw [reversed, stripReversed]
  split
  · next inner name rest found =>
    rw [group] at found
    cases found
  · simp [enclosed]

section Names

-- Only the first caret counts.
theorem blockName_first (front later : List Token) (name : Text) (first : .caret ∉ front) :
    blockName? (front ++ .caret :: .identifier name :: later) =
      some (name, front ++ .caret :: later) := by
  induction front with
  | nil => simp [blockName?]
  | cons token front ih =>
    have here : token ≠ .caret := fun caret => first (caret ▸ List.mem_cons_self)
    have found := ih fun member => first (List.mem_cons_of_mem token member)
    rw [List.cons_append, blockName?]
    · rw [found]
      rfl
    · exact fun _ _ same => absurd same here
    · exact fun same => absurd same here

theorem blockName_block (result later : List Token) (name : Text) (first : .caret ∉ result) :
    blockName? (result ++ .leftParen :: .caret :: .identifier name :: later) =
      some (name, result ++ .leftParen :: .caret :: later) := by
  have whole := blockName_first (result ++ [.leftParen]) later name (by simpa using first)
  simpa only [List.append_assoc, List.singleton_append] using whole

theorem blockName_some {tokens rest : List Token} {name : Text}
    (found : blockName? tokens = some (name, rest)) :
    ∃ front later, .caret ∉ front ∧ tokens = front ++ .caret :: .identifier name :: later ∧
      rest = front ++ .caret :: later := by
  fun_induction blockName? tokens generalizing rest with
  | case1 => cases found
  | case2 first tokens =>
    cases found
    exact ⟨[], tokens, List.not_mem_nil, rfl, rfl⟩
  | case3 => cases found
  | case4 token tokens other bare ih =>
    obtain ⟨⟨own, behind⟩, here, same⟩ := Option.map_eq_some_iff.mp found
    cases same
    obtain ⟨front, later, first, whole, cut⟩ := ih here
    refine ⟨token :: front, later, ?_, by rw [whole]; rfl, by simp [cut]⟩
    simpa [first] using fun same => bare same.symm

/-- No identifier stands right behind the first caret. -/
def FirstCaretBare (tokens : List Token) : Prop :=
  ∀ front word later, tokens = front ++ .caret :: .identifier word :: later → .caret ∈ front

theorem blockName_none_iff (tokens : List Token) :
    blockName? tokens = none ↔ FirstCaretBare tokens := by
  constructor
  · intro none front word later whole
    by_contra first
    rw [whole, blockName_first front later word first] at none
    cases none
  · intro bare
    refine Option.eq_none_iff_forall_not_mem.mpr fun found here => ?_
    obtain ⟨front, later, first, whole, _⟩ := blockName_some here
    exact first (bare front _ later whole)

-- What stands behind a caret and the token after it is not looked at.
theorem blockName_append (left right : List Token) (mark : Token) (caret : .caret ∈ left)
    (other : mark.name? = none) :
    blockName? (left ++ mark :: right) =
      (blockName? left).map fun found => (found.1, found.2 ++ mark :: right) := by
  fun_induction blockName? left with
  | case1 => cases caret
  | case2 name tokens => rfl
  | case3 tokens none =>
    cases tokens with
    | nil => cases mark <;> first | rfl | cases other
    | cons token tokens =>
      cases token with
      | identifier name => exact absurd rfl (none name tokens)
      | _ => rfl
  | case4 token tokens named bare ih =>
    have here : token ≠ .caret := fun same => bare same
    have later : .caret ∈ tokens := by simpa [Ne.symm here] using caret
    rw [List.cons_append, blockName?, ih later]
    · simp [Function.comp_def]
    · exact fun _ _ same => absurd same here
    · exact fun same => absurd same here

theorem lastName_some {tokens before : List Token} {name : Text}
    (found : lastName? tokens = some (name, before)) :
    ∃ later, tokens = before ++ .identifier name :: later ∧ ∀ token ∈ later, token.name? = none := by
  unfold lastName? at found
  split at found
  · next own behind cut =>
    cases found
    refine ⟨(tokens.reverse.takeWhile (·.name?.isNone)).reverse, ?_, fun token member => ?_⟩
    · have whole := List.takeWhile_append_dropWhile (p := (·.name?.isNone)) (l := tokens.reverse)
      rw [cut] at whole
      have turned := congrArg List.reverse whole
      simpa using turned.symm
    · simpa using List.mem_takeWhile_imp (List.mem_reverse.mp member)
  · cases found

theorem lastName_isSome {tokens : List Token} {name : Text} (member : .identifier name ∈ tokens) :
    ∃ found, lastName? tokens = some found := by
  unfold lastName?
  split
  · exact ⟨_, rfl⟩
  · next none =>
    exfalso
    cases left : tokens.reverse.dropWhile (·.name?.isNone) with
    | nil =>
      have all := List.dropWhile_eq_nil_iff.mp left (.identifier name) (List.mem_reverse.mpr member)
      cases all
    | cons token rest =>
      have stays := List.head_dropWhile_not (fun token : Token => token.name?.isNone)
        (l := tokens.reverse) (by simp [left])
      simp only [left, List.head_cons] at stays
      cases token with
      | identifier own => exact none own rest left
      | _ => cases stays

end Names

namespace WrittenProperty.Body

variable {written : WrittenProperty} {body : List Token}

theorem typed (laid : written.Body body) : written.type ≠ [] := by
  cases laid with
  | plain typed => exact typed
  | block result params type =>
    rw [type]
    simp

theorem carets (laid : written.Body body) : NativeType.CaretsBare written.type := by
  cases laid with
  | plain _ carets => exact (List.isChain_append.mp carets).1
  | block result params type first carets =>
    -- What stands behind the carets of a block's type is a parenthesis or stands among the parameters.
    have closed : NativeType.CaretsBare (params ++ [.rightParen]) := by
      apply List.isChain_append.mpr
      exact ⟨carets, .singleton _, fun _ _ next here _ => by cases here; rfl⟩
    have group : NativeType.CaretsBare (.rightParen :: enclosed params) :=
      List.isChain_cons_cons.mpr ⟨nofun, List.isChain_cons.mpr ⟨nofun, closed⟩⟩
    have block : NativeType.CaretsBare (.leftParen :: .caret :: .rightParen :: enclosed params) :=
      List.isChain_cons_cons.mpr ⟨nofun, List.isChain_cons_cons.mpr ⟨fun _ => rfl, group⟩⟩
    rw [type]
    apply List.isChain_append.mpr
    exact ⟨NativeType.caretsBare_of_free first, block,
      fun _ last _ _ caret => absurd (caret ▸ List.mem_of_getLast? last) first⟩

theorem mem_name (laid : written.Body body) : .identifier written.name ∈ written.tokensAround body := by
  have inside : .identifier written.name ∈ body := by cases laid <;> simp
  simp [WrittenProperty.tokensAround, inside]

theorem stops (laid : written.Body body) : Stops body := by
  cases laid with
  | plain _ _ name => exact stops_name _ _ name
  | block result params _ _ _ nests =>
    have stop := stops_block (result ++ [.leftParen, .caret, .identifier written.name]) params nests
    simpa using stop

theorem found (laid : written.Body body) :
    nameAndType? body = some (written.name, written.type) := by
  cases laid with
  | plain _ carets => exact nameAndType_bare _ _ carets
  | block result params type first =>
    rw [nameAndType?, blockName_block _ _ _ first, type]
    rfl

end WrittenProperty.Body

end HeaderBindings
