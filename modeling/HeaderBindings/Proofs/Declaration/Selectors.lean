import HeaderBindings.Proofs.Declaration.Feeds
import HeaderBindings.Proofs.Script.Names

/-!
The selector of a method that is read. Whatever the declaration, its base name is an identifier, each of
its colons ends a component that takes one parameter name at most, and those names are tokens of the
declaration in their order.
-/

namespace HeaderBindings

section Groups

namespace Token

theorem Group.read_sublist (opening closing : Token) (depth : Nat) (tokens : List Token) :
    (read opening closing depth tokens).rest.Sublist tokens := by
  fun_induction read opening closing depth tokens with
  | case1 => exact List.Sublist.refl _
  | case2 depth tokens ih => exact ih.cons _
  | case3 tokens apart => exact List.sublist_cons_self _ _
  | case4 tokens apart depth ih => exact ih.cons _
  | case5 depth token tokens apart other ih => exact ih.cons _

theorem group_sublist {opening closing : Token} {tokens : List Token} {group : Group}
    (found : group? opening closing tokens = some group) : group.rest.Sublist tokens := by
  cases tokens with
  | nil => cases found
  | cons token tokens =>
    simp only [group?] at found
    split at found
    · cases found
      exact (Group.read_sublist opening closing 0 tokens).cons _
    · cases found

end Token

end Groups

section Names

/-- A character of a selector: part of a label, or the colon behind one. -/
def isSelectorChar (c : Char) : Bool := Token.isNameChar c || c == ':'

theorem identifier_of_lexed {name : Text} (lexed : (Token.identifier name).Lexed) :
    Reading.isIdentifier name = true := by
  obtain ⟨c, rest, rfl, start, chars⟩ := Token.name_of_spells lexed.spelled
  simpa [Reading.isIdentifier, start] using chars

theorem selectorChars_of_identifier (name : Text) (identifier : Reading.isIdentifier name = true) :
    ∀ c ∈ name, isSelectorChar c = true := fun c member => by
  simp [isSelectorChar, (Reading.nameChars_of_identifier name identifier).2 c member]

theorem baseName_of_identifier (base later : Text) (identifier : Reading.isIdentifier base = true)
    (ends : ∀ c ∈ later.head?, c = ':') : (base ++ later).takeWhile (· != ':') = base := by
  have free : ∀ c ∈ base, (c != ':') = true := by
    intro c member
    have name := (Reading.nameChars_of_identifier base identifier).2 c member
    rw [bne_iff_ne]
    rintro rfl
    cases name
  rw [List.takeWhile_append_of_pos free]
  cases later with
  | nil => simp
  | cons c later => simp [ends c rfl]

end Names

namespace Method

/-- What the selector and the parameters of a method are made of, given the tokens that it is read
from. -/
structure Usable (tokens : List Token) (method : Method) : Prop where
  base : Reading.isIdentifier method.baseName = true
  chars : ∀ c ∈ method.selector, isSelectorChar c = true
  arity : method.arity ≤ method.colonCount
  names : (method.params.map fun param => Token.identifier param.name).Sublist tokens

namespace Reader

variable {tokens : List Token}

/-- The tokens of parameter names. -/
def nameTokens (params : List Parameter) : List Token :=
  params.map fun param => .identifier param.name

theorem componentName_sublist (type : NativeType) (tokens : List Token) :
    (nameTokens (componentName type tokens).1.param?.toList ++ (componentName type tokens).2).Sublist
      tokens := by
  unfold componentName
  split <;> exact List.Sublist.refl _

/-- The name that a component takes stands in front of the tokens that it leaves. -/
theorem component_sublist {read : Component × List Token} (ok : component tokens = .ok read) :
    (nameTokens read.1.param?.toList ++ read.2).Sublist tokens := by
  unfold component at ok
  split at ok
  · cases ok
    exact componentName_sublist _ _
  · next group opened =>
    split at ok
    · cases ok
      exact (componentName_sublist _ _).trans (Token.group_sublist opened)
    · cases ok

theorem label_sublist {found : Text × List Token} (here : label? tokens = some found) :
    found.2.Sublist tokens ∧ (found.1 = [] ∨ Token.identifier found.1 ∈ tokens) := by
  unfold label? at here
  split at here
  · cases here
    exact ⟨(List.sublist_cons_self _ _).cons _, Or.inr List.mem_cons_self⟩
  · cases here
    exact ⟨List.sublist_cons_self _ _, Or.inl rfl⟩
  · cases here

/-- What components add behind a label: a colon each, and one parameter at most. -/
structure Components (label : Text) (tokens : List Token) (read : Signature) (later : Text) : Prop where
  selector : read.selector = label ++ ':' :: later
  chars : ∀ c ∈ later, isSelectorChar c = true
  arity : read.params.length ≤ later.count ':' + 1
  names : (nameTokens read.params).Sublist tokens

theorem length_param (read : Component) : read.param?.toList.length ≤ 1 := by
  cases read.param? <;> simp

theorem components_last (label : Text) {own : Component} {rest left : List Token}
    (ok : component tokens = .ok (own, rest)) :
    Components label tokens (Signature.addComponent label own ⟨[], [], left⟩) [] where
  selector := rfl
  chars := by simp
  arity := by simp [Signature.addComponent, length_param own]
  names := by
    have front := (List.sublist_append_left _ _).trans (component_sublist ok)
    simpa [Signature.addComponent] using front

theorem components_reads (label : Text) (tokens : List Token) (lexed : ∀ token ∈ tokens, token.Lexed)
    (read : Signature) (ok : components label tokens = .ok read) :
    ∃ later, Components label tokens read later := by
  -- By the components; each leaves tokens that the next label is read from.
  fun_induction components label tokens generalizing read with
  | case1 label tokens fault failed => cases ok
  | case2 label tokens own rest here =>
    cases ok
    exact ⟨[], components_last label here⟩
  | case3 label tokens own rest plain here none =>
    cases ok
    exact ⟨[], components_last label here⟩
  | case4 label tokens own rest plain here next behind found ih =>
    have taken := component_sublist here
    obtain ⟨shorter, labelled⟩ := label_sublist found
    have within : rest.Sublist tokens := (List.sublist_append_right _ _).trans taken
    cases read' : components next behind with
    | error fault =>
      rw [read'] at ok
      cases ok
    | ok inner =>
      rw [read'] at ok
      cases ok
      obtain ⟨later, parts⟩ := ih (fun token member => lexed token
        ((shorter.trans within).subset member)) inner read'
      have labelChars : ∀ c ∈ next, isSelectorChar c = true := by
        rcases labelled with empty | token
        · simp [show next = [] from empty]
        · exact selectorChars_of_identifier next
            (identifier_of_lexed (lexed _ (within.subset token)))
      refine ⟨next ++ ':' :: later, ?_, ?_, ?_, ?_⟩
      · simp [Signature.addComponent, parts.selector]
      · intro c member
        rcases List.mem_append.mp member with own | rest
        · exact labelChars c own
        · rcases List.mem_cons.mp rest with rfl | behind
          · rfl
          · exact parts.chars c behind
      · have one := length_param own
        have more := parts.arity
        simp only [Signature.addComponent, List.length_append, List.count_append,
          List.count_cons_self]
        omega
      · have names : (nameTokens own.param?.toList ++ nameTokens inner.params).Sublist tokens :=
          ((parts.names.trans shorter).append_left _).trans taken
        simpa [Signature.addComponent, nameTokens] using names

/-- A signature of any tokens is usable: it is a base name alone, or the components behind one. -/
theorem signature_reads (lexed : ∀ token ∈ tokens, token.Lexed) (read : Signature)
    (ok : signature tokens = .ok read) (method : Method) (selector : method.selector = read.selector)
    (params : method.params = read.params) : method.Usable tokens := by
  unfold signature at ok
  split at ok
  · next base rest =>
    have identifier := identifier_of_lexed (lexed (.identifier base) List.mem_cons_self)
    obtain ⟨later, parts⟩ := components_reads base rest
      (fun token member => lexed token (by simp [member])) read ok
    rw [parts.selector] at selector
    refine ⟨?_, ?_, ?_, ?_⟩
    · rw [baseName, selector, baseName_of_identifier base _ identifier (by simp)]
      exact identifier
    · intro c member
      rw [selector] at member
      rcases List.mem_append.mp member with own | behind
      · exact selectorChars_of_identifier base identifier c own
      · rcases List.mem_cons.mp behind with rfl | later
        · rfl
        · exact parts.chars c later
    · have more := parts.arity
      rw [arity, colonCount, selector, params, List.count_append, List.count_cons_self]
      omega
    · rw [params]
      exact (parts.names.cons _).cons _
  · next base rest other =>
    have identifier := identifier_of_lexed (lexed (.identifier base) List.mem_cons_self)
    cases ok
    refine ⟨?_, ?_, ?_, ?_⟩
    · have alone := baseName_of_identifier base [] identifier (by simp)
      rw [List.append_nil] at alone
      rw [baseName, selector, alone]
      exact identifier
    · rw [selector]
      exact selectorChars_of_identifier base identifier
    · simp [arity, params]
    · simp [params]
  · cases ok

theorem afterSign_reads (isStatic : Bool) (lexed : ∀ token ∈ tokens, token.Lexed) (method : Method)
    (ok : afterSign isStatic tokens = .ok method) : method.Usable tokens := by
  obtain ⟨⟨type, behind⟩, returned, ok⟩ := exists_of_bind ok
  obtain ⟨read, signed, ok⟩ := exists_of_bind ok
  obtain ⟨availability, ended, ok⟩ := exists_of_bind ok
  have within : behind.Sublist tokens := by
    unfold returnType at returned
    split at returned
    · cases returned
    · next group opened =>
      split at returned
      · cases returned
        exact Token.group_sublist opened
      · cases returned
  have usable := signature_reads (fun token member => lexed token (within.subset member)) read signed
    method (by cases ok; rfl) (by cases ok; rfl)
  exact ⟨usable.base, usable.chars, usable.arity, usable.names.trans within⟩

end Reader

theorem usable_of_parse (declaration : Text) (method : Method)
    (accepted : Method.parse declaration = .ok method) : method.Usable (lex declaration) := by
  have cut : (untilSemicolon (lex declaration)).Sublist (lex declaration) :=
    (List.takeWhile_prefix _).sublist
  have lexed : ∀ token ∈ untilSemicolon (lex declaration), token.Lexed := fun token member =>
    Token.lexed_of_mem declaration token (cut.subset member)
  have read := ok_of_mapError accepted
  have usable (isStatic : Bool) (sign : Token) (behind : List Token)
      (whole : untilSemicolon (lex declaration) = sign :: behind)
      (read : Reader.afterSign isStatic behind = .ok method) : method.Usable (lex declaration) := by
    have inner := Reader.afterSign_reads isStatic
      (fun token member => lexed token (whole ▸ List.mem_cons_of_mem sign member)) method read
    have within : behind.Sublist (lex declaration) :=
      (whole ▸ List.sublist_cons_self sign behind).trans cut
    exact ⟨inner.base, inner.chars, inner.arity, inner.names.trans within⟩
  unfold Reader.method at read
  split at read
  · next behind whole => exact usable true .plus behind whole read
  · next behind whole => exact usable false .minus behind whole read
  · cases read

end Method

end HeaderBindings
