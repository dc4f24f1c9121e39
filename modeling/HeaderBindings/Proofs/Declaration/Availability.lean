import HeaderBindings.Proofs.Declaration.Feeds
import HeaderBindings.Proofs.Token.Parentheses

/-!
Availability calls as they are kept. Macros stand behind a selector, at the end of a property, on both
sides of a class header and on lines of their own; the first availability call among them is kept as
text. A call whose parentheses are balanced as tokens is kept as it is written, unless parentheses inside its
string literals upset the balance.
-/

namespace HeaderBindings

open Token

section Calls

/-- The arguments begin like a pointer, so that a blank is written before them. -/
abbrev OpensPointer (arguments : List Token) : Prop :=
  arguments.head? = some .caret ∨ arguments.head? = some .star

theorem render_call (name : Text) (arguments : List Token) :
    render (.identifier name :: enclosed arguments) =
      name ++ (if OpensPointer arguments then [' '] else []) ++ ['('] ++ render arguments ++ [')'] := by
  have gap : Token.spaced (.identifier name) .leftParen (arguments ++ [rightParen]).head? = true ↔
      OpensPointer arguments := by
    cases arguments <;> simp [Token.spaced, isWord, OpensPointer]
  rw [render_cons, enclosed, renderAfter_cons, render_cons, renderAfter_opened, render,
    renderAfter_closed]
  simp only [gap, Token.text, List.append_assoc, List.singleton_append]
  rfl

variable {name : Text} {arguments : List Token} (lexed : ∀ token ∈ arguments, token.Lexed)
  (word : (identifier name).Lexed) (nests : Nests .leftParen .rightParen arguments)

include lexed word nests in
/-- A written call is kept as it is if its literals show as many opening as closing parentheses, and only
then. -/
theorem normalize_render_iff :
    Availability.normalize (render (.identifier name :: enclosed arguments)) =
        render (.identifier name :: enclosed arguments) ↔
      (literals arguments).count '(' = (literals arguments).count ')' := by
  have known : ∀ token ∈ .identifier name :: enclosed arguments, token.Lexed := by
    intro token member
    simp only [enclosed, List.mem_cons, List.mem_append, List.not_mem_nil, or_false] at member
    rcases member with rfl | rfl | inside | rfl
    · exact word
    · exact Or.inr (.mark (by decide))
    · exact lexed token inside
    · exact Or.inr (.mark (by decide))
  have closes : (render (.identifier name :: enclosed arguments)).getLast? = some ')' := by
    rw [render_call, List.getLast?_concat]
  have level := depthBehind_count (by decide) 0 0 arguments nests
  have counted : (Token.identifier name :: enclosed arguments).count leftParen =
      (Token.identifier name :: enclosed arguments).count rightParen := by
    simpa [enclosed] using level.symm
  have inner : literals (.identifier name :: enclosed arguments) = literals arguments := by
    simp [literals, enclosed, literal]
  obtain ⟨opens, closed⟩ := count_render known
  rw [Availability.normalize_eq_iff (trim_render known) closes, opens, closed, counted, inner]
  omega

include lexed word nests in
/-- A call that is put together from its arguments is kept as it is written if, besides, no blank is
written before them. -/
theorem callText_eq_iff :
    Availability.callText name arguments = render (.identifier name :: enclosed arguments) ↔
      (literals arguments).count '(' = (literals arguments).count ')' ∧ ¬ OpensPointer arguments := by
  rw [Availability.callText]
  by_cases pointer : OpensPointer arguments
  · -- Normalization neither adds nor removes the blank.
    refine iff_of_false (fun same => ?_) (fun both => both.2 pointer)
    have trimmed : Text.trim (name ++ ['('] ++ render arguments ++ [')']) =
        name ++ ['('] ++ render arguments ++ [')'] := by
      obtain ⟨⟨c, rest, own⟩, first, -⟩ := word.edges
      have named : name = c :: rest := own
      refine Text.trim_of_visible _ ?_ ?_
      · simpa [named, Token.text] using first
      · rw [List.getLast?_concat]
        rintro _ ⟨rfl⟩
        decide
    have blanks := congrArg (List.count ' ') same
    rw [Availability.count_normalize (by decide), trimmed, render_call, if_pos pointer] at blanks
    simp at blanks
  · have written : name ++ ['('] ++ render arguments ++ [')'] =
        render (.identifier name :: enclosed arguments) := by
      rw [render_call, if_neg pointer, List.append_nil]
    rw [written, normalize_render_iff lexed word nests]
    exact (and_iff_left pointer).symm

end Calls

section Runs

/-- The first availability call in a run of macros, balanced as tokens: before it stand names without a
call, other macros' calls, and closing parentheses that nothing opens. -/
inductive FirstCall (name : Text) (arguments : List Token) : List Token → Prop where
  | here (rest : List Token) (family : Availability.isFamily name = true)
      (nests : Nests .leftParen .rightParen arguments) :
      FirstCall name arguments (.identifier name :: (enclosed arguments ++ rest))
  | behindName {rest : List Token} (other : Text) (bare : rest.head? ≠ some .leftParen)
      (later : FirstCall name arguments rest) : FirstCall name arguments (.identifier other :: rest)
  | behindCall {rest : List Token} (other : Text) (inner : List Token)
      (unknown : Availability.isFamily other = false) (nests : Nests .leftParen .rightParen inner)
      (later : FirstCall name arguments rest) :
      FirstCall name arguments (.identifier other :: (enclosed inner ++ rest))
  | behindStray {rest : List Token} (later : FirstCall name arguments rest) :
      FirstCall name arguments (.rightParen :: rest)

variable {name : Text} {arguments run : List Token}

theorem FirstCall.mem (first : FirstCall name arguments run) :
    .identifier name ∈ run ∧ arguments ⊆ run ∧ Nests .leftParen .rightParen arguments := by
  induction first with
  | here rest family nests => exact ⟨by simp, fun token member => by simp [enclosed, member], nests⟩
  | behindName other bare later ih =>
    obtain ⟨named, inside, nests⟩ := ih
    exact ⟨List.mem_cons_of_mem _ named, List.subset_cons_of_subset _ inside, nests⟩
  | behindCall other inner unknown nests later ih =>
    obtain ⟨named, inside, nests⟩ := ih
    exact ⟨by simp [named], fun token member => by simp [inside member], nests⟩
  | behindStray later ih =>
    obtain ⟨named, inside, nests⟩ := ih
    exact ⟨List.mem_cons_of_mem _ named, List.subset_cons_of_subset _ inside, nests⟩

theorem ofCall_family (family : Availability.isFamily name = true) :
    Availability.ofCall? name arguments = some (Availability.callText name arguments) := if_pos family

theorem ofCall_other (unknown : Availability.isFamily name = false) :
    Availability.ofCall? name arguments = none := if_neg (Bool.eq_false_iff.mp unknown)

/-- What stands behind a selector gives its first availability call. -/
theorem FirstCall.kept_behind (first : FirstCall name arguments run) {availability : Option Text}
    (ok : Method.Reader.trailingMacros run = .ok availability) :
    availability = some (Availability.callText name arguments) := by
  induction first generalizing availability with
  | here rest family nests =>
    rw [trailingMacros_call _ _ _ nests, ofCall_family family] at ok
    cases behind : Method.Reader.trailingMacros rest with
    | error fault => simp [behind, Except.map] at ok
    | ok later => simpa [behind, Except.map] using ok.symm
  | behindName other bare later ih =>
    rw [trailingMacros_bare _ _ (parenGroup_none bare)] at ok
    exact ih ok
  | @behindCall rest other inner unknown nests later ih =>
    rw [trailingMacros_call _ _ _ nests, ofCall_other unknown] at ok
    cases behind : Method.Reader.trailingMacros rest with
    | error fault => simp [behind, Except.map] at ok
    | ok later =>
      have same : later = availability := by simpa [behind, Except.map] using ok
      exact same ▸ ih behind
  | behindStray later ih =>
    rw [Method.Reader.trailingMacros] at ok
    exact ih ok

/-- A run of macros that ends before no name and no parenthesis gives its first availability call. -/
theorem FirstCall.kept_run (first : FirstCall name arguments run)
    (ends : ∀ token ∈ (macroRun run).rest.head?, token.name? = none ∧ token ≠ .rightParen) :
    (macroRun run).availability = some (Availability.callText name arguments) := by
  -- A name that is no macro's would be left over.
  have isMacro (other : Text) (rest : List Token)
      (ends : ∀ token ∈ (macroRun (.identifier other :: rest)).rest.head?,
        token.name? = none ∧ token ≠ .rightParen) : isMacroName other = true := by
    by_contra plain
    rw [macroRun, if_neg plain] at ends
    cases (ends _ rfl).1
  induction first with
  | here rest family nests =>
    rw [macroRun_call _ _ _ (isMacro _ _ ends) nests, ofCall_family family]
    rfl
  | behindName other bare later ih =>
    have same := macroRun_bare other _ (isMacro _ _ ends) bare
    rw [same] at ends ⊢
    exact ih ends
  | @behindCall rest other inner unknown nests later ih =>
    have same := macroRun_call other inner rest (isMacro _ _ ends) nests
    rw [same, ofCall_other unknown] at ends ⊢
    exact ih ends
  | behindStray later ih =>
    rw [macroRun] at ends
    · exact absurd rfl (ends _ rfl).2
    · intro other rest same
      cases same

end Runs

section Stripping

open Property.Reader

/-- What is stripped from the end of a property is macros, and the first availability call among them is
kept. -/
theorem exists_stripped (availability : Option Text) (tokens : List Token) :
    ∃ macros : List WrittenMacro, (∀ item ∈ macros, item.IsMacro) ∧
      tokens.reverse = (stripReversed availability tokens).tokens ++ macros.flatMap WrittenMacro.tokens ∧
      (stripReversed availability tokens).availability =
        (macros.findSome? WrittenMacro.callText?).or availability := by
  fun_induction stripReversed availability tokens with
  | case1 availability before inner name rest closed named call ih =>
    obtain ⟨macros, sound, whole, kept⟩ := ih
    obtain ⟨spelled, nests⟩ := nests_of_group closed
    simp only [dite_eq_ite] at whole kept
    refine ⟨macros ++ [⟨name, some inner.reverse⟩], ?_, ?_, ?_⟩
    · rw [List.forall_mem_append, List.forall_mem_singleton]
      refine ⟨sound, named, ?_⟩
      rintro _ ⟨rfl⟩
      exact nests.reverse (by decide)
    · rw [spelled]
      simp [whole, WrittenMacro.tokens, enclosed]
    · rw [kept, List.findSome?_append, Option.or_assoc]
      by_cases family : Availability.isFamily name = true <;>
        simp [WrittenMacro.callText?, WrittenMacro.tokens, enclosed, call, family]
  | case4 availability name token before named ih =>
    obtain ⟨macros, sound, whole, kept⟩ := ih
    refine ⟨macros ++ [⟨name, none⟩], ?_, ?_, ?_⟩
    · rw [List.forall_mem_append, List.forall_mem_singleton]
      exact ⟨sound, named, by simp⟩
    · rw [List.reverse_cons, whole]
      simp [WrittenMacro.tokens]
    · rw [kept, List.findSome?_append]
      simp [WrittenMacro.callText?]
  | _ => exact ⟨[], by simp, by simp, by simp⟩

variable {name other : Text} {arguments inner rest run : List Token} {macros : List WrittenMacro}

theorem macros_of_call (sound : ∀ item ∈ macros, item.IsMacro)
    (nests : Nests .leftParen .rightParen inner)
    (whole : .identifier other :: (enclosed inner ++ rest) = macros.flatMap WrittenMacro.tokens) :
    ∃ later, macros = ⟨other, some inner⟩ :: later ∧ rest = later.flatMap WrittenMacro.tokens := by
  cases macros with
  | nil => cases whole
  | cons item later =>
    obtain ⟨own, call?⟩ := item
    cases call? with
    | none =>
      have behind : enclosed inner ++ rest = later.flatMap WrittenMacro.tokens :=
        (List.cons.inj whole).2
      cases later <;> simp [enclosed, WrittenMacro.tokens] at behind
    | some call =>
      have closed := (sound ⟨own, some call⟩ List.mem_cons_self).call call rfl
      obtain ⟨same, behind⟩ : other = own ∧
          enclosed inner ++ rest = enclosed call ++ later.flatMap WrittenMacro.tokens := by
        simpa [WrittenMacro.tokens] using whole
      have group : parenGroup? (enclosed inner ++ rest) = _ := nests_enclosed nests
      rw [behind, nests_enclosed closed] at group
      cases group
      exact ⟨later, by rw [same], rfl⟩

theorem macros_of_bare (bare : rest.head? ≠ some .leftParen)
    (whole : .identifier other :: rest = macros.flatMap WrittenMacro.tokens) :
    ∃ later, macros = ⟨other, none⟩ :: later ∧ rest = later.flatMap WrittenMacro.tokens := by
  cases macros with
  | nil => cases whole
  | cons item later =>
    obtain ⟨own, call?⟩ := item
    cases call? with
    | none =>
      cases whole
      exact ⟨later, rfl, rfl⟩
    | some call =>
      cases whole
      exact absurd rfl bare

/-- Among written macros the first call is the first one with a text. -/
theorem FirstCall.kept_written (first : FirstCall name arguments run)
    (sound : ∀ item ∈ macros, item.IsMacro) (whole : run = macros.flatMap WrittenMacro.tokens) :
    macros.findSome? WrittenMacro.callText? =
      some (Availability.normalize (render (.identifier name :: enclosed arguments))) := by
  induction first generalizing macros with
  | here rest family nests =>
    obtain ⟨later, rfl, -⟩ := macros_of_call sound nests whole
    simp [WrittenMacro.callText?, WrittenMacro.tokens, family]
  | behindName other bare later ih =>
    obtain ⟨macros, rfl, rfl⟩ := macros_of_bare bare whole
    have found := ih (fun item member => sound item (List.mem_cons_of_mem _ member)) rfl
    exact found
  | behindCall other inner unknown nests later ih =>
    obtain ⟨macros, rfl, rfl⟩ := macros_of_call sound nests whole
    have found := ih (fun item member => sound item (List.mem_cons_of_mem _ member)) rfl
    simpa [WrittenMacro.callText?, unknown] using found
  | behindStray later ih =>
    cases macros with
    | nil => cases whole
    | cons item macros => cases whole

/-- What is stripped from a property behind its body gives its first availability call. -/
theorem FirstCall.kept_stripped (first : FirstCall name arguments run) {body : List Token}
    (stripped : (stripMacros (body ++ run)).tokens = body) :
    (stripMacros (body ++ run)).availability =
      some (Availability.normalize (render (.identifier name :: enclosed arguments))) := by
  obtain ⟨macros, sound, whole, kept⟩ := exists_stripped none (body ++ run).reverse
  have same : (stripReversed none (body ++ run).reverse).tokens = body := stripped
  rw [List.reverse_reverse, same, List.append_cancel_left_eq] at whole
  rw [stripMacros, kept, first.kept_written sound whole]
  rfl

end Stripping

section Carriers

open Method.Reader Property.Reader ClassHeader.Reader

/-- What may carry an availability call: a method, a property (where null may be assumed to be ruled
out), a class header, and a line of macros above any of them. -/
inductive Carrier where
  | method
  | property (assumeNonnull : Bool)
  | header
  | line
  deriving DecidableEq, Repr

namespace Carrier

/-- The availability that is kept of a text, if it is read as what carries it. -/
def stored? : Carrier → Text → Option (Option Text)
  | method, text => (Method.parse text).toOption.map (·.availability)
  | property assumeNonnull, text => (Property.parse assumeNonnull text).toOption.map (·.availability)
  | header, text => (ClassHeader.parse text).toOption.map (·.availability)
  | line, text => macroOnly? text

/-- How a carrier writes a call: a property writes all of its tokens, the others put it together from the
name and the arguments. -/
def callText : Carrier → Text → List Token → Text
  | property _, name, arguments =>
    Availability.normalize (render (.identifier name :: enclosed arguments))
  | _, name, arguments => Availability.callText name arguments

end Carrier

/-- Where the macros of a text begin: behind the selector of a method, behind the name of a property, at
either end of a class header, or at the front of a line. -/
inductive MacrosAt : Carrier → Text → List Token → Prop where
  | method {text : Text} {sign : Token} {tokens after : List Token} {type : NativeType}
      {signature : Method.Reader.Signature} (written : untilSemicolon (lex text) = sign :: tokens)
      (typed : returnType tokens = .ok (type, after))
      (selected : Method.Reader.signature after = .ok signature) : MacrosAt .method text signature.rest
  | property {text : Text} {tokens body run : List Token} {attributes : List Text} {assumeNonnull : Bool}
      (written : untilSemicolon (lex text) = .directive "@property".toList :: tokens)
      (listed : attributeList tokens = .ok (attributes, body ++ run))
      (stripped : (stripMacros (body ++ run)).tokens = body) :
      MacrosAt (.property assumeNonnull) text run
  | leading {text : Text} : MacrosAt .header text (lex text)
  | trailing {text name : Text} {tokens first second third run : List Token}
      {params root above adopted : List Text} {category super? : Option Text}
      (written : macroRun (lex text) =
        ⟨none, .directive "@interface".toList :: .identifier name :: tokens⟩)
      (named : afterName tokens = .ok (params, root, first))
      (categorised : category? first = .ok (category, second))
      (extended : superclass? params second = .ok (super?, above, third))
      (listed : protocols? third = .ok (adopted, run)) : MacrosAt .header text run
  | line {text : Text} : MacrosAt .line text (lex text)

variable {carrier : Carrier} {text name : Text} {arguments run : List Token} {stored : Option Text}

theorem MacrosAt.subset (place : MacrosAt carrier text run) : run ⊆ lex text := by
  cases place with
  | method written typed selected =>
    have behind := List.Subset.trans (signature_subset selected) (returnType_subset typed)
    have whole := written ▸ untilSemicolon_subset (lex text)
    exact List.Subset.trans (List.subset_cons_of_subset _ behind) whole
  | property written listed stripped =>
    have behind := List.Subset.trans (List.subset_append_right _ _) (attributeList_subset listed)
    have whole := written ▸ untilSemicolon_subset (lex text)
    exact List.Subset.trans (List.subset_cons_of_subset _ behind) whole
  | leading | line => exact List.Subset.refl _
  | trailing written named categorised extended listed =>
    have inner := List.Subset.trans (superclass_subset _ _ _ extended) (category_subset _ _ categorised)
    have behind := List.Subset.trans (protocols_subset _ _ listed)
      (List.Subset.trans inner (afterName_subset _ _ named))
    have whole := written ▸ macroRun_subset (lex text)
    exact List.Subset.trans (List.subset_cons_of_subset _ (List.subset_cons_of_subset _ behind)) whole

theorem ok_of_toOption {ε α : Type} {action : Except ε α} {result : α}
    (some : action.toOption = some result) : action = .ok result := by
  cases action with
  | error failure => cases some
  | ok value => rw [Option.some.inj some]

theorem Method.Reader.trailing_of_afterSign {isStatic : Bool} {tokens after : List Token}
    {type : NativeType} {signature : Method.Reader.Signature} {method : Method} (ok : afterSign isStatic tokens = .ok method)
    (typed : returnType tokens = .ok (type, after))
    (selected : Method.Reader.signature after = .ok signature) :
    trailingMacros signature.rest = .ok method.availability := by
  obtain ⟨_, typed', ok⟩ := exists_of_bind ok
  cases typed.symm.trans typed'
  obtain ⟨_, selected', ok⟩ := exists_of_bind ok
  cases selected.symm.trans selected'
  obtain ⟨availability, behind, ok⟩ := exists_of_bind ok
  cases ok
  exact behind

theorem Property.Reader.stripped_of_afterDirective {assumeNonnull : Bool} {tokens rest : List Token}
    {attributes : List Text} {property : Property}
    (ok : Property.Reader.afterDirective assumeNonnull tokens = .ok property)
    (listed : attributeList tokens = .ok (attributes, rest)) :
    property.availability = (stripMacros rest).availability := by
  obtain ⟨_, listed', ok⟩ := exists_of_bind ok
  cases listed.symm.trans listed'
  dsimp only at ok
  split at ok
  · cases ok
  · cases ok
  · cases ok
    rfl

namespace ClassHeader.Reader

variable {leading : Option Text} {header : ClassHeader}

theorem leading_of_afterDirective {tokens : List Token}
    (ok : ClassHeader.Reader.afterDirective leading tokens = .ok header) :
    ∃ later, header.availability = leading.or later := by
  unfold ClassHeader.Reader.afterDirective at ok
  split at ok
  · obtain ⟨_, _, ok⟩ := exists_of_bind ok
    obtain ⟨_, _, ok⟩ := exists_of_bind ok
    obtain ⟨_, _, ok⟩ := exists_of_bind ok
    obtain ⟨_, _, ok⟩ := exists_of_bind ok
    obtain ⟨_, _, ok⟩ := exists_of_bind ok
    cases ok
    exact ⟨_, rfl⟩
  · cases ok

theorem trailing_of_afterDirective {name : Text} {tokens first second third run : List Token}
    {params root above adopted : List Text} {category super? : Option Text}
    (ok : ClassHeader.Reader.afterDirective leading (.identifier name :: tokens) = .ok header)
    (named : afterName tokens = .ok (params, root, first))
    (categorised : category? first = .ok (category, second))
    (extended : superclass? params second = .ok (super?, above, third))
    (listed : protocols? third = .ok (adopted, run)) :
    atEnd (macroRun run).rest = .ok () ∧
      header.availability = leading.or (macroRun run).availability := by
  obtain ⟨_, named', ok⟩ := exists_of_bind ok
  cases named.symm.trans named'
  obtain ⟨_, categorised', ok⟩ := exists_of_bind ok
  cases categorised.symm.trans categorised'
  obtain ⟨_, extended', ok⟩ := exists_of_bind ok
  cases extended.symm.trans extended'
  obtain ⟨_, listed', ok⟩ := exists_of_bind ok
  cases listed.symm.trans listed'
  obtain ⟨_, ends, ok⟩ := exists_of_bind ok
  cases ok
  exact ⟨ends, rfl⟩

end ClassHeader.Reader

theorem head_of_atEnd {tokens : List Token} (ok : atEnd tokens = .ok ()) :
    ∀ token ∈ tokens.head?, token.name? = none ∧ token ≠ .rightParen := by
  unfold atEnd at ok
  split at ok
  · simp
  · simp [Token.name?]
  · cases ok

theorem macroRun_of_macroOnly (ok : macroOnly? text = some stored) :
    macroRun (lex text) = ⟨stored, []⟩ := by
  unfold macroOnly? at ok
  split at ok
  · cases ok
  · next token tokens lexed =>
    dsimp only at ok
    split at ok
    · next nothing =>
      cases ok
      rw [lexed, ← List.isEmpty_iff.mp nothing]
    · cases ok

/-- The first availability call among the macros of a text is what is kept of it. -/
theorem MacrosAt.kept (place : MacrosAt carrier text run) (first : FirstCall name arguments run)
    (ok : carrier.stored? text = some stored) : stored = some (carrier.callText name arguments) := by
  cases place with
  | @method _ sign tokens _ _ signature written typed selected =>
    obtain ⟨method, parsed, rfl⟩ := Option.map_eq_some_iff.mp ok
    have read := ok_of_mapError (ok_of_toOption parsed)
    rw [written] at read
    have signed : ∃ isStatic, afterSign isStatic tokens = .ok method := by
      cases sign with
      | plus | minus => exact ⟨_, read⟩
      | _ => cases read
    obtain ⟨isStatic, read⟩ := signed
    exact first.kept_behind (trailing_of_afterSign read typed selected)
  | property written listed stripped =>
    obtain ⟨property, parsed, rfl⟩ := Option.map_eq_some_iff.mp ok
    have read := ok_of_mapError (ok_of_toOption parsed)
    rw [written, Property.Reader.property, if_pos rfl] at read
    rw [stripped_of_afterDirective read listed]
    exact first.kept_stripped stripped
  | leading =>
    obtain ⟨header, parsed, rfl⟩ := Option.map_eq_some_iff.mp ok
    have read := ok_of_mapError (ok_of_toOption parsed)
    rw [ClassHeader.Reader.header] at read
    split at read
    · next directive tokens found =>
      have kept := first.kept_run (by simp [found, Token.name?])
      split at read
      · obtain ⟨later, whole⟩ := leading_of_afterDirective read
        rw [whole, kept]
        rfl
      · cases read
    · cases read
  | trailing written named categorised extended listed =>
    obtain ⟨header, parsed, rfl⟩ := Option.map_eq_some_iff.mp ok
    have read := ok_of_mapError (ok_of_toOption parsed)
    rw [ClassHeader.Reader.header, written] at read
    obtain ⟨ends, whole⟩ := trailing_of_afterDirective ((if_pos rfl).symm.trans read) named categorised
      extended listed
    rw [whole]
    exact first.kept_run (head_of_atEnd ends)
  | line =>
    have only := macroRun_of_macroOnly ok
    have kept := first.kept_run (by simp [only])
    rwa [only] at kept

/-- A complete availability call is kept as it is written if its string literals show as many opening as
closing parentheses and, but for properties, its arguments do not begin like a pointer. -/
theorem MacrosAt.kept_iff (place : MacrosAt carrier text run) (first : FirstCall name arguments run)
    (ok : carrier.stored? text = some stored) :
    stored = some (render (.identifier name :: enclosed arguments)) ↔
      (literals arguments).count '(' = (literals arguments).count ')' ∧
        ((∃ assumeNonnull, carrier = .property assumeNonnull) ∨ ¬ OpensPointer arguments) := by
  obtain ⟨named, inside, nests⟩ := first.mem
  have known : ∀ token ∈ run, token.Lexed := fun token member =>
    lexed_of_mem text token (place.subset member)
  have lexed : ∀ token ∈ arguments, token.Lexed := fun token member => known token (inside member)
  have word := known _ named
  rw [place.kept first ok, Option.some.injEq]
  cases carrier with
  | property assumeNonnull =>
    refine (normalize_render_iff lexed word nests).trans ?_
    simp
  | method | header | line =>
    refine (callText_eq_iff lexed word nests).trans ?_
    simp

theorem kept_iff_move :
    let text := "- (void)move API_AVAILABLE(macos(10.12));".toList
    let run := lex "API_AVAILABLE(macos(10.12))".toList
    let arguments := lex "macos(10.12)".toList
    MacrosAt .method text run ∧ FirstCall "API_AVAILABLE".toList arguments run ∧
      ∃ stored, Carrier.method.stored? text = some stored ∧
        stored = some (render (.identifier "API_AVAILABLE".toList :: enclosed arguments)) := by
  intro text run arguments
  have place : MacrosAt .method text run :=
    @MacrosAt.method text .minus (lex "(void)move API_AVAILABLE(macos(10.12))".toList)
      (.identifier "move".toList :: run) (.ofTokens [.identifier "void".toList]) ⟨"move".toList, [], run⟩
      (by decide +kernel) (by decide +kernel) (by decide +kernel)
  have first : FirstCall "API_AVAILABLE".toList arguments run := by
    have whole : run = .identifier "API_AVAILABLE".toList :: (enclosed arguments ++ []) := by
      decide +kernel
    rw [whole]
    exact .here [] (by decide) (by decide +kernel)
  have stored : Carrier.method.stored? text = some (some "API_AVAILABLE(macos(10.12))".toList) := by
    decide +kernel
  exact ⟨place, first, _, stored,
    (place.kept_iff first stored).mpr ⟨by decide +kernel, Or.inr (by decide +kernel)⟩⟩

/-- A parenthesis inside a string literal costs a complete call its own. -/
theorem literal_costs_parenthesis :
    let text := "- (void)move API_DEPRECATED(\"use go :)\", macos(10.1));".toList
    let run := lex "API_DEPRECATED(\"use go :)\", macos(10.1))".toList
    let arguments := lex "\"use go :)\", macos(10.1)".toList
    MacrosAt .method text run ∧ FirstCall "API_DEPRECATED".toList arguments run ∧
      Carrier.method.stored? text = some (some "API_DEPRECATED(\"use go :)\", macos(10.1)".toList) ∧
      render (.identifier "API_DEPRECATED".toList :: enclosed arguments) =
        "API_DEPRECATED(\"use go :)\", macos(10.1))".toList := by
  intro text run arguments
  have whole : run = .identifier "API_DEPRECATED".toList :: (enclosed arguments ++ []) := by
    decide +kernel
  refine ⟨?_, ?_, by decide +kernel, by decide +kernel⟩
  · exact @MacrosAt.method text .minus (lex "(void)move API_DEPRECATED(\"use go :)\", macos(10.1))".toList)
      (.identifier "move".toList :: run) (.ofTokens [.identifier "void".toList]) ⟨"move".toList, [], run⟩
      (by decide +kernel) (by decide +kernel) (by decide +kernel)
  · rw [whole]
    exact .here [] (by decide) (by decide +kernel)

end Carriers

end HeaderBindings
