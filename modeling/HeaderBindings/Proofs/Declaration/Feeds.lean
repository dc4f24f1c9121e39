import HeaderBindings.Proofs.Declaration.Property
import HeaderBindings.Declaration.ClassHeader
import HeaderBindings.Declaration.Comment
import HeaderBindings.Proofs.Model.Lacking
import HeaderBindings.Proofs.Text.Words
import HeaderBindings.Proofs.Token.Feeds

/-!
Declarations without line feeds. What is read from a declaration on one line shows no line feed, and the
name of a class is one identifier. A documentation comment may run over many lines; its texts are words
with blanks between them.
-/

namespace HeaderBindings

open Token

theorem exists_of_bind {ε α β : Type} {action : Except ε α} {next : α → Except ε β} {result : β}
    (ok : (action >>= next) = .ok result) : ∃ value, action = .ok value ∧ next value = .ok result := by
  cases action with
  | error failure => cases ok
  | ok value => exact ⟨value, rfl, ok⟩

theorem ok_of_mapError {ε δ α : Type} {action : Except ε α} {describe : ε → δ} {result : α}
    (ok : action.mapError describe = .ok result) : action = .ok result := by
  cases action with
  | error failure => cases ok
  | ok value => rw [Except.ok.inj ok]

theorem untilSemicolon_subset (tokens : List Token) : untilSemicolon tokens ⊆ tokens :=
  (List.takeWhile_prefix _).subset

namespace Method.Reader

theorem componentName_subset (type : NativeType) (tokens : List Token) :
    (componentName type tokens).2 ⊆ tokens := by
  unfold componentName
  split
  · exact List.Subset.refl _
  · exact List.subset_cons_self _ _
  · exact List.Subset.refl _

theorem component_subset {tokens : List Token} {read : Component × List Token}
    (ok : component tokens = .ok read) : read.2 ⊆ tokens := by
  unfold component at ok
  split at ok
  · cases ok
    exact componentName_subset _ _
  · next group opened =>
    split at ok
    · cases ok
      exact List.Subset.trans (componentName_subset _ _) (group_subset opened).2
    · cases ok

theorem label_subset {tokens : List Token} {found : Text × List Token}
    (here : label? tokens = some found) : found.2 ⊆ tokens := by
  unfold label? at here
  split at here
  · cases here
    exact List.subset_cons_of_subset _ (List.subset_cons_self _ _)
  · cases here
    exact List.subset_cons_self _ _
  · cases here

theorem components_subset {label : Text} {tokens : List Token} {signature : Signature}
    (ok : components label tokens = .ok signature) : signature.rest ⊆ tokens := by
  fun_induction components label tokens generalizing signature with
  | case1 label tokens fault failed => cases ok
  | case2 label tokens read rest found =>
    cases ok
    have behind := component_subset found
    exact List.Subset.trans (List.subset_cons_of_subset _ (List.subset_cons_self _ _)) behind
  | case3 label tokens read rest plain found last =>
    cases ok
    exact component_subset found
  | case4 label tokens read rest plain found next later more ih =>
    cases below : components next later with
    | error fault => simp [below, Except.map] at ok
    | ok inner =>
      simp only [below, Except.map, Except.ok.injEq] at ok
      subst ok
      have deeper := List.Subset.trans (ih below) (label_subset more)
      exact List.Subset.trans deeper (component_subset found)

theorem signature_subset {tokens : List Token} {read : Signature} (ok : signature tokens = .ok read) :
    read.rest ⊆ tokens := by
  unfold signature at ok
  split at ok
  · have behind := components_subset ok
    exact List.subset_cons_of_subset _ (List.subset_cons_of_subset _ behind)
  · cases ok
    exact List.subset_cons_self _ _
  · cases ok

theorem returnType_subset {tokens : List Token} {read : NativeType × List Token}
    (ok : returnType tokens = .ok read) : read.2 ⊆ tokens := by
  unfold returnType at ok
  split at ok
  · cases ok
  · next group opened =>
    split at ok
    · cases ok
      exact (group_subset opened).2
    · cases ok

theorem feed_componentName (type : NativeType) (tokens : List Token) (free : Feedless tokens) :
    ∀ name ∈ (componentName type tokens).1.name?, '\n' ∉ name := by
  unfold componentName
  split
  · simp
  · next name tokens _ =>
    rintro _ ⟨rfl⟩
    exact ((feedless_cons _ _).mp free).1
  · simp

theorem feed_component (tokens : List Token) (read : Component × List Token) (free : Feedless tokens)
    (ok : component tokens = .ok read) : ∀ name ∈ read.1.name?, '\n' ∉ name := by
  unfold component at ok
  split at ok
  · cases ok
    exact feed_componentName _ tokens free
  · next group opened =>
    split at ok
    · cases ok
      exact feed_componentName _ group.rest (free.subset (group_subset opened).2)
    · cases ok

/-- What has been read of a method, and what follows, shows no line feed. -/
structure Signature.Feedless (signature : Signature) : Prop where
  selector : '\n' ∉ signature.selector
  params : ∀ param ∈ signature.params, param.Lacks '\n'
  rest : Token.Feedless signature.rest

theorem Signature.Feedless.addComponent {signature : Signature} (free : signature.Feedless)
    (label : Text) (read : Component) (labelled : '\n' ∉ label)
    (named : ∀ name ∈ read.name?, '\n' ∉ name) :
    (signature.addComponent label read).Feedless where
  selector := by simpa [Signature.addComponent, labelled] using free.selector
  params := by
    intro param member
    rcases List.mem_append.mp member with own | later
    · obtain ⟨name, given, rfl⟩ := Option.map_eq_some_iff.mp (Option.mem_toList.mp own)
      exact ⟨named name given, by simp⟩
    · exact free.params param later
  rest := free.rest

theorem Signature.feedless_rest (rest : List Token) (free : Token.Feedless rest) :
    Signature.Feedless ⟨[], [], rest⟩ := ⟨by simp, by simp, free⟩

theorem feed_label (tokens : List Token) (found : Text × List Token) (free : Token.Feedless tokens)
    (here : label? tokens = some found) : '\n' ∉ found.1 := by
  unfold label? at here
  split at here
  · cases here
    exact ((feedless_cons _ _).mp free).1
  · cases here
    simp
  · cases here

theorem feedless_components (label : Text) (tokens : List Token) (signature : Signature)
    (labelled : '\n' ∉ label) (free : Token.Feedless tokens)
    (ok : components label tokens = .ok signature) : signature.Feedless := by
  -- By the components: the label of the next one is among the tokens behind this one.
  fun_induction components label tokens generalizing signature with
  | case1 label tokens fault failed => cases ok
  | case2 label tokens read rest found =>
    have behind := free.subset (component_subset found)
    have tail := ((feedless_cons _ _).mp ((feedless_cons _ _).mp behind).2).2
    cases ok
    exact (Signature.feedless_rest rest tail).addComponent label read labelled
      (feed_component _ _ free found)
  | case3 label tokens read rest plain found last =>
    cases ok
    exact (Signature.feedless_rest rest (free.subset (component_subset found))).addComponent label read
      labelled (feed_component _ _ free found)
  | case4 label tokens read rest plain found next later more ih =>
    have behind := free.subset (component_subset found)
    cases below : components next later with
    | error fault => simp [below, Except.map] at ok
    | ok inner =>
      simp only [below, Except.map, Except.ok.injEq] at ok
      subst ok
      have deeper := ih inner (feed_label _ _ behind more) (behind.subset (label_subset more)) below
      exact deeper.addComponent label read labelled (feed_component _ _ free found)

theorem feed_trailingMacros (tokens : List Token) (availability : Option Text)
    (free : Token.Feedless tokens) (ok : trailingMacros tokens = .ok availability) :
    ∀ text ∈ availability, '\n' ∉ text := by
  fun_induction trailingMacros tokens generalizing availability with
  | case1 =>
    cases ok
    simp
  | case2 name tokens group call ih =>
    obtain ⟨named, behind⟩ := (feedless_cons _ _).mp free
    obtain ⟨inner, rest⟩ := group_subset call
    cases below : trailingMacros group.rest with
    | error fault => simp [below, Except.map] at ok
    | ok later =>
      simp only [below, Except.map, Except.ok.injEq] at ok
      subst ok
      exact ClassDecl.lacks_or (Availability.feed_ofCall name group.inner named (behind.subset inner))
        (ih later (behind.subset rest) below)
  | case3 name tokens none ih => exact ih availability ((feedless_cons _ _).mp free).2 ok
  | case4 tokens ih => exact ih availability ((feedless_cons _ _).mp free).2 ok
  | case5 token rest => cases ok

theorem feedless_signature (tokens : List Token) (read : Signature) (free : Token.Feedless tokens)
    (ok : signature tokens = .ok read) : read.Feedless := by
  unfold signature at ok
  split at ok
  · obtain ⟨labelled, behind⟩ := (feedless_cons _ _).mp free
    exact feedless_components _ _ read labelled ((feedless_cons _ _).mp behind).2 ok
  · obtain ⟨named, behind⟩ := (feedless_cons _ _).mp free
    cases ok
    exact ⟨named, by simp, behind⟩
  · cases ok

theorem lacks_afterSign (isStatic : Bool) (tokens : List Token) (method : Method)
    (free : Token.Feedless tokens) (ok : afterSign isStatic tokens = .ok method) :
    method.Lacks '\n' := by
  obtain ⟨⟨type, behind⟩, returned, ok⟩ := exists_of_bind ok
  obtain ⟨read, signed, ok⟩ := exists_of_bind ok
  obtain ⟨availability, ended, ok⟩ := exists_of_bind ok
  cases ok
  have own := feedless_signature _ _ (free.subset (returnType_subset returned)) signed
  have macros := feed_trailingMacros _ _ own.rest ended
  exact ⟨own.selector, own.params, macros, by simp, by simp⟩

end Method.Reader

/-- A method that is read from one line shows no line feed. -/
theorem Method.lacks_parse (declaration : Text) (free : '\n' ∉ declaration) (method : Method)
    (ok : Method.parse declaration = .ok method) : method.Lacks '\n' := by
  have tokens : Feedless (untilSemicolon (lex declaration)) :=
    (feedless_lex declaration free).subset (untilSemicolon_subset _)
  have read := ok_of_mapError ok
  unfold Method.Reader.method at read
  split at read
  · next behind whole =>
    exact Method.Reader.lacks_afterSign _ _ _ ((feedless_cons _ _).mp (whole ▸ tokens)).2 read
  · next behind whole =>
    exact Method.Reader.lacks_afterSign _ _ _ ((feedless_cons _ _).mp (whole ▸ tokens)).2 read
  · cases read

namespace Token

theorem cutCommas_subset (depth : Int) (tokens : List Token) :
    (cutCommas depth tokens).1 ⊆ tokens ∧ ∀ part ∈ (cutCommas depth tokens).2, part ⊆ tokens := by
  induction tokens generalizing depth with
  | nil => simp [cutCommas]
  | cons token tokens ih =>
    obtain ⟨first, later⟩ := ih (depth + token.nesting)
    have wider (part : List Token) (inside : part ⊆ tokens) : part ⊆ token :: tokens :=
      List.subset_cons_of_subset _ inside
    simp only [cutCommas]
    split
    · refine ⟨by simp, ?_⟩
      intro part member
      rcases List.mem_cons.mp member with rfl | other
      · exact wider _ first
      · exact wider _ (later part other)
    · exact ⟨List.cons_subset_cons _ first, fun part member => wider _ (later part member)⟩

theorem splitCommas_subset (tokens part : List Token) (member : part ∈ splitCommas tokens) :
    part ⊆ tokens := by
  obtain ⟨first, later⟩ := cutCommas_subset 0 tokens
  rcases List.mem_cons.mp (List.mem_filter.mp member).1 with rfl | other
  · exact first
  · exact later part other

end Token

namespace Property.Reader

theorem attributeList_subset {tokens : List Token} {read : List Text × List Token}
    (ok : attributeList tokens = .ok read) : read.2 ⊆ tokens := by
  unfold attributeList at ok
  split at ok
  · cases ok
    exact List.Subset.refl _
  · next group opened =>
    split at ok
    · cases ok
      exact (group_subset opened).2
    · cases ok

theorem feed_attributeList (tokens : List Token) (read : List Text × List Token)
    (free : Feedless tokens) (ok : attributeList tokens = .ok read) :
    ∀ entry ∈ read.1, '\n' ∉ entry := by
  unfold attributeList at ok
  split at ok
  · cases ok
    simp
  · next group opened =>
    split at ok
    · cases ok
      intro entry member
      obtain ⟨part, own, rfl⟩ := List.mem_map.mp member
      have inside := List.Subset.trans (splitCommas_subset _ _ own) (group_subset opened).1
      exact feed_render part (free.subset inside)
    · cases ok

theorem feed_attributeValue (attributes : List Text) (free : ∀ entry ∈ attributes, '\n' ∉ entry)
    (key : Text) : ∀ value ∈ attributeValue? attributes key, '\n' ∉ value := by
  intro value given
  obtain ⟨entry, member, found⟩ := List.exists_of_findSome?_eq_some given
  obtain ⟨⟨before, behind⟩, cut, kept⟩ := Option.bind_eq_some_iff.mp found
  have whole := Text.eq_of_cutAt _ _ _ _ cut
  dsimp only at kept
  split at kept
  · cases kept
    intro feed
    apply free entry member
    rw [whole]
    exact List.mem_append_right _ (Text.trim_subset behind feed)
  · cases kept

theorem feed_stripReversed (availability : Option Text) (tokens : List Token)
    (known : ∀ text ∈ availability, '\n' ∉ text) (free : Feedless tokens) :
    (∀ text ∈ (stripReversed availability tokens).availability, '\n' ∉ text) ∧
      Feedless (stripReversed availability tokens).tokens := by
  have back (tokens : List Token) (free : Feedless tokens) : Feedless tokens.reverse :=
    free.subset fun token member => List.mem_reverse.mp member
  fun_induction stripReversed availability tokens with
  | case1 availability before inner name rest call named whole ih =>
    obtain ⟨inside, behind⟩ := group_subset call
    have tail := (feedless_cons _ _).mp (free.subset behind)
    apply ih _ tail.2
    intro text given
    split at given
    · cases given
      apply Availability.feed_normalize
      apply feed_render
      rw [feedless_append, feedless_cons, feedless_cons]
      refine ⟨⟨tail.1, by decide, back _ (free.subset inside)⟩, ?_⟩
      exact (feedless_cons _ _).mpr ⟨by decide, feedless_nil⟩
    · exact known text given
  | case2 availability before inner name rest call other => exact ⟨known, back _ free⟩
  | case3 availability before other => exact ⟨known, back _ free⟩
  | case4 availability name token before named ih =>
    exact ih known ((feedless_cons _ _).mp free).2
  | case5 availability name token before other => exact ⟨known, back _ free⟩
  | case6 availability tokens other => exact ⟨known, back _ free⟩

theorem feed_blockName (tokens : List Token) (found : Text × List Token) (free : Feedless tokens)
    (named : blockName? tokens = some found) : '\n' ∉ found.1 := by
  fun_induction blockName? tokens generalizing found with
  | case1 => cases named
  | case2 name tokens =>
    cases named
    exact ((feedless_cons _ _).mp ((feedless_cons _ _).mp free).2).1
  | case3 => cases named
  | case4 token tokens _ _ ih =>
    obtain ⟨inner, deeper, rfl⟩ := Option.map_eq_some_iff.mp named
    exact ih inner ((feedless_cons _ _).mp free).2 deeper

theorem feed_lastName (tokens : List Token) (found : Text × List Token) (free : Feedless tokens)
    (named : lastName? tokens = some found) : '\n' ∉ found.1 := by
  unfold lastName? at named
  split at named
  · next name before whole =>
    cases named
    apply free (.identifier name)
    apply List.mem_reverse.mp
    apply (List.dropWhile_suffix _).subset
    rw [whole]
    exact List.mem_cons_self
  · cases named

theorem feed_nameAndType (tokens : List Token) (found : Text × List Token) (free : Feedless tokens)
    (named : nameAndType? tokens = some found) : '\n' ∉ found.1 := by
  rcases Option.or_eq_some_iff.mp named with block | ⟨_, last⟩
  · exact feed_blockName tokens found free block
  · exact feed_lastName tokens found free last

theorem lacks_afterDirective (assumeNonnull : Bool) (tokens : List Token) (property : Property)
    (free : Feedless tokens) (ok : afterDirective assumeNonnull tokens = .ok property) :
    property.Lacks '\n' := by
  obtain ⟨⟨attributes, behind⟩, listed, ok⟩ := exists_of_bind ok
  have entries := feed_attributeList _ _ free listed
  have rest := free.subset (attributeList_subset listed)
  obtain ⟨macros, declared⟩ := feed_stripReversed none behind.reverse (by simp)
    (rest.subset fun token member => List.mem_reverse.mp member)
  dsimp only at ok
  split at ok
  · cases ok
  · cases ok
  · next name typeTokens _ found =>
    cases ok
    exact ⟨feed_nameAndType _ _ declared found, feed_attributeValue attributes entries _,
      feed_attributeValue attributes entries _, macros, by simp⟩

end Property.Reader

/-- A property that is read from one line shows no line feed. -/
theorem Property.lacks_parse (assumeNonnull : Bool) (declaration : Text) (free : '\n' ∉ declaration)
    (property : Property) (ok : Property.parse assumeNonnull declaration = .ok property) :
    property.Lacks '\n' := by
  have tokens : Feedless (untilSemicolon (lex declaration)) :=
    (feedless_lex declaration free).subset (untilSemicolon_subset _)
  have read := ok_of_mapError ok
  unfold Property.Reader.property at read
  split at read
  · next name behind whole =>
    split at read
    · exact Property.Reader.lacks_afterDirective _ _ _ ((feedless_cons _ _).mp (whole ▸ tokens)).2 read
    · cases read
  · cases read

namespace ClassHeader.Reader

theorem angles_subset (tokens : List Token) (read : Option (List Token) × List Token)
    (ok : angles? tokens = .ok read) : read.2 ⊆ tokens := by
  unfold angles? at ok
  split at ok
  · cases ok
    exact List.Subset.refl _
  · next group opened =>
    split at ok
    · cases ok
      exact (group_subset opened).2
    · cases ok

theorem afterName_subset (tokens : List Token) (read : List Text × List Text × List Token)
    (ok : afterName tokens = .ok read) : read.2.2 ⊆ tokens := by
  obtain ⟨⟨inner?, behind⟩, opened, ok⟩ := exists_of_bind ok
  have rest := angles_subset _ _ opened
  cases inner? with
  | none =>
    cases ok
    exact rest
  | some inner =>
    dsimp only at ok
    split at ok
    · cases ok
      exact rest
    · obtain ⟨names, _, ok⟩ := exists_of_bind ok
      cases ok
      exact rest

theorem category_subset (tokens : List Token) (read : Option Text × List Token)
    (ok : category? tokens = .ok read) : read.2 ⊆ tokens := by
  unfold category? at ok
  split at ok
  · cases ok
    exact List.Subset.refl _
  · cases ok
  · next opened =>
    cases ok
    exact (group_subset opened).2
  · next opened =>
    cases ok
    exact (group_subset opened).2
  · cases ok

theorem superclass_subset (typeParams : List Text) (tokens : List Token)
    (read : Option Text × List Text × List Token) (ok : superclass? typeParams tokens = .ok read) :
    read.2.2 ⊆ tokens := by
  unfold superclass? at ok
  split at ok
  · next name behind =>
    obtain ⟨⟨inner?, rest⟩, opened, ok⟩ := exists_of_bind ok
    have inside : rest ⊆ .colon :: .identifier name :: behind := by
      intro token member
      have here := angles_subset _ _ opened member
      exact List.mem_cons_of_mem _ (List.mem_cons_of_mem _ here)
    cases inner? with
    | none =>
      cases ok
      exact inside
    | some inner =>
      dsimp only at ok
      split at ok
      · cases ok
        exact inside
      · obtain ⟨names, _, ok⟩ := exists_of_bind ok
        cases ok
        exact inside
  · cases ok
  · cases ok
    exact List.Subset.refl _

theorem protocols_subset (tokens : List Token) (read : List Text × List Token)
    (ok : protocols? tokens = .ok read) : read.2 ⊆ tokens := by
  obtain ⟨⟨inner?, rest⟩, opened, ok⟩ := exists_of_bind ok
  have inside := angles_subset _ _ opened
  cases inner? with
  | none =>
    cases ok
    exact inside
  | some inner =>
    obtain ⟨names, _, ok⟩ := exists_of_bind ok
    cases ok
    exact inside

theorem afterDirective_sound (leading : Option Text) (tokens : List Token) (read : ClassHeader)
    (known : ∀ text ∈ leading, '\n' ∉ text) (free : Feedless tokens)
    (ok : afterDirective leading tokens = .ok read) :
    .identifier read.name ∈ tokens ∧ ∀ text ∈ read.availability, '\n' ∉ text := by
  unfold afterDirective at ok
  split at ok
  · next name behind =>
    obtain ⟨⟨params, root, first⟩, named, ok⟩ := exists_of_bind ok
    obtain ⟨⟨category, second⟩, categorised, ok⟩ := exists_of_bind ok
    obtain ⟨⟨superclass, above, third⟩, extended, ok⟩ := exists_of_bind ok
    obtain ⟨⟨protocols, fourth⟩, adopted, ok⟩ := exists_of_bind ok
    obtain ⟨_, _, ok⟩ := exists_of_bind ok
    cases ok
    -- Each part of a header leaves tokens of what it was given.
    have afterFirst := ((feedless_cons _ _).mp free).2.subset (afterName_subset _ _ named)
    have afterSecond := afterFirst.subset (category_subset _ _ categorised)
    have afterThird := afterSecond.subset (superclass_subset _ _ _ extended)
    have macros := feed_macroRun fourth (afterThird.subset (protocols_subset _ _ adopted))
    exact ⟨List.mem_cons_self, ClassDecl.lacks_or known macros⟩
  · cases ok

end ClassHeader.Reader

/-- The name of a header that is read is an identifier, and its availability shows no line feed. -/
theorem ClassHeader.parse_sound (line : Text) (free : '\n' ∉ line) (read : ClassHeader)
    (ok : ClassHeader.parse line = .ok read) :
    Spells (.identifier read.name) read.name ∧ ∀ text ∈ read.availability, '\n' ∉ text := by
  have tokens := feedless_lex line free
  have header := ok_of_mapError ok
  unfold ClassHeader.Reader.header at header
  dsimp only at header
  have macros := feed_macroRun (lex line) tokens
  split at header
  · next name behind whole =>
    have rest : behind ⊆ lex line := by
      intro token member
      apply macroRun_subset (lex line)
      rw [whole]
      exact List.mem_cons_of_mem _ member
    split at header
    · obtain ⟨own, availability⟩ := ClassHeader.Reader.afterDirective_sound _ _ read macros
        (tokens.subset rest) header
      rcases lexed_of_mem line _ (rest own) with other | spells
      · cases other
      · exact ⟨spells, availability⟩
    · cases header
  · cases header

namespace DocComment

theorem feed_joinWords (text more : Text) (free : '\n' ∉ text) : '\n' ∉ joinWords text more := by
  have visible : ∀ word ∈ more.words, '\n' ∉ word := by
    intro word member feed
    have blank := (Text.isVisibleWord_of_mem more word member).visible '\n' feed
    exact absurd blank (by decide)
  unfold joinWords
  generalize more.words = words at visible
  induction words generalizing text with
  | nil => exact free
  | cons word words ih =>
    have here := visible word List.mem_cons_self
    apply ih
    · dsimp only
      split
      · exact here
      · simpa [free] using here
    · exact fun next member => visible next (List.mem_cons_of_mem word member)

theorem lacks_append (doc : DocComment) (more : Text) (part : Section) (lacks : doc.Lacks '\n') :
    (doc.append more part).Lacks '\n' := by
  cases part with
  | description => exact ⟨feed_joinWords _ _ lacks.description, lacks.params, lacks.returns⟩
  | returns => exact ⟨lacks.description, lacks.params, feed_joinWords _ _ lacks.returns⟩
  | ignored => exact lacks
  | param name =>
    refine ⟨lacks.description, ?_, lacks.returns⟩
    have known := lacks.params
    unfold append
    dsimp only
    generalize doc.params = params at known
    induction params with
    | nil => simpa [appendParam] using feed_joinWords [] more (by simp)
    | cons entry later ih =>
      have here := known entry List.mem_cons_self
      have rest : ∀ other ∈ later, '\n' ∉ other.2 :=
        fun other member => known other (List.mem_cons_of_mem entry member)
      unfold appendParam
      intro other member
      split at member
      · rcases List.mem_cons.mp member with rfl | old
        · exact feed_joinWords _ _ here
        · exact rest other old
      · rcases List.mem_cons.mp member with rfl | deeper
        · exact here
        · exact ih rest other deeper

/-- A documentation comment holds no line feed, however many lines it is written on. -/
theorem lacks_parse (block : Text) : (parse block).Lacks '\n' := by
  have tags (tagged : List Text) (state : DocComment × Section) (lacks : state.1.Lacks '\n') :
      (tagged.foldl readTag state).1.Lacks '\n' := by
    induction tagged generalizing state with
    | nil => exact lacks
    | cons tag tagged ih => exact ih _ (lacks_append _ _ _ lacks)
  have lines (lines : List Text) (state : DocComment × Section) (lacks : state.1.Lacks '\n') :
      (lines.foldl readLine state).1.Lacks '\n' := by
    induction lines generalizing state with
    | nil => exact lacks
    | cons line lines ih => exact ih _ (tags _ _ (lacks_append _ _ _ lacks))
  exact lines _ _ (lacks_empty '\n')

end DocComment

end HeaderBindings
