import HeaderBindings.Availability
import HeaderBindings.Proofs.Token.Rendering

/-!
Tokens without line feeds. The tokens of a text show no line feed that the text does not have, and
what is cut out of tokens or written from them shows none that they do not show.
-/

namespace HeaderBindings

namespace Token

/-- No token shows a line feed. -/
def Feedless (tokens : List Token) : Prop := ∀ token ∈ tokens, '\n' ∉ token.text

theorem Feedless.subset {tokens part : List Token} (free : Feedless tokens) (inside : part ⊆ tokens) :
    Feedless part := fun token member => free token (inside member)

theorem feedless_nil : Feedless [] := fun token member => by cases member

theorem feedless_cons (token : Token) (tokens : List Token) :
    Feedless (token :: tokens) ↔ '\n' ∉ token.text ∧ Feedless tokens := List.forall_mem_cons

theorem feedless_append (left right : List Token) :
    Feedless (left ++ right) ↔ Feedless left ∧ Feedless right := List.forall_mem_append

theorem feedless_lex (text : Text) (free : '\n' ∉ text) : Feedless (lex text) := by
  induction text using step_induction with
  | nil => simp [lex, feedless_nil]
  | step token? taken middle step ih =>
    obtain ⟨here, later⟩ := not_or.mp (mt List.mem_append.mpr free)
    rw [lex_step step, feedless_append]
    refine ⟨?_, ih later⟩
    cases step with
    | @token token _ _ spells _ =>
      apply (feedless_cons token []).mpr
      refine ⟨?_, feedless_nil⟩
      by_cases known : token = unknown
      · rw [known]
        decide
      · exact text_of_spells spells known ▸ here
    | sign | slash | openBlock | openString =>
      exact (feedless_cons unknown []).mpr ⟨by decide, feedless_nil⟩
    | gap | block | line => exact feedless_nil

theorem feed_renderAfter (tokens : List Token) (free : Feedless tokens) (before? : Option Token) :
    '\n' ∉ renderAfter before? tokens := by
  induction tokens generalizing before? with
  | nil => simp [renderAfter]
  | cons token rest ih =>
    obtain ⟨here, later⟩ := (feedless_cons token rest).mp free
    simp only [renderAfter, List.mem_append, not_or]
    refine ⟨⟨?_, here⟩, ih later (some token)⟩
    cases before? with
    | none => simp
    | some before =>
      dsimp only
      split <;> simp

theorem feed_render (tokens : List Token) (free : Feedless tokens) : '\n' ∉ render tokens :=
  feed_renderAfter tokens free none

/-- The inside of a group and what follows it are among the tokens. -/
theorem Group.read_subset (opening closing : Token) (depth : Nat) (tokens : List Token) :
    (read opening closing depth tokens).inner ⊆ tokens ∧
      (read opening closing depth tokens).rest ⊆ tokens := by
  fun_induction read opening closing depth tokens with
  | case1 => simp
  | case2 depth tokens ih =>
    exact ⟨List.cons_subset_cons _ ih.1, List.subset_cons_of_subset _ ih.2⟩
  | case3 tokens apart => simp
  | case4 tokens apart depth ih =>
    exact ⟨List.cons_subset_cons _ ih.1, List.subset_cons_of_subset _ ih.2⟩
  | case5 depth token tokens apart other ih =>
    exact ⟨List.cons_subset_cons _ ih.1, List.subset_cons_of_subset _ ih.2⟩

theorem group_subset {opening closing : Token} {tokens : List Token} {group : Group}
    (found : group? opening closing tokens = some group) :
    group.inner ⊆ tokens ∧ group.rest ⊆ tokens := by
  cases tokens with
  | nil => cases found
  | cons token tokens =>
    simp only [group?] at found
    split at found
    · cases found
      obtain ⟨inner, rest⟩ := Group.read_subset opening closing 0 tokens
      exact ⟨List.subset_cons_of_subset _ inner, List.subset_cons_of_subset _ rest⟩
    · cases found

end Token

theorem Text.trim_subset (text : Text) : text.trim ⊆ text := by
  obtain ⟨lead, trail, whole, _⟩ := Text.trim_parts text
  intro c member
  rw [whole]
  simp [member]

namespace Availability

open Token

theorem dropSurplus_subset (surplus : Nat) (text : Text) : dropSurplus surplus text ⊆ text := by
  fun_induction dropSurplus surplus text with
  | case1 surplus text ih => exact List.subset_cons_of_subset _ ih
  | case2 => exact List.Subset.refl _

theorem feed_normalize (text : Text) (free : '\n' ∉ text) : '\n' ∉ normalize text := by
  have trimmed : '\n' ∉ text.trim := fun member => free (Text.trim_subset text member)
  simp only [normalize, List.mem_append, List.mem_reverse, not_or]
  constructor
  · intro member
    exact trimmed (List.mem_reverse.mp (dropSurplus_subset _ _ member))
  · intro member
    exact absurd (List.eq_of_mem_replicate member) (by decide)

theorem feed_ofCall (name : Text) (arguments : List Token) (named : '\n' ∉ name)
    (free : Feedless arguments) : ∀ text ∈ ofCall? name arguments, '\n' ∉ text := by
  intro text given
  unfold ofCall? at given
  split at given
  · cases given
    apply feed_normalize
    simp only [List.mem_append, not_or]
    exact ⟨⟨⟨named, by decide⟩, feed_render arguments free⟩, by decide⟩
  · cases given

end Availability

theorem macroRun_subset (tokens : List Token) : (macroRun tokens).rest ⊆ tokens := by
  fun_induction macroRun tokens
  case case1 name tokens named group call later ih =>
    exact List.subset_cons_of_subset _ (List.Subset.trans ih (Token.group_subset call).2)
  case case2 name tokens named none ih => exact List.subset_cons_of_subset _ ih
  case case3 name tokens other => exact List.Subset.refl _
  case case4 tokens other => exact List.Subset.refl _

open Token in
theorem feed_macroRun (tokens : List Token) (free : Feedless tokens) :
    ∀ text ∈ (macroRun tokens).availability, '\n' ∉ text := by
  fun_induction macroRun tokens with
  | case1 name tokens named group call later ih =>
    obtain ⟨here, behind⟩ := (feedless_cons _ tokens).mp free
    obtain ⟨inner, rest⟩ := group_subset call
    have own := Availability.feed_ofCall name group.inner here (behind.subset inner)
    intro text given
    cases call? : Availability.ofCall? name group.inner with
    | none =>
      rw [call?] at given
      exact ih (behind.subset rest) text given
    | some first =>
      rw [call?] at given
      exact own text (call?.trans given)
  | case2 name tokens named none ih => exact ih ((feedless_cons _ tokens).mp free).2
  | case3 name tokens other => simp
  | case4 tokens other => simp

theorem feed_macroOnly (text : Text) (free : '\n' ∉ text) (availability : Option Text)
    (found : macroOnly? text = some availability) : ∀ call ∈ availability, '\n' ∉ call := by
  unfold macroOnly? at found
  split at found
  · cases found
  · next token tokens lexed =>
    dsimp only at found
    split at found
    · cases found
      exact feed_macroRun _ (lexed ▸ Token.feedless_lex text free)
    · cases found

end HeaderBindings
