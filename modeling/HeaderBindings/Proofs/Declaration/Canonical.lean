import HeaderBindings.Proofs.Declaration.Nullability
import HeaderBindings.Proofs.Token.Fusing

/-!
Types in canonical form. The tokens that a canonical form keeps would all be kept again, and stay such
tokens when they are written and read, so that a canonical form is its own canonical form and no word
about null or qualifier is a token of it.
-/

namespace HeaderBindings

open Token

namespace NativeType

/-- Tokens that all stay in a canonical form, at a depth of parentheses and behind the token that stayed
last. -/
def Canonical (depth : Int) (last? : Option Token) : List Token → Prop
  | [] => True
  | token :: tokens =>
    isDroppedWord token = false ∧
      (token = .star → depth = 0 → last? = some (.identifier "char".toList)) ∧
      Canonical (depth + parens token) (some token) tokens

section Kept

theorem parens_dropped {token : Token} (dropped : isDroppedWord token = true) : parens token = 0 := by
  cases token with
  | identifier name => rfl
  | _ => cases dropped

theorem canonical_keep (depth angleDepth : Int) (before? last? : Option Token) (tokens : List Token) :
    Canonical depth last? (keep last? (place depth angleDepth before? tokens)) := by
  induction tokens generalizing depth angleDepth before? last? with
  | nil => trivial
  | cons token tokens ih =>
    rw [place, keep]
    split
    · next dropped =>
      rw [parens_dropped dropped, Int.add_zero]
      exact ih _ _ _ _
    · next stays =>
      split
      · next star =>
        simp only [isPointerStar, Bool.and_eq_true, beq_iff_eq] at star
        obtain ⟨⟨rfl, -⟩, -⟩ := star
        simpa only [parens, Int.add_zero] using ih _ _ _ _
      · next noStar =>
        refine ⟨Bool.eq_false_iff.mpr stays, ?_, ih _ _ _ _⟩
        rintro rfl bottom
        simpa [isPointerStar, parens, bottom] using noStar

theorem keep_canonical (depth angleDepth : Int) (before? last? : Option Token) (tokens : List Token)
    (canonical : Canonical depth last? tokens) :
    keep last? (place depth angleDepth before? tokens) = tokens := by
  induction tokens generalizing depth angleDepth before? last? with
  | nil => rfl
  | cons token tokens ih =>
    obtain ⟨stays, star, later⟩ := canonical
    have stays' : ¬ token.name?.any isDropped = true := Bool.eq_false_iff.mp stays
    rw [place, keep, if_neg stays', if_neg, ih _ _ _ _ later]
    intro pointer
    simp only [isPointerStar, Bool.and_eq_true, beq_iff_eq, bne_iff_ne] at pointer
    obtain ⟨⟨rfl, bottom⟩, other⟩ := pointer
    exact other (star rfl (by simpa [parens] using bottom))

theorem Canonical.undropped {depth : Int} {last? : Option Token} {tokens : List Token}
    (canonical : Canonical depth last? tokens) : ∀ token ∈ tokens, isDroppedWord token = false := by
  induction tokens generalizing depth last? with
  | nil => simp
  | cons token tokens ih =>
    obtain ⟨stays, -, later⟩ := canonical
    exact List.forall_mem_cons.mpr ⟨stays, ih later⟩

end Kept

section Reread

-- Only `char` at the front lets a star stay.
theorem Canonical.behind {depth : Int} {last? other? : Option Token} {tokens : List Token}
    (canonical : Canonical depth last? tokens) (plain : last? ≠ some (.identifier "char".toList)) :
    Canonical depth other? tokens := by
  cases tokens with
  | nil => trivial
  | cons token tokens =>
    obtain ⟨stays, star, later⟩ := canonical
    exact ⟨stays, fun same bottom => absurd (star same bottom) plain, later⟩

/-- Numbers and points that are read as one are as good as before. -/
theorem Canonical.fuse {tokens fused : List Token} (step : Fuse tokens fused) {depth : Int}
    {last? : Option Token} (canonical : Canonical depth last? tokens) : Canonical depth last? fused := by
  induction step generalizing depth last? with
  | number whole fraction tokens =>
    obtain ⟨-, -, -, -, -, -, later⟩ := canonical
    simp only [parens, Int.add_zero] at later
    exact ⟨rfl, by simp, by simpa only [parens, Int.add_zero] using later.behind (by simp)⟩
  | points tokens =>
    obtain ⟨-, -, -, -, -, -, later⟩ := canonical
    simp only [parens, Int.add_zero] at later
    exact ⟨rfl, by simp, by simpa only [parens, Int.add_zero] using later.behind (by simp)⟩
  | turn tokens =>
    obtain ⟨-, -, -, -, later⟩ := canonical
    simp only [parens, Int.add_zero] at later
    refine ⟨rfl, by simp, rfl, by simp, ?_⟩
    simpa only [parens, Int.add_zero] using later.behind (by simp)
  | behind token step ih =>
    obtain ⟨stays, star, later⟩ := canonical
    exact ⟨stays, star, ih later⟩

theorem Canonical.lex_render {tokens : List Token} {depth : Int} {last? : Option Token}
    (canonical : Canonical depth last? tokens) (lexed : ∀ token ∈ tokens, token.Lexed) :
    Canonical depth last? (lex (render tokens)) := by
  have fuses := fuses_lex_render tokens lexed
  generalize lex (render tokens) = fused at fuses ⊢
  induction fuses with
  | refl => exact canonical
  | tail _ step ih => exact ih.fuse step

theorem keep_subset (last? : Option Token) (depth angleDepth : Int) (before? : Option Token)
    (tokens : List Token) : keep last? (place depth angleDepth before? tokens) ⊆ tokens := by
  induction tokens generalizing last? depth angleDepth before? with
  | nil => simp [place, keep]
  | cons token tokens ih =>
    rw [place, keep]
    split
    · exact List.subset_cons_of_subset _ (ih _ _ _ _)
    · split
      · exact List.subset_cons_of_subset _ (ih _ _ _ _)
      · exact List.cons_subset_cons _ (ih _ _ _ _)

/-- The name of a type is read as tokens that all stay. -/
theorem canonical_name (text : Text) : Canonical 0 none (lex (ofText text).name) := by
  have name : (ofText text).name = let written := render (keep none (place 0 0 none (lex text)))
      if written.isEmpty then "id".toList else written := rfl
  rw [name]
  dsimp only
  split
  · have unnamed : lex "id".toList = [.identifier "id".toList] := by decide +kernel
    rw [unnamed]
    exact ⟨by decide, nofun, trivial⟩
  · exact (canonical_keep 0 0 none none (lex text)).lex_render fun token member =>
      lexed_of_mem text token (keep_subset _ _ _ _ _ member)

theorem name_ne_nil (text : Text) : (ofText text).name ≠ [] := by
  simp only [ofText, ofTokens]
  split
  · decide
  · next written => simpa using written

theorem render_lex_name (text : Text) : render (lex (ofText text).name) = (ofText text).name := by
  simp only [ofText, ofTokens]
  split
  · decide +kernel
  · have fuses := fuses_lex_render _ fun token member =>
      lexed_of_mem text token (keep_subset none 0 0 none (lex text) member)
    exact (fuses.renderAfter none).symm

theorem any_marked_undropped (markers : List Text) (inside : ∀ name ∈ markers, isDropped name = true)
    (tokens : List Token) (undropped : ∀ token ∈ tokens, isDroppedWord token = false) :
    (place 0 0 none tokens).any (isMarked markers) = false := by
  rw [Bool.eq_false_iff]
  intro marked
  obtain ⟨front, name, later, rfl, known, -⟩ := (marked_iff markers tokens).mp marked
  have stays := undropped (.identifier name) (by simp)
  simp [isDroppedWord, Token.name?, inside name known] at stays

/-- The name of a type in canonical form is in canonical form: it has the same name again, nothing in it
is a word about null or a qualifier, and from there on nothing changes. -/
theorem ofText_name (text : Text) :
    let type := ofText text
    let again := ofText type.name
    again.name = type.name ∧ again.nullable = false ∧ again.nonnull = false ∧
      (∀ token ∈ lex type.name, isDroppedWord token = false) ∧ ofText again.name = again := by
  intro type again
  have canonical := canonical_name text
  have undropped := canonical.undropped
  have same : again.name = type.name := by
    have kept := keep_canonical 0 0 none none _ canonical
    have written : type.name.isEmpty = false := List.isEmpty_eq_false_iff.mpr (name_ne_nil text)
    have written' : render (lex type.name) = type.name := render_lex_name text
    change (let name := render (keep none (place 0 0 none (lex type.name)))
      if name.isEmpty then "id".toList else name) = type.name
    rw [kept, written']
    simp [written]
  refine ⟨same, ?_, ?_, undropped, by rw [same]⟩
  · exact any_marked_undropped _ (by decide) _ undropped
  · exact any_marked_undropped _ (by decide) _ undropped

end Reread

end NativeType

end HeaderBindings
