import HeaderBindings.Proofs.Text.Trimming
import HeaderBindings.Proofs.Token.Seams

/-!
A text in pieces, and the pieces joined again after their white space has been trimmed. Joining them
with one blank keeps the tokens, if the text is cut where tokens end and the lexer skips whatever
white space the trimming takes away.
-/

namespace HeaderBindings

namespace Text

/-- The white space at both ends of a text is white space between tokens. -/
def SkippedEdges (text : Text) : Prop :=
  ∀ c ∈ text.takeWhile isBlank ++ text.reverse.takeWhile isBlank, Token.isGap c = true

instance (text : Text) : Decidable text.SkippedEdges := inferInstanceAs (Decidable (∀ _ ∈ _, _))

-- Trimming takes white space off both ends, and all of it is skipped between tokens.
theorem edges_of_skipped (text : Text) (skipped : text.SkippedEdges) :
    ∃ lead trail, text = lead ++ trim text ++ trail ∧ (∀ c ∈ lead, Token.isGap c = true) ∧
      ∀ c ∈ trail, Token.isGap c = true ∧ isBlank c = true := by
  refine ⟨text.takeWhile isBlank, ((trimStart text).reverse.takeWhile isBlank).reverse, ?_, ?_, ?_⟩
  · rw [List.append_assoc, trim, ← trimEnd_append, trimStart, List.takeWhile_append_dropWhile]
  · exact fun c member => skipped c (List.mem_append_left _ member)
  · intro c member
    rw [List.mem_reverse] at member
    have whole : text.reverse = (trimStart text).reverse ++ (text.takeWhile isBlank).reverse := by
      rw [← List.reverse_append, trimStart, List.takeWhile_append_dropWhile]
    have inner : c ∈ text.reverse.takeWhile isBlank := by
      rw [whole, List.takeWhile_append]
      split
      · next all =>
        exact List.mem_append_left _ ((List.takeWhile_prefix _).subset member)
      · exact member
    exact ⟨skipped c (List.mem_append_right _ inner), List.mem_takeWhile_imp inner⟩

/-- A piece that is written behind another one: trimmed, with a blank in front of it. -/
def spaced (piece : Text) : Text :=
  if (trim piece).isEmpty then [] else ' ' :: trim piece

/-- Pieces of a text that end where tokens of the text end. -/
def CutAtTokens : List Text → Prop
  | [] => True
  | piece :: later => later.flatten ∈ Token.stops (piece ++ later.flatten) ∧ CutAtTokens later

instance decidableCutAtTokens : (pieces : List Text) → Decidable (CutAtTokens pieces)
  | [] => inferInstanceAs (Decidable True)
  | piece :: later =>
    have := decidableCutAtTokens later
    inferInstanceAs
      (Decidable (later.flatten ∈ Token.stops (piece ++ later.flatten) ∧ CutAtTokens later))

theorem spaced_gap (pieces : List Text) :
    ∀ c ∈ (pieces.flatMap spaced).head?, Token.isGap c = true := by
  induction pieces with
  | nil => simp
  | cons piece pieces ih =>
    rw [List.flatMap_cons, spaced]
    split
    · exact ih
    · intro c head
      cases head
      rfl

theorem spaced_nothing (pieces : List Text) (nothing : pieces.flatten = []) :
    pieces.flatMap spaced = [] := by
  rw [List.flatMap_eq_nil_iff]
  intro piece member
  rw [List.flatten_eq_nil_iff.mp nothing piece member]
  rfl

end Text

namespace Token

open Text

-- The lexer stands before each of the blanks that it reads last.
theorem Reads.before_blanks {tokens : List Token} {front gap rest : Text}
    (blank : ∀ c ∈ gap, isGap c = true) (reads : Reads tokens (front ++ gap ++ rest) rest)
    (more : rest ≠ []) (feed : '\n' ∉ front ++ gap ++ rest) :
    Reads tokens (front ++ gap ++ rest) (gap ++ rest) := by
  induction gap generalizing front with
  | nil => simpa using reads
  | cons c gap ih =>
    have cut : front ++ c :: gap ++ rest = front ++ [c] ++ gap ++ rest := by simp
    have stand : Reads tokens (front ++ c :: (gap ++ rest)) (gap ++ rest) := by
      have inner := ih (fun d member => blank d (List.mem_cons_of_mem c member)) (cut ▸ reads)
        (cut ▸ feed)
      simpa using inner
    have feed' : '\n' ∉ gap ++ rest := fun member => feed (by simp_all)
    simpa using stand.before_blank (blank c List.mem_cons_self) (by simp [more]) feed'

/-- The tokens of a text are those of its pieces, trimmed and joined by blanks. -/
theorem lex_spaced (pieces : List Text) (cut : CutAtTokens pieces)
    (skipped : ∀ piece ∈ pieces, piece.SkippedEdges) (feed : '\n' ∉ pieces.flatten)
    (written : ∀ c ∈ pieces.flatten.getLast?, isBlank c = false) :
    lex (pieces.flatMap Text.spaced) = lex pieces.flatten := by
  induction pieces with
  | nil => rfl
  | cons piece later ih =>
    obtain ⟨stop, cuts⟩ := cut
    obtain ⟨lead, trail, whole, leading, trailing⟩ :=
      edges_of_skipped piece (skipped piece List.mem_cons_self)
    rw [List.flatMap_cons, List.flatten_cons] at *
    -- The blank in front of a piece is skipped, like the white space that is trimmed there.
    have front (rest : Text) : lex (Text.spaced piece ++ rest) = lex (lead ++ trim piece ++ rest) := by
      rw [List.append_assoc, lex_gap lead _ leading, Text.spaced]
      by_cases blank : trim piece = []
      · simp [blank]
      · simpa [blank] using lex_gap [' '] (trim piece ++ rest) (by simp [isGap])
    rw [front]
    by_cases nothing : later.flatten = []
    · -- The text ends with this piece, and not with white space.
      have last : trail = [] := by
        rw [nothing, List.append_nil, whole, List.getLast?_append] at written
        cases end? : trail.getLast? with
        | none => simpa using end?
        | some c =>
          have blank := (trailing c (List.mem_of_getLast? end?)).2
          simp [written c (by simp [end?])] at blank
      rw [spaced_nothing later nothing, nothing]
      rw [last, List.append_nil] at whole
      rw [← whole]
    · have ending : later.flatten.getLast? = (piece ++ later.flatten).getLast? := by
        rw [List.getLast?_append, Option.or_of_isSome (by simpa using nothing)]
      have after := ih cuts (fun other member => skipped other (List.mem_cons_of_mem piece member))
        (fun member => feed (List.mem_append_right _ member)) (ending ▸ written)
      obtain ⟨tokens, reads⟩ := (mem_stops_iff _ _).mp stop
      rw [lex_of_reads reads, ← after]
      rw [whole] at reads feed
      have stand := reads.before_blanks (fun c member => (trailing c member).1) nothing feed
      rw [List.append_assoc] at stand feed
      exact lex_of_reads (stand.before_gap (by simp [nothing]) feed (spaced_gap later))

end Token

end HeaderBindings
