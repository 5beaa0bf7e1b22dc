import Lox.Proofs.Grammar.Reading
import Lox.Proofs.Token.Visible

/-!
# How a text begins

What is left of a text when blanks are stripped off begins as the text does behind the blanks in
front of it. If nothing is reported on the text, then these blanks are some that the scanner passes
over, and what follows them is where the first piece begins that is no blank: a slash there begins
a comment, or is the first token.

## Main results

* `Scan.comment_or_slash`: a text that begins with a slash begins with a comment, or with the token.
-/

namespace Lox

namespace Piece

/-- A slash that begins no comment is a token. -/
theorem next_slash {cs : List Char} (h : ∀ c ∈ cs.head?, c ≠ '/' ∧ c ≠ '*') :
    next '/' cs = (token .slash ['/'] .nil, cs) := by
  have hcomment : cs.head? ≠ some '/' := fun hc => (h '/' hc).1 rfl
  have hblock : cs.head? ≠ some '*' := fun hc => (h '*' hc).2 rfl
  have hblank : isBlank '/' = false := rfl
  have hdigit : isDigit '/' = false := rfl
  have hletter : isLetter '/' = false := rfl
  have hoperator : operator? ('/' :: cs) = some (['/'], .slash) := by
    simp [operator?, Kind.operators, List.isPrefixOf]
  unfold next
  simp [hcomment, hblock, hblank, hdigit, hletter, hoperator]

/-- Behind blanks on which nothing is reported come the words of what follows them. -/
theorem exists_behind_blanks {front cs : List Char} (hfront : ∀ c ∈ front, Blank.isBlank c = true)
    {line : Int} (h : reportsFrom line (split (front ++ cs)) = []) :
    ∃ line', wordsFrom line (split (front ++ cs)) = wordsFrom line' (split cs) := by
  induction front generalizing line with
  | nil => exact ⟨line, rfl⟩
  | cons c front ih =>
    obtain ⟨hc, hfront⟩ := List.forall_mem_cons.mp hfront
    rw [List.cons_append, split_cons] at h ⊢
    obtain hnext | hnext := next_of_isBlank hc (front ++ cs)
    · rw [hnext] at h ⊢
      exact ih hfront h
    · rw [hnext] at h
      cases h

end Piece

/-- A text that begins with a slash, and that nothing is reported on by the scanner, begins with a
comment, unless the slash is its first token. -/
theorem Scan.comment_or_slash {source : String} {rest : List Char}
    (hreports : (ofText source).reports = []) (h : Blank.strip source.toList = '/' :: rest) :
    (∃ c ∈ rest.head?, c = '/' ∨ c = '*') ∨ StartsIn [.slash] (words source) := by
  obtain ⟨front, behind, hsource, hfront, hbehind⟩ := Blank.exists_around_strip source.toList
  rw [h, List.append_assoc, List.cons_append] at hsource
  by_cases hcomment : ∃ c ∈ rest.head?, c = '/' ∨ c = '*'
  · exact .inl hcomment
  · refine .inr ?_
    have hnext : Piece.next '/' (rest ++ behind) = (.token .slash ['/'] .nil, rest ++ behind) := by
      refine Piece.next_slash fun c hc => ?_
      cases rest with
      | nil =>
        have hblank : Blank.isBlank c = true := hbehind c (List.mem_of_mem_head? hc)
        constructor <;> rintro rfl <;> exact absurd hblank (by decide)
      | cons d rest =>
        obtain rfl : d = c := Option.some.inj hc
        exact not_or.mp fun hd => hcomment ⟨d, rfl, hd⟩
    have hclean : Piece.reportsFrom 1 (Piece.split (front ++ '/' :: (rest ++ behind))) = [] :=
      hsource ▸ hreports
    obtain ⟨line, hwords⟩ := Piece.exists_behind_blanks hfront hclean
    rw [words, hsource, hwords, Piece.split_cons, hnext]
    exact List.mem_singleton_self _

end Lox
