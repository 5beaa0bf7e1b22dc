import Lox.Proofs.Token.Partition

/-!
# Lines are counted exactly

The scanner keeps one line number and moves it on piece by piece. Here the pieces are given with
the text in front of them, and the lines are counted in that text: a token has the line on which its
lexeme ends, a stray character the line on which it stands, and what is left open is reported on the
last line of the text. So the lines of tokens never decrease, nor do those of reports.

## Main definitions

* `Piece.placed`: pieces with the text in front of each.
* `Piece.tokenAt?`, `Piece.reportAt?`: the token and the report that a piece at its place calls for.

## Main results

* `Piece.tokensFrom_pairwise`, `Piece.reportsFrom_pairwise`: lines never decrease.
* `Scan.lines_exact`: the lines of a scan are those counted in its text.
-/

namespace Lox

namespace Piece

/-! ### Lines on the way -/

section Bounds

variable {line : Int} {ps : List Piece}

theorem le_lineBehind (line : Int) (p : Piece) : line ≤ p.lineBehind line := by
  rw [lineBehind]
  omega

/-- Tokens stand on the lines of the pieces, and the end of input on the last of them. -/
theorem line_of_mem_tokensFrom {t : Token} (h : t ∈ tokensFrom line ps) :
    line ≤ t.line ∧ t.line ≤ line + newlines (ps.flatMap text) := by
  induction ps generalizing line with
  | nil =>
    obtain rfl := List.mem_singleton.mp h
    exact ⟨Int.le_refl _, Int.le_add_of_nonneg_right (Int.natCast_nonneg _)⟩
  | cons p ps ih =>
    have hfirst := le_lineBehind line p
    have hrest (ht : t ∈ tokensFrom (p.lineBehind line) ps) :
        line ≤ t.line ∧ t.line ≤ line + newlines ((p :: ps).flatMap text) := by
      have hlines := ih ht
      rw [lineBehind_add] at hlines
      exact ⟨Int.le_trans hfirst hlines.1, hlines.2⟩
    cases p with
    | token kind lexeme literal =>
      obtain rfl | h := List.mem_cons.mp h
      · rw [← lineBehind_add]
        exact ⟨hfirst, Int.le_add_of_nonneg_right (Int.natCast_nonneg _)⟩
      · exact hrest h
    | _ => exact hrest h

theorem line_of_mem_reportsFrom {r : LexicalReport} (h : r ∈ reportsFrom line ps) :
    line ≤ r.line ∧ r.line ≤ line + newlines (ps.flatMap text) := by
  induction ps generalizing line with
  | nil => cases h
  | cons p ps ih =>
    have hfirst := le_lineBehind line p
    have hlast : p.lineBehind line ≤ line + newlines ((p :: ps).flatMap text) := by
      rw [← lineBehind_add]
      exact Int.le_add_of_nonneg_right (Int.natCast_nonneg _)
    have hrest (hr : r ∈ reportsFrom (p.lineBehind line) ps) :
        line ≤ r.line ∧ r.line ≤ line + newlines ((p :: ps).flatMap text) := by
      have hlines := ih hr
      rw [lineBehind_add] at hlines
      exact ⟨Int.le_trans hfirst hlines.1, hlines.2⟩
    cases p with
    | stray c =>
      obtain rfl | h := List.mem_cons.mp h
      · exact ⟨Int.le_refl _, Int.le_trans hfirst hlast⟩
      · exact hrest h
    | openString cs | openComment cs =>
      obtain rfl | h := List.mem_cons.mp h
      · exact ⟨hfirst, hlast⟩
      · exact hrest h
    | _ => exact hrest h

/-- The lines of tokens never decrease. -/
theorem tokensFrom_pairwise (line : Int) (ps : List Piece) :
    (tokensFrom line ps).Pairwise fun t t' => t.line ≤ t'.line := by
  induction ps generalizing line with
  | nil => exact List.pairwise_singleton _ _
  | cons p ps ih =>
    cases p with
    | token => exact List.pairwise_cons.mpr ⟨fun t ht => (line_of_mem_tokensFrom ht).1, ih _⟩
    | _ => exact ih _

/-- The lines of reports never decrease. -/
theorem reportsFrom_pairwise (line : Int) (ps : List Piece) :
    (reportsFrom line ps).Pairwise fun r r' => r.line ≤ r'.line := by
  induction ps generalizing line with
  | nil => exact List.Pairwise.nil
  | cons p ps ih =>
    cases p with
    | stray c =>
      refine List.pairwise_cons.mpr ⟨fun r hr => ?_, ih _⟩
      exact Int.le_trans (le_lineBehind line (stray c)) (line_of_mem_reportsFrom hr).1
    | openString | openComment =>
      exact List.pairwise_cons.mpr ⟨fun r hr => (line_of_mem_reportsFrom hr).1, ih _⟩
    | _ => exact ih _

end Bounds

/-! ### Places -/

/-- Pieces, each with the text in front of it, if the text `before` stands in front of them all. -/
def placed : List Char → List Piece → List (List Char × Piece)
  | _, [] => []
  | before, p :: ps => (before, p) :: placed (before ++ p.text) ps

/-- The token at a place. Its line is counted up to the end of its lexeme. -/
def tokenAt? : List Char × Piece → Option Token
  | (before, token kind lexeme literal) =>
    some ⟨kind, String.ofList lexeme, literal, 1 + newlines (before ++ lexeme)⟩
  | _ => none

/-- The report at a place. The line of a stray character is counted up to it, that of what is left
open up to the end of the whole text. -/
def reportAt? (source : List Char) : List Char × Piece → Option LexicalReport
  | (before, stray c) => some ⟨1 + newlines before, .unexpectedCharacter c⟩
  | (_, openString _) => some ⟨1 + newlines source, .unterminatedString⟩
  | (_, openComment _) => some ⟨1 + newlines source, .unclosedComment⟩
  | _ => none

theorem lineBehind_placed (before : List Char) (p : Piece) :
    p.lineBehind (1 + newlines before) = 1 + newlines (before ++ p.text) := by
  rw [lineBehind, newlines_append]
  omega

/-- What is placed behind a text is part of the text that it is a cut of. -/
theorem prefix_of_mem_placed {stops : Char → Prop} {before behind : List Char} {ps : List Piece}
    (hcut : Cut stops behind ps) {place : List Char × Piece} (h : place ∈ placed before ps) :
    place.1 ++ place.2.text <+: before ++ behind := by
  induction hcut generalizing before with
  | nil => cases h
  | @cons p behind ps _ _ ih =>
    obtain rfl | h := List.mem_cons.mp h
    · exact ⟨behind, by simp⟩
    · rw [← List.append_assoc]
      exact ih h

theorem wordsFrom_eq_placed (before : List Char) (ps : List Piece) :
    wordsFrom (1 + newlines before) ps = (placed before ps).filterMap tokenAt? := by
  induction ps generalizing before with
  | nil => rfl
  | cons p ps ih =>
    cases p <;>
      simp only [wordsFrom, placed, List.filterMap_cons, tokenAt?, lineBehind_placed, ih, text]

theorem reportsFrom_eq_placed {stops : Char → Prop} {behind : List Char} {ps : List Piece}
    (hcut : Cut stops behind ps) (before : List Char) :
    reportsFrom (1 + newlines before) ps =
      (placed before ps).filterMap (reportAt? (before ++ behind)) := by
  induction hcut generalizing before with
  | nil => rfl
  | @cons p behind ps hfits _ ih =>
    have hrest := ih (before ++ p.text)
    rw [List.append_assoc] at hrest
    cases hfits with
    -- nothing stands behind what is left open
    | openComment | openString =>
      simp only [reportsFrom, placed, List.filterMap_cons, reportAt?, lineBehind_placed, hrest,
        List.append_nil]
    | _ =>
      simp only [reportsFrom, placed, List.filterMap_cons, reportAt?, lineBehind_placed, hrest]

end Piece

namespace Scan

/-- The lines of a scan are those counted in its text, and never decrease: each token has the line
on which its lexeme ends, and the end of input the last one; each stray character is reported on its
own line, and what is left open on the last one. -/
theorem lines_exact (source : String) :
    ∃ ps, Piece.Cut Piece.EndsLine source.toList ps ∧
      (∀ place ∈ Piece.placed [] ps, place.1 ++ place.2.text <+: source.toList) ∧
      (ofText source).tokens = (Piece.placed [] ps).filterMap Piece.tokenAt? ++
        [⟨.endOfInput, "", .nil, 1 + Piece.newlines source.toList⟩] ∧
      (ofText source).reports =
        (Piece.placed [] ps).filterMap (Piece.reportAt? source.toList) ∧
      (ofText source).tokens.Pairwise (fun t t' => t.line ≤ t'.line) ∧
      (ofText source).reports.Pairwise (fun r r' => r.line ≤ r'.line) := by
  have hcut := Piece.cut_split source.toList
  refine ⟨Piece.split source.toList, hcut, fun place => Piece.prefix_of_mem_placed hcut, ?_, ?_,
    Piece.tokensFrom_pairwise 1 _, Piece.reportsFrom_pairwise 1 _⟩
  · rw [tokens_ofText]
    exact congrArg (· ++ [ending source]) (Piece.wordsFrom_eq_placed [] _)
  · exact Piece.reportsFrom_eq_placed hcut []

end Scan

end Lox
