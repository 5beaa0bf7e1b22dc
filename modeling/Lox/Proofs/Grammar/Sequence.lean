import Lox.Proofs.Grammar.Boundary
import Lox.Proofs.Grammar.Statement.Completeness

/-!
# Programs one behind the other

A program that is read without a report can be put in front of any other list of tokens: its
declarations are read as before, and what is behind them is read and reported as if it stood alone.
The two readings of the program differ in what they find behind its last token. That decides only
whether an open `if` gets an `else`, so that the other list must not begin with one.

## Main results

* `Parse.program_append`: a program read without a report in front of any other tokens.
-/

namespace Lox

namespace Parse

/-- The number of passes that a loop over declarations may make does not matter if it suffices. -/
theorem upTo_declaration {ts rest : List Token} {ns : List Node} {reports : List SyntaxReport}
    {e : Token} (h : Parse.program ts = .done ns reports (e :: rest)) {steps : Nat}
    (hsteps : ts.length ≤ steps) :
    upTo [.endOfInput] Parse.declaration steps ts = .done ns reports (e :: rest) := by
  have hloop : (upTo [.endOfInput] Parse.declaration (ts.length + 1)).Mirrors id
      (List.map (.relabel id)) ts.length false (upTo [.endOfInput] Parse.declaration steps) :=
    Mirrors.upTo .id (List.mem_singleton_self _) (Mirrors.declaration .id)
      (Mirrors.advances_declaration .id) (Nat.le_succ _) hsteps
  have hres : upTo [.endOfInput] Parse.declaration (ts.length + 1) (ts ++ []) =
      .done ns reports (e :: rest ++ []) := by
    rw [List.append_nil, List.append_nil]
    exact h
  have hdone := hloop.done_of_done Node.map_relabel_id (Nat.le_refl _) hres []
  rwa [List.append_nil, List.append_nil] at hdone

end Parse

namespace Statement

/-- Phrases are read by the loop over declarations in front of anything that does not begin with an
`else`, and the loop goes on behind them. -/
theorem SpellsLong.upTo_append {ss qs : List Node} {us rest back : List Token}
    {rs reports : List SyntaxReport} (h : SpellsLong .declarations ss rs us)
    (hrest : StartsOutside [.kwElse] rest)
    (hback : ∀ steps, rest.length ≤ steps →
      Parse.upTo [.endOfInput] Parse.declaration steps rest = .done qs reports back) :
    ∀ steps, (us ++ rest).length ≤ steps →
      Parse.upTo [.endOfInput] Parse.declaration steps (us ++ rest) =
        .done (ss ++ qs) (rs ++ reports) back := by
  induction ss generalizing us rs with
  | nil =>
    cases h
    exact hback
  | cons n ss ih =>
    cases h with
    | @cons _ _ rs rs' vs ws hn hss =>
      intro steps hsteps
      have hstarts : StartsIn declarationKinds vs := hn.opens
      have hopens : StartsOutside [.endOfInput] (vs ++ (ws ++ rest)) :=
        (hstarts.append _).outside (by decide)
      have hpos : 0 < vs.length := List.length_pos_iff.mpr hstarts.ne_nil
      simp only [List.length_append] at hsteps
      obtain ⟨steps, rfl⟩ : ∃ s, steps = s + 1 := ⟨steps - 1, by omega⟩
      have hread : Parse.declaration (vs ++ (ws ++ rest)) = .done (some n) rs (ws ++ rest) :=
        Parse.recovering_of_done (hn.completes n _ (ws ++ rest) rfl (by simp)
          (hss.startsOutside_declarations hrest))
      have hothers := ih hss steps (by rw [List.length_append]; omega)
      rw [List.append_assoc, List.append_assoc]
      exact Parse.Yields.upTo_entered hopens hread hothers

/-- Phrases without long lists add no reports. -/
theorem Spells.upTo_append {ss qs : List Node} {us rest back : List Token}
    {reports : List SyntaxReport} (h : Spells .declarations ss us)
    (hrest : StartsOutside [.kwElse] rest)
    (hback : ∀ steps, rest.length ≤ steps →
      Parse.upTo [.endOfInput] Parse.declaration steps rest = .done qs reports back) :
    ∀ steps, (us ++ rest).length ≤ steps →
      Parse.upTo [.endOfInput] Parse.declaration steps (us ++ rest) =
        .done (ss ++ qs) reports back :=
  h.long.upTo_append hrest hback

end Statement

namespace Parse

/-- A program that is read without a report does not disturb what follows it: in front of any
tokens that do not begin with an `else` its declarations are read as before, and the tokens behind
it give the declarations and the reports that they give alone. -/
theorem program_append {p q rest : List Token} {e : Token} {ss : List Node}
    (hp : ∀ t ∈ p, t.kind ≠ .endOfInput) (he : e.kind = .endOfInput)
    (hclean : Parse.program (p ++ [e]) = .done ss [] rest) (hq : ∀ t ∈ q.head?, t.kind ≠ .kwElse) :
    ∃ qs reports back, Parse.program (q ++ [e]) = .done qs reports back ∧
      Parse.program (p ++ q ++ [e]) = .done (ss ++ qs) reports back := by
  have hend (ts : List Token) : ∃ t ∈ ts ++ [e], t.kind = .endOfInput := ⟨e, by simp, he⟩
  have hspells : Statement.Spells .declarations ss p := by
    obtain ⟨us, hsplit, hspells, -⟩ := Statement.spells_of_reads hclean
    obtain ⟨_, _, e', back, hres, he', htaken⟩ := program_total (hend p)
    obtain rfl : rest = e' :: back := (Parsed.done.inj (hclean.symm.trans hres)).2.2
    have hbefore := htaken.beforeEnd_append he'
    rw [beforeEnd_append hp he, hsplit] at hbefore
    exact List.append_cancel_right hbefore ▸ hspells
  obtain ⟨qs, reports, e', back, hres, -, -⟩ := program_total (hend q)
  refine ⟨qs, reports, e' :: back, hres, ?_⟩
  have hrest : StartsOutside [.kwElse] (q ++ [e]) := by
    cases q with
    | nil => simp [he]
    | cons t q => simpa using hq t rfl
  rw [List.append_assoc]
  exact hspells.upTo_append hrest (fun _ => upTo_declaration hres) _ (Nat.le_succ _)

namespace Unfinished

/-- The tokens of `if (a) {}`, an `if` without an `else`. -/
def choice : List Token :=
  [⟨.kwIf, "if", .nil, 1⟩, ⟨.leftParen, "(", .nil, 1⟩, ⟨.identifier, "a", .nil, 1⟩,
    ⟨.rightParen, ")", .nil, 1⟩, ⟨.leftBrace, "\x7b", .nil, 1⟩, ⟨.rightBrace, "\x7d", .nil, 1⟩]

/-- The tokens of `) {}`, which begin with a syntax error. -/
def remainder : List Token :=
  [⟨.rightParen, ")", .nil, 2⟩, ⟨.leftBrace, "\x7b", .nil, 2⟩, ⟨.rightBrace, "\x7d", .nil, 2⟩]

/-- The end of input. -/
def ending : Token := ⟨.endOfInput, "", .nil, 2⟩

theorem program_append_unfinished :
    ∃ qs reports back, reports ≠ [] ∧ Parse.program (remainder ++ [ending]) = .done qs reports back ∧
      Parse.program (choice ++ remainder ++ [ending]) =
        .done (.branch (.reference ⟨.identifier, "a", .nil, 1⟩) (.block []) none :: qs) reports
          back := by
  have hclean : Parse.program (choice ++ [ending]) =
      .done [.branch (.reference ⟨.identifier, "a", .nil, 1⟩) (.block []) none] [] [ending] := rfl
  have hreported : (Parse.program (remainder ++ [ending])).reports ≠ [] := by decide +kernel
  obtain ⟨qs, reports, back, hres, happend⟩ := program_append (p := choice) (q := remainder)
    (by decide) rfl hclean (by decide)
  rw [hres] at hreported
  exact ⟨qs, reports, back, hreported, hres, happend⟩

end Unfinished

end Parse

end Lox
