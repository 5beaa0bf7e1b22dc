import Lox.Proofs.Grammar.Lookahead
import Lox.Proofs.Grammar.Reading

/-!
# The end of input

A list of tokens that has an end of input is read up to the first one, whatever the tokens are. No
pass of a loop over declarations stays where it is, unless it is in front of the end of input: what
has to be given up is given up together with its first token. What stands behind the end of input
is not looked at.

## Main definitions

* `Parse.Proceeds`: a pass of a loop over declarations takes a token or stands at the end of input.

## Main results

* `Parse.reaches_end`: programs are read up to the first end of input, pass by pass.
-/

namespace Lox

namespace Parse

/-- A pass of a loop over declarations comes to an end behind the tokens it has taken, of which
there is at least one and none is an end of input, or it stands in front of the end of input and
stays there. -/
def Proceeds (entry : Parse (Option Node)) (ts : List Token) : Prop :=
  ∃ o reports rest, entry ts = .done o reports rest ∧
    (TakenTo true ts rest ∨ rest = ts ∧ StartsIn [.endOfInput] ts)

/-- A token is given up with what cannot be read. -/
theorem Total.proceeds {p : Parse Node} {bound : Nat} (hp : p.Total bound true) {ts : List Token}
    (hts : ∃ t ∈ ts, t.kind = .endOfInput) (hlength : ts.length ≤ bound) :
    p.recovering.Proceeds ts := by
  obtain ⟨o, reports, rest, hres, htaken, hstrict⟩ := (hp ts hts hlength).recovering hts
  refine ⟨o, reports, rest, hres, ?_⟩
  cases ts with
  | nil => simp at hts
  | cons t ts =>
    by_cases ht : t.kind = .endOfInput
    · -- An end of input is not taken, so nothing is.
      obtain ⟨taken, hsplit, hne, -⟩ := htaken
      cases taken with
      | nil => exact .inr ⟨hsplit.symm, List.mem_singleton.mpr ht⟩
      | cons u taken =>
        obtain ⟨rfl, -⟩ := List.cons_eq_cons.mp hsplit
        exact absurd ht (hne _ (List.mem_cons_self ..))
    · exact .inl (hstrict rfl t ts rfl ht)

theorem proceeds_declaration {ts : List Token} (hts : ∃ t ∈ ts, t.kind = .endOfInput) :
    Parse.declaration.Proceeds ts :=
  Total.proceeds (p := strictDeclaration) Total.handedOn.declaration hts (Nat.le_refl _)

theorem proceeds_readers {bound : Nat} {ts : List Token} (hts : ∃ t ∈ ts, t.kind = .endOfInput)
    (hlength : ts.length ≤ bound) : (Statement.readers bound).declaration.Proceeds ts := by
  obtain ⟨⟨p, hp, htotal⟩, -⟩ := Total.handedOn.readers bound
  rw [hp]
  exact htotal.proceeds hts hlength

/-- A list of tokens with an end of input is read as some declarations up to the first end of
input, and what is read and reported would be the same with anything else behind that. In front of
any such list the passes of the loops over declarations, that of a program and those of its blocks,
come to an end and proceed; blocks are read with a bound for the tokens that are left. -/
theorem reaches_end {ts : List Token} (hts : ∃ t ∈ ts, t.kind = .endOfInput) :
    (∃ ns reports e behind, ts = beforeEnd ts ++ e :: behind ∧ e.kind = .endOfInput ∧
      Parse.program ts = .done ns reports (e :: behind) ∧
      ∀ behind', Parse.program (beforeEnd ts ++ e :: behind') = .done ns reports (e :: behind')) ∧
    Parse.declaration.Proceeds ts ∧
    ∀ bound, ts.length ≤ bound → (Statement.readers bound).declaration.Proceeds ts := by
  refine ⟨?_, proceeds_declaration hts, fun bound => proceeds_readers hts⟩
  obtain ⟨ns, reports, e, behind, hres, he, htaken⟩ := program_total hts
  have hsplit := htaken.beforeEnd_append he
  refine ⟨ns, reports, e, behind, hsplit, he, hres, ?_⟩
  rw [hsplit] at hres
  exact program_behind hres

/-- The tokens of `fun }`, with a keyword behind the end of input. -/
def straying : List Token :=
  [⟨.kwFun, "fun", .nil, 1⟩, ⟨.rightBrace, "\x7d", .nil, 1⟩, ⟨.endOfInput, "", .nil, 1⟩,
    ⟨.kwPrint, "print", .nil, 2⟩]

theorem reaches_end_straying :
    ∃ ns reports, reports ≠ [] ∧ Parse.program straying = .done ns reports (straying.drop 2) := by
  have hend : ∃ t ∈ straying, t.kind = .endOfInput :=
    ⟨⟨.endOfInput, "", .nil, 1⟩, by simp [straying], rfl⟩
  obtain ⟨ns, reports, e, behind, hsplit, -, hres, -⟩ := (reaches_end hend).1
  have hbehind : straying.drop 2 = e :: behind := by simpa [straying, beforeEnd] using hsplit
  have hreported : (Parse.program straying).reports ≠ [] := by decide +kernel
  rw [hres] at hreported
  exact ⟨ns, reports, hreported, hbehind ▸ hres⟩

end Parse

end Lox
