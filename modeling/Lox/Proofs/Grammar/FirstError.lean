import Lox.Proofs.Grammar.Acceptance
import Lox.Proofs.Grammar.Viability
import Mathlib.Data.List.Nodup

/-!
# The first syntax error

A program is given up at the earliest token at which it cannot be continued. Whatever has been taken
in front of that token can be continued to a program, since a reader stays within the words of the
grammar. Nothing can be continued behind it, since a program with the same tokens up to there would
be read in the same way, but programs are read up to their end.

## Main definitions

* `Parse.FirstError`: the syntax error that interrupts the reading of a program first.

## Main results

* `Parse.first_error_earliest`: where the first syntax error is found.
-/

namespace Lox

open Grammar (IsStream)

namespace Parse

/-- Of the problems that are reported the first that interrupts the reading. -/
def firstRaised? (reports : List SyntaxReport) : Option SyntaxReport :=
  reports.find? (·.problem.isRaised)

theorem firstRaised?_eq_none {reports : List SyntaxReport} :
    firstRaised? reports = none ↔ Unraised reports := by
  simp [firstRaised?, Unraised]

theorem firstRaised?_append {noted others : List SyntaxReport} {report : SyntaxReport}
    (hnoted : Unraised noted) (hraised : report.problem.isRaised = true) :
    firstRaised? (noted ++ report :: others) = some report := by
  have hnone : noted.find? (·.problem.isRaised) = none := firstRaised?_eq_none.mpr hnoted
  rw [firstRaised?, List.find?_append, hnone, Option.none_or]
  exact List.find?_cons_of_pos hraised

/-- The first syntax error is the first report of a problem that interrupts the reading. It is found
in front of its token, behind the tokens `front`: that is where reading stops that does not go on
behind errors. -/
structure FirstError (ts front : List Token) (report : SyntaxReport) : Prop where
  reported : firstRaised? (program ts).reports = some report
  found : ∃ reports behind, ts = front ++ report.token :: behind ∧
    haltingProgram ts = .stopped (.rejected report) reports (report.token :: behind)

namespace FirstError

variable {ts front : List Token} {report : SyntaxReport}

/-- There is only one. -/
theorem unique {front' : List Token} {report' : SyntaxReport} (h : FirstError ts front report)
    (h' : FirstError ts front' report') : front = front' ∧ report = report' := by
  obtain ⟨reports, behind, hts, hres⟩ := h.found
  obtain ⟨reports', behind', hts', hres'⟩ := h'.found
  cases hres.symm.trans hres'
  exact ⟨List.append_cancel_right (hts.symm.trans hts'), rfl⟩

/-- What is in front of the first syntax error is the start of a program. -/
theorem viable (h : FirstError ts front report) : ∃ more, IsStream (front ++ more) := by
  obtain ⟨reports, behind, hts, hres⟩ := h.found
  have hwithin := Within.haltingProgram.answers ts
  rw [hres] at hwithin
  obtain ⟨-, -, -, us, hus, w, hw⟩ := hwithin
  obtain rfl : us = front := List.append_cancel_right (hus.symm.trans hts)
  let more := w.map fun kind => (⟨kind, "", .nil, 0⟩ : Token)
  have hmore : more.map Token.kind = w := by simp [more, Function.comp_def]
  refine ⟨more ++ [⟨.endOfInput, "", .nil, 0⟩], us ++ more, _, (List.append_assoc ..).symm, rfl, ?_⟩
  rwa [List.map_append, hmore]

/-- There is no program that starts with what is in front of the first syntax error and the token
that it was found at. -/
theorem not_viable (h : FirstError ts front report) (more : List Token) :
    ¬ IsStream (front ++ report.token :: more) := by
  intro hstream
  obtain ⟨reports, behind, rfl, hres⟩ := h.found
  obtain ⟨e, -, ns, noted, htakes⟩ := hstream.takes
  -- Up to the error the two lists have the same tokens.
  have hres' : haltingProgram (front ++ [report.token] ++ behind) =
      .stopped (.rejected report) reports (report.token :: [] ++ behind) := by simpa using hres
  have hstopped := (Mirrors.haltingProgram .id).stopped_of_stopped (Nat.le_refl _) hres' more
  rw [List.append_assoc, List.singleton_append, htakes] at hstopped
  cases hstopped

end FirstError

/-- Either nothing interrupts the reading, and what is up to the first end of input is a program, or
there is a first syntax error. -/
theorem isStream_or_firstError {ts : List Token} (hts : ∃ t ∈ ts, t.kind = .endOfInput) :
    (firstRaised? (program ts).reports = none ∧
      ∃ e behind, ts = beforeEnd ts ++ e :: behind ∧ IsStream (beforeEnd ts ++ [e])) ∨
    ∃ front report, FirstError ts front report := by
  have hwithin := Within.haltingProgram.answers ts
  obtain heq | ⟨report, reports, rest, hres, others, hothers⟩ := halts_program ts
  · obtain ⟨ns, reports, e, behind, hres, he, htaken⟩ := program_total hts
    have hsplit := htaken.beforeEnd_append he
    rw [heq, hres] at hwithin
    obtain ⟨hreports, us, hus, hprogram⟩ := hwithin
    obtain rfl : us = beforeEnd ts := List.append_cancel_right (hus.symm.trans hsplit)
    refine .inl ⟨?_, e, behind, hsplit, _, e, rfl, he, hprogram⟩
    rw [hres]
    exact firstRaised?_eq_none.mpr hreports
  · rw [hres] at hwithin
    obtain ⟨hraised, ⟨noted, rfl, hnoted⟩, ⟨behind, rfl⟩, front, rfl, -⟩ := hwithin
    refine .inr ⟨front, report, ?_, _, behind, rfl, hres⟩
    rw [← hothers, List.append_assoc, List.singleton_append]
    exact firstRaised?_append hnoted hraised

/-- Where no token occurs twice, the report alone says where the first syntax error is. -/
theorem FirstError.ofNodup {ts front behind : List Token} {report : SyntaxReport}
    (hts : ∃ t ∈ ts, t.kind = .endOfInput) (hnodup : ts.Nodup)
    (hreported : firstRaised? (program ts).reports = some report)
    (hsplit : ts = front ++ report.token :: behind) : FirstError ts front report := by
  have hfresh : report.token ∉ front ++ behind := by
    rw [hsplit, List.nodup_middle, List.nodup_cons] at hnodup
    exact hnodup.1
  rw [List.mem_append, not_or] at hfresh
  obtain ⟨hnone, -⟩ | ⟨front', report', hfirst⟩ := isStream_or_firstError hts
  · cases hreported.symm.trans hnone
  · obtain rfl : report' = report := Option.some.inj (hfirst.reported.symm.trans hreported)
    obtain ⟨-, behind', hsplit', -⟩ := hfirst.found
    obtain ⟨rfl, -, -⟩ := (List.append_cons_inj_of_notMem hfresh.1 hfresh.2).mp
      (hsplit.symm.trans hsplit')
    exact hfirst

/-- A list of tokens with an end of input is given up at the earliest token at which it cannot be
continued to a program: what is in front of the token at which the first syntax error is found is
the start of a program, but not so together with that token. If nothing interrupts the reading, the
tokens up to the first end of input are a program. -/
theorem first_error_earliest {ts : List Token} (hts : ∃ t ∈ ts, t.kind = .endOfInput) :
    (∀ report, firstRaised? (program ts).reports = some report →
      ∃ front, FirstError ts front report ∧ (∃ more, IsStream (front ++ more)) ∧
        ∀ more, ¬ IsStream (front ++ report.token :: more)) ∧
    (firstRaised? (program ts).reports = none →
      ∃ e behind, ts = beforeEnd ts ++ e :: behind ∧ IsStream (beforeEnd ts ++ [e])) := by
  obtain ⟨hnone, hstream⟩ | ⟨front, report, hfirst⟩ := isStream_or_firstError hts
  · rw [hnone]
    exact ⟨fun _ hreport => (by cases hreport), fun _ => hstream⟩
  · rw [hfirst.reported]
    refine ⟨fun _ hreport => ?_, fun hnone => (by cases hnone)⟩
    cases hreport
    exact ⟨front, hfirst, hfirst.viable, hfirst.not_viable⟩

/-- The tokens of `if ( a ) else`. -/
def branchless : List Token :=
  [⟨.kwIf, "if", .nil, 1⟩, ⟨.leftParen, "(", .nil, 1⟩, ⟨.identifier, "a", .nil, 1⟩,
    ⟨.rightParen, ")", .nil, 1⟩, ⟨.kwElse, "else", .nil, 1⟩, ⟨.endOfInput, "", .nil, 1⟩]

/-- Behind the condition a program goes on, but not with an `else`. -/
theorem first_error_earliest_branchless :
    (∃ more, IsStream (branchless.take 4 ++ more)) ∧
      ∀ more, ¬ IsStream (branchless.take 4 ++ ⟨.kwElse, "else", .nil, 1⟩ :: more) := by
  have hend : ∃ t ∈ branchless, t.kind = .endOfInput :=
    ⟨⟨.endOfInput, "", .nil, 1⟩, by simp [branchless], rfl⟩
  have hreported : firstRaised? (program branchless).reports =
      some ⟨⟨.kwElse, "else", .nil, 1⟩, .expression⟩ := by decide +kernel
  obtain ⟨front, hfirst, hviable, hnotViable⟩ := (first_error_earliest hend).1 _ hreported
  have hfound : FirstError branchless (branchless.take 4)
      ⟨⟨.kwElse, "else", .nil, 1⟩, .expression⟩ := ⟨hreported, _, _, rfl, rfl⟩
  rw [← (hfirst.unique hfound).1]
  exact ⟨hviable, hnotViable⟩

end Parse

end Lox
