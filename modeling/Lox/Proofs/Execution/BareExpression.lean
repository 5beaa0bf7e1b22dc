import Lox.Proofs.Execution.Dialogue
import Lox.Proofs.Grammar.Fragment

/-!
# Expressions at the prompt

Whether an entry is taken for a program is decided by its last character, before it is scanned. An
expression has no semicolon and no brace among its tokens, so none of its tokens can end like that:
strings end in a quote, and block comments in a slash. Only a line comment can. Behind such a
comment an expression is taken for a program, and rejected, since the semicolon of a statement is
missing; otherwise it is evaluated, and nothing is reported but a runtime error.

## Main definitions

* `Session.EndsInComment`: an entry with a line comment at its end that could end a statement.

## Main results

* `Session.endsStatement_iff`: an expression is taken for a program just behind such a comment.
* `Session.enter_bare_expression`: what comes of an expression that is entered.
-/

namespace Lox

/-! ### Pieces that a statement could end in -/

/-- A character that a statement ends in. -/
def IsClosing (c : Char) : Prop := c = ';' ∨ c = '\x7d'

theorem kind_of_mem_operators : ∀ entry ∈ Kind.operators, ';' ∈ entry.1 ∨ '\x7d' ∈ entry.1 →
    entry.2 = .semicolon ∨ entry.2 = .rightBrace := by decide

/-- A token that a statement could end in is a semicolon or a brace. -/
theorem Lexeme.kind_of_closing {w : List Char} {kind : Kind} {literal : Literal} {c : Char}
    (h : Lexeme w kind literal) (hlast : (Blank.seen w).getLast? = some c) (hc : IsClosing c) :
    kind = .semicolon ∨ kind = .rightBrace := by
  have hmem := (Blank.mem_seen_iff.mp (List.mem_of_getLast? hlast)).1
  have hnameful : (Piece.isLetter c || Piece.isDigit c) = false := by
    obtain rfl | rfl := hc <;> decide
  cases h with
  | operator hentry =>
    refine kind_of_mem_operators _ hentry ?_
    obtain rfl | rfl := hc
    · exact .inl hmem
    · exact .inr hmem
  | @string body hbody =>
    have hquote : ('"' :: (body ++ ['"'])).getLast? = some '"' := by simp [List.getLast?_cons]
    rw [Blank.getLast?_seen hquote (by decide)] at hlast
    obtain rfl := Option.some.inj hlast
    exact absurd hc (by simp [IsClosing])
  | number hdigits =>
    obtain hdigit | rfl := hdigits.isDigit_or_point c hmem
    · exact absurd (Bool.or_eq_false_iff.mp hnameful).2 (by simp [hdigit])
    · exact absurd hc (by simp [IsClosing])
  | keyword hname _ | identifier hname _ =>
    exact absurd (hname.isNameful c hmem) (Bool.eq_false_iff.mp hnameful)

namespace Piece

/-- The last character that can be seen stands in one of the pieces, and there are only blanks in
those behind it. -/
theorem exists_last_seen {ps : List Piece} {c : Char}
    (h : (Blank.seen (ps.flatMap text)).getLast? = some c) :
    ∃ front p gap, ps = front ++ p :: gap ∧
      (∀ q ∈ gap, ∀ b ∈ q.text, Blank.isBlank b = true) ∧
      (Blank.seen p.text).getLast? = some c := by
  induction ps with
  | nil => cases h
  | cons p ps ih =>
    rw [List.flatMap_cons, Blank.seen_append, List.getLast?_append] at h
    cases hrest : (Blank.seen (ps.flatMap text)).getLast? with
    | none =>
      rw [hrest, Option.none_or] at h
      have hblank := Blank.seen_eq_nil_iff.mp (List.getLast?_eq_none_iff.mp hrest)
      refine ⟨[], p, ps, rfl, fun q hq b hb => hblank b ?_, h⟩
      exact List.mem_flatMap.mpr ⟨q, hq, hb⟩
    | some d =>
      rw [hrest, Option.some_or] at h
      obtain ⟨front, q, gap, rfl, hgap, hlast⟩ := ih (hrest.trans h)
      exact ⟨p :: front, q, gap, rfl, hgap, hlast⟩

/-- A piece that nothing is reported on, and that a statement could end in, is a line comment or a
token that ends statements. -/
theorem Fits.cases_of_closing {stops : Char → Prop} {p : Piece} {behind : List Char} {c : Char}
    (h : Fits stops p behind) (hclean : p.problem? = none)
    (hlast : (Blank.seen p.text).getLast? = some c) (hc : IsClosing c) :
    (∃ body, p = .lineComment body) ∨ ∃ kind lexeme literal, p = .token kind lexeme literal ∧
      (kind = .semicolon ∨ kind = .rightBrace) := by
  cases h with
  | @blank b _ hb =>
    obtain rfl := List.mem_singleton.mp (Blank.mem_seen_iff.mp (List.mem_of_getLast? hlast)).1
    obtain rfl | rfl := hc <;> cases hb
  | lineComment => exact .inl ⟨_, rfl⟩
  | blockComment hclosed =>
    obtain ⟨body, rfl, hbody⟩ := hclosed
    have hslash : ('/' :: '*' :: body).getLast? = some '/' := by
      simp [List.getLast?_cons, Comment.getLast?_of_endsAtZero hbody Int.one_pos]
    rw [text, Blank.getLast?_seen hslash (by decide)] at hlast
    obtain rfl := Option.some.inj hlast
    exact absurd hc (by simp [IsClosing])
  | token _ hlongest =>
    exact .inr ⟨_, _, _, rfl, hlongest.isLexeme.kind_of_closing hlast hc⟩
  | _ => cases hclean

end Piece

namespace Session

/-- An entry that ends in a line comment, of which the last character that can be seen is one that a
statement ends in. -/
def EndsInComment (entry : String) : Prop :=
  ∃ front body gap, Piece.split entry.toList = front ++ .lineComment body :: gap ∧
    (∀ p ∈ gap, ∀ c ∈ p.text, Blank.isBlank c = true) ∧
    ∃ c ∈ (Blank.strip body).getLast?, IsClosing c

section Expression

variable {entry : String} {n : Node} (hn : (Fragment.ofText entry).expression = some n)
  (hclean : (Fragment.ofText entry).diagnostics = [])

/-- An entry that ends in such a comment is taken for a program. -/
theorem endsStatement_of_endsInComment (h : EndsInComment entry) : endsStatement entry = true := by
  obtain ⟨front, body, gap, hsplit, hgap, c, hc, hclosing⟩ := h
  have htext : entry.toList = front.flatMap Piece.text ++ (body ++ gap.flatMap Piece.text) := by
    rw [← Piece.flatMap_text_split entry.toList, hsplit, List.flatMap_append, List.flatMap_cons,
      Piece.text]
  have hgap : Blank.seen (gap.flatMap Piece.text) = [] := by
    refine Blank.seen_eq_nil_iff.mpr fun b hb => ?_
    obtain ⟨p, hp, hb⟩ := List.mem_flatMap.mp hb
    exact hgap p hp b hb
  have hlast : (Blank.strip entry.toList).getLast? = some c := by
    rw [Option.mem_def, Blank.getLast?_strip] at hc
    rw [Blank.getLast?_strip, htext, Blank.seen_append, Blank.seen_append, hgap, List.append_nil,
      List.getLast?_append, hc, Option.some_or]
  rw [endsStatement, hlast]
  simpa [IsClosing] using hclosing

include hn hclean

/-- An expression is taken for a program just if it ends in such a comment. -/
theorem endsStatement_iff : endsStatement entry = true ↔ EndsInComment entry := by
  refine ⟨fun hends => ?_, endsStatement_of_endsInComment⟩
  obtain ⟨hreports, hspells⟩ := Fragment.spells_of_diagnostics hn hclean
  -- the entry is not blank, so that it has a last character that can be seen
  obtain ⟨c, hlast, hclosing⟩ : ∃ c, (Blank.strip entry.toList).getLast? = some c ∧ IsClosing c := by
    by_contra hopen
    have hplain : ∀ c ∈ (Blank.strip entry.toList).getLast?, c ≠ ';' ∧ c ≠ '\x7d' :=
      fun c hc => not_or.mp fun hclosing => hopen ⟨c, hc, hclosing⟩
    exact absurd (hends.symm.trans (not_endsStatement hplain hn hclean)) (by decide)
  rw [Blank.getLast?_strip, ← Piece.flatMap_text_split entry.toList] at hlast
  obtain ⟨front, p, gap, hsplit, hgap, hlast⟩ := Piece.exists_last_seen hlast
  have hp : p ∈ Piece.split entry.toList := by
    rw [hsplit]
    exact List.mem_append_right front List.mem_cons_self
  obtain ⟨behind, hfits⟩ := Piece.exists_fits_of_mem_split hp
  obtain ⟨body, rfl⟩ | ⟨kind, lexeme, literal, rfl, hkind⟩ :=
    hfits.cases_of_closing (Piece.problem?_eq_none hreports p hp) hlast hclosing
  · rw [Piece.text, ← Blank.getLast?_strip] at hlast
    exact ⟨front, body, gap, hsplit, hgap, c, hlast, hclosing⟩
  · -- no token of an expression ends statements
    obtain ⟨t, ht, rfl⟩ := Piece.exists_mem_wordsFrom 1 hp
    obtain ⟨hsemicolon, hbrace⟩ := hspells.kind_ne t ht
    exact (hkind.elim hsemicolon hbrace).elim

end Expression

/-! ### Entries -/

/-- What is reported if the evaluation of an expression fails is a runtime error. -/
theorem reporter_guarded {α : Type} (r : Run α) (s : Session) :
    (endState (guarded (step r) s)).reporter.hadError = s.reporter.hadError ∧
      ∃ new, (endState (guarded (step r) s)).reporter.diagnostics = s.reporter.diagnostics ++ new ∧
        ∀ d ∈ new, ∃ message line, d = .runtime message line := by
  have hfailure (f : Failure) (s' : Session) (hs : s'.reporter = s.reporter) :
      (noteFailure f s').reporter.hadError = s.reporter.hadError ∧
        ∃ new, (noteFailure f s').reporter.diagnostics = s.reporter.diagnostics ++ new ∧
          ∀ d ∈ new, ∃ message line, d = .runtime message line := by
    rw [hadError_noteFailure, diagnostics_noteFailure, hs]
    refine ⟨rfl, [.ofFailure f], rfl, fun d hd => ?_⟩
    exact ⟨f.cause.message, f.line, List.mem_singleton.mp hd⟩
  simp only [guarded, step]
  cases r s.machine with
  | ok a m => exact ⟨rfl, [], (List.append_nil _).symm, List.forall_mem_nil _⟩
  | error e m =>
    cases e with
    | failed f => exact hfailure f _ rfl
    | overflow => exact hfailure _ _ rfl
    | _ => exact ⟨rfl, [], (List.append_nil _).symm, List.forall_mem_nil _⟩

/-- An expression is entered, with any comments and blanks in it and around it. Its last character
ends statements just if it ends in a line comment that does. Otherwise it is evaluated in the session,
its value is the answer, and nothing is reported but a runtime error. With such a comment it is a
program: it is not evaluated, and a missing semicolon is reported at the end of the entry. -/
theorem enter_bare_expression (host : Host) (s : Session) {entry : String} {n : Node}
    (hn : (Fragment.ofText entry).expression = some n)
    (hclean : (Fragment.ofText entry).diagnostics = []) :
    (endsStatement entry = true ↔ EndsInComment entry) ∧
      (¬ EndsInComment entry →
        enter host entry s = guarded (step (Run.evaluate host n)) s ∧
          (endState (enter host entry s)).reporter.hadError = s.reporter.hadError ∧
          ∃ new, (endState (enter host entry s)).reporter.diagnostics =
              s.reporter.diagnostics ++ new ∧
            ∀ d ∈ new, ∃ message line, d = .runtime message line) ∧
      (EndsInComment entry →
        enter host entry s = .ok none
          { s with
            reporter :=
              s.reporter.report (.static (1 + Piece.newlines entry.toList) " at end"
                "Expect ';' after expression.") }) := by
  refine ⟨endsStatement_iff hn hclean, fun hcomment => ?_, fun hcomment => ?_⟩
  · have hends : endsStatement entry = false :=
      Bool.eq_false_iff.mpr (mt (endsStatement_iff hn hclean).mp hcomment)
    rw [Prompt.enter_expression host hn hclean hends]
    exact ⟨rfl, reporter_guarded (Run.evaluate host n) s⟩
  · have hprogram : enter host entry = (do run host entry; return none) :=
      if_pos (endsStatement_of_endsInComment hcomment)
    have herror : (s.reporter.reportAll (Program.ofText entry).diagnostics).hadError = true := by
      rw [Program.ofText_of_fragment hn hclean]
      rfl
    have hrun := run_of_hadError host herror
    rw [Program.ofText_of_fragment hn hclean] at hrun
    rw [hprogram]
    change EStateM.bind (run host entry) (fun _ => pure none) s = _
    rw [EStateM.bind, hrun]
    rfl

namespace Remarked

def host : Host := ⟨[], 8, 8⟩

/-- A session in which nothing has been entered. -/
def session : Session := .fresh host .speaking .unset

/-- An expression with a remark behind it. -/
def entry : String := "1 // one;"

/-- An expression among comments. -/
def surrounded : String := "/* \x7d */ \"a;\" + \"b\" // one; two"

theorem exists_expression_entry : ∃ n, (Fragment.ofText entry).expression = some n :=
  Option.isSome_iff_exists.mp (by decide +kernel)

theorem diagnostics_entry : (Fragment.ofText entry).diagnostics = [] := by decide +kernel

/-- An expression with a remark behind it is an expression, and is not evaluated. -/
theorem not_enter_bare_expression :
    ¬ ∀ host s entry n, (Fragment.ofText entry).expression = some n →
      (Fragment.ofText entry).diagnostics = [] →
      enter host entry s = guarded (step (Run.evaluate host n)) s := by
  intro h
  obtain ⟨n, hn⟩ := exists_expression_entry
  have hone := h host session entry n hn diagnostics_entry
  have hreported : (endState (enter host entry session)).reporter.hadError = true := by
    decide +kernel
  rw [hone, (reporter_guarded (Run.evaluate host n) session).1] at hreported
  cases hreported

/-- Strings and other comments do not matter. -/
theorem enter_bare_expression_remarked :
    (∃ n, (Fragment.ofText surrounded).expression = some n ∧
        enter host surrounded session = guarded (step (Run.evaluate host n)) session) ∧
      enter host entry session = .ok none
        { session with
          reporter :=
            session.reporter.report (.static 1 " at end" "Expect ';' after expression.") } := by
  obtain ⟨n, hn⟩ : ∃ n, (Fragment.ofText surrounded).expression = some n :=
    Option.isSome_iff_exists.mp (by decide +kernel)
  have hclean : (Fragment.ofText surrounded).diagnostics = [] := by decide +kernel
  have hcomment : ¬ EndsInComment surrounded := by
    rw [← endsStatement_iff hn hclean]
    decide +kernel
  have hsurrounded := enter_bare_expression host session hn hclean
  obtain ⟨m, hm⟩ := exists_expression_entry
  have hentry := enter_bare_expression host session hm diagnostics_entry
  have hremark : EndsInComment entry :=
    (endsStatement_iff hm diagnostics_entry).mp (by decide +kernel)
  exact ⟨⟨n, hn, (hsurrounded.2.1 hcomment).1⟩, hentry.2.2 hremark⟩

end Remarked

end Session

end Lox
