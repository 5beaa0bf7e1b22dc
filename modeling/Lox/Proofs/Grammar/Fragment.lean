import Lox.Proofs.Grammar.Composition
import Lox.Proofs.Grammar.Omission
import Lox.Proofs.Token.Partition

/-!
# Expressions as statements

There are two ways to read a text: as an expression that nothing follows, and as a list of
declarations. With a semicolon on a line of its own behind it, a text is an expression statement
and nothing else just if it is an expression, and then the expression is the same.

The semicolon cannot make up for what the text lacks. It stands on a line of its own, so it is no
part of a line comment, and a string or a block comment that the text leaves open is still open
behind it. It ends one statement, so there is no other one in front of it. Without it, an expression
is no program: the semicolon is missed at the end of the text.

## Main results

* `Scan.reports_append_eq_nil_iff`: what is left open in a text stays open in front of more text.
* `Fragment.expression_iff_statement`: a text is an expression just if it is one as a statement.
* `Program.ofText_of_fragment`: an expression without a semicolon as a program.
-/

namespace Lox

/-! ### What is left open -/

namespace Piece

section Open

variable {cs behind : List Char} (hquote : '"' ∉ behind) (hstar : '*' ∉ behind)

include hquote hstar

/-- A string or a comment that a text ends in goes on behind the text. -/
theorem isOpen_next_append {c : Char} (h : (next c cs).1.isOpen = true) :
    (next c (cs ++ '\n' :: behind)).1.isOpen = true := by
  have hfits := fits_next c cs
  have happend := append_next c cs
  generalize next c cs = found at h hfits happend
  obtain ⟨p, rest⟩ := found
  cases hfits with
  | @openComment t hc =>
    obtain rfl : t = c :: cs := (List.append_nil t).symm.trans happend
    have hlonger : Fits EndsLine (.openComment (c :: (cs ++ '\n' :: behind))) [] :=
      .openComment (hc.append hstar)
    rw [hlonger.next_eq (List.append_nil _)]
    rfl
  | @openString body hbody =>
    obtain ⟨rfl, rfl⟩ := List.cons.inj ((List.append_nil _).symm.trans happend)
    have hlonger : Fits EndsLine (.openString ('"' :: (body ++ '\n' :: behind))) [] :=
      .openString (by simp [hbody, hquote])
    rw [hlonger.next_eq (List.append_nil _)]
    rfl
  | _ => cases h

/-- So nothing is open in a text if nothing is in what it begins. -/
theorem isOpen_of_append (h : ∀ p ∈ split (cs ++ '\n' :: behind), p.isOpen = false) :
    ∀ p ∈ split cs, p.isOpen = false := by
  induction cs using split_induction with
  | nil => exact List.forall_mem_nil _
  | cons c cs ih =>
    rw [List.cons_append, split_cons] at h
    obtain ⟨hfirst, hrest⟩ := List.forall_mem_cons.mp h
    have hclosed : (next c cs).1.isOpen = false := by
      by_contra hopen
      have hlonger := isOpen_next_append hquote hstar (Bool.not_eq_false _ |>.mp hopen)
      exact absurd (hlonger.symm.trans hfirst) (by decide)
    rw [next_append hclosed] at hrest
    rw [split_cons]
    exact List.forall_mem_cons.mpr ⟨hclosed, ih hrest⟩

end Open

end Piece

/-- A string or a comment that a text leaves open is reported in front of more text as well, if that
has no quote and no star in it. So nothing is reported on both together just if nothing is on
either. -/
theorem Scan.reports_append_eq_nil_iff {p q : String} (hquote : '"' ∉ q.toList)
    (hstar : '*' ∉ q.toList) :
    (ofText (p ++ "\n" ++ q)).reports = [] ↔ (ofText p).reports = [] ∧ (ofText q).reports = [] := by
  constructor
  · intro h
    have htext : (p ++ "\n" ++ q).toList = p.toList ++ '\n' :: q.toList := by
      simp [String.toList_append]
    have hwhole := isOpen_of_reports h
    rw [htext] at hwhole
    have hclosed := Piece.isOpen_of_append hquote hstar hwhole
    rw [reports_append_of_closed q hclosed] at h
    obtain ⟨hp, hq⟩ := List.append_eq_nil_iff.mp h
    exact ⟨hp, List.map_eq_nil_iff.mp hq⟩
  · rintro ⟨hp, hq⟩
    rw [reports_append q hp, hq]
    rfl

/-! ### Expressions and statements -/

/-- An expression statement on its own is spelled by the expression and a semicolon. -/
theorem Statement.Spells.ended {e : Node} {us : List Token}
    (h : Spells .declarations [.expression e] us) : Ended .semicolon e us := by
  cases h with
  | cons h hnone =>
    cases hnone
    rw [List.append_nil]
    cases h with
    | declared _ h => cases h
    | statement h =>
      generalize hns : [Node.expression e] = ns at h
      cases h with
      | expression h =>
        cases hns
        exact h
      | @forLoop _ _ _ initializer _ increment _ _ _ _ _ _ _ _ _ _ _ =>
        cases initializer <;> cases hns
      | _ => cases hns

/-- A phrase that is an expression is read as such, and nothing is reported. -/
theorem Fragment.ofText_of_spells {text : String} {e : Node}
    (hscan : (Scan.ofText text).reports = [])
    (h : Expression.Spells .assignment [e] (Scan.words text)) : ofText text = ⟨some e, []⟩ := by
  have hending : Kind.endOfInput ∉ Expression.Symbol.assignment.continuing := by decide
  have hread : Parse.expression.Reads (Scan.words text ++ [Scan.ending text]) e [Scan.ending text] :=
    h.reads hending
  have honly : Parse.onlyExpression.Reads (Scan.ofText text).tokens e [Scan.ending text] := by
    rw [Scan.tokens_ofText]
    exact Parse.reads_bind.mpr ⟨e, _, hread, Parse.reads_check_bind.mpr <| .inl
      ⟨_, [], rfl, List.mem_singleton.mpr rfl, Parse.reads_pure.mpr ⟨rfl, rfl⟩⟩⟩
  rw [ofText, ofScan, honly, Scan.diagnostics, hscan]
  rfl

/-- A text is an expression just if it is an expression statement with a semicolon on a line of its
own behind it, and nothing else. Nothing is reported in one case just if nothing is in the
other. -/
theorem Fragment.expression_iff_statement (text : String) (e : Node) :
    ((ofText text).expression = some e ∧ (ofText text).diagnostics = []) ↔
      (Program.ofText (text ++ "\n" ++ ";")).statements = [.expression e] ∧
        (Program.ofText (text ++ "\n" ++ ";")).diagnostics = [] := by
  constructor
  · rintro ⟨he, hnone⟩
    obtain ⟨hscan, hspells⟩ := spells_of_diagnostics he hnone
    obtain ⟨hreports, t, ht, hwords⟩ := Scan.ended hscan
    have hstatement : Statement.Spells .declarations [.expression e] (Scan.words text ++ [t]) := by
      rw [← List.append_nil (_ ++ [t])]
      exact .cons (.statement (.expression ⟨_, t, rfl, ht, hspells⟩)) .nil
    rw [← hwords] at hstatement
    rw [Program.ofText_eq hreports (Program.reads_of_spells hstatement)]
    exact ⟨rfl, rfl⟩
  · rintro ⟨he, hnone⟩
    obtain ⟨hreports, hspells⟩ := Program.spells_of_diagnostics hnone
    obtain ⟨hscan, -⟩ :=
      (Scan.reports_append_eq_nil_iff (by decide) (by decide)).mp hreports
    obtain ⟨-, t, -, hwords⟩ := Scan.ended hscan
    rw [he] at hspells
    obtain ⟨vs, t', hsplit, -, hexpression⟩ := hspells.ended
    obtain ⟨rfl, -⟩ := List.append_inj' (hwords.symm.trans hsplit) rfl
    rw [ofText_of_spells hscan hexpression]
    exact ⟨rfl, rfl⟩

/-- As a program an expression is given up, since the semicolon of a statement is missing at the end
of the text, which is the one report on it. -/
theorem Program.ofText_of_fragment {text : String} {n : Node}
    (hn : (Fragment.ofText text).expression = some n)
    (hclean : (Fragment.ofText text).diagnostics = []) :
    ofText text = ⟨[], [.ofSyntax ⟨Scan.ending text, .expressionEnd⟩]⟩ := by
  obtain ⟨hreports, hspells⟩ := Fragment.spells_of_diagnostics hn hclean
  have hunended : Statement.Unended .expressionEnd Statement.goingOn (Scan.words text) :=
    .expression .nil hspells
  have hprogram : Parse.program (Scan.ofText text).tokens =
      .done [] [⟨Scan.ending text, .expressionEnd⟩] [Scan.ending text] := by
    have hending : Kind.endOfInput ∉ Statement.goingOn := by decide
    have hresume : resume? [Scan.ending text] = some [Scan.ending text] := rfl
    have hcloser : Kind.endOfInput ∈ [Kind.endOfInput] := List.mem_singleton_self _
    have hclosers : [Kind.endOfInput] ⊆ [.rightBrace, .endOfInput] := List.subset_cons_self ..
    rw [Scan.tokens_ofText]
    exact hunended.declarations_eq hcloser hclosers hending ⟨_, List.mem_singleton_self _, rfl⟩
      hresume
  exact ofText_eq hreports hprogram

end Lox
