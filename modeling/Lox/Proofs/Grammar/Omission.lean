import Lox.Proofs.Grammar.Juxtaposition
import Lox.Proofs.Grammar.Nesting
import Lox.Proofs.Grammar.Resumption

/-!
# Forgotten semicolons

Where the semicolon of a statement or of a variable declaration is missing, an error is found at the
token behind it, unless that token goes on with the expression in front of it. If it does, the next
statement is an expression, the two expressions are one, and nothing is reported. If it does not, the
innermost declaration around the statement is given up, and so are some tokens behind it. Then
reading goes on in the same list of declarations, as if none of that were there.

So whether there is a second report depends on what is given up. If it is nothing but declarations
of that list, as in front of the end of input or of a `print` statement, there is none. But the token
at which the error is found is given up whatever it is, be it the brace that closes a block or the
`else` of a branch.

## Main definitions

* `Statement.Unended`: the tokens of a declaration in front of a missing semicolon.

## Main results

* `Statement.Unended.strictDeclaration_refuses`: where a missing semicolon is found.
* `Statement.Unended.juxtapose`: where it is not missed.
* `Parse.program_without_semicolon`: what is read and reported without a semicolon.
* `Parse.brace_given_up`: a block that is lost for a missing semicolon.
-/

namespace Lox

/-! ### What begins no expression -/

namespace Parse

variable {α β : Type} {us ts : List Token} {t : Token} {problem : SyntaxProblem}

/-- Behind the tokens `us` a reader stops at the token `t`, with one report, which is about it. -/
def Refuses (p : Parse α) (us : List Token) (t : Token) (problem : SyntaxProblem)
    (ts : List Token) : Prop :=
  p (us ++ t :: ts) = .stopped (.rejected ⟨t, problem⟩) [⟨t, problem⟩] (t :: ts)

theorem Refuses.bind {p : Parse α} (h : p.Refuses us t problem ts) (f : α → Parse β) :
    (p >>= f).Refuses us t problem ts :=
  bind_of_stopped f h

theorem Reads.bind_refuses {p : Parse α} {a : α} {vs : List Token} {f : α → Parse β}
    (h : p.Reads (us ++ (vs ++ t :: ts)) a (vs ++ t :: ts)) (hf : (f a).Refuses vs t problem ts) :
    (p >>= f).Refuses (us ++ vs) t problem ts := by
  rw [Refuses, List.append_assoc, h.bind]
  exact hf

theorem refuses_expect {kind : Kind} (ht : t.kind ≠ kind) :
    (expect kind problem).Refuses [] t problem ts :=
  expect_of_ne ht problem ts

end Parse

namespace Expression

variable {t : Token} {bound : Nat} {again : Entry → Parse Node} {ts : List Token}

theorem tier_refuses {operand : Parse Node} (h : operand.Refuses [] t .expression ts)
    (level : List Tier) : (tier bound operand level).Refuses [] t .expression ts := by
  induction level with
  | nil => exact h
  | cons level levels ih => exact ih.bind _

theorem unary_refuses (ht : t.kind ∉ openingKinds) :
    (unary bound again).Refuses [] t .expression ts := by
  have hprimary : (primary again).Refuses [] t .expression ts :=
    Parse.accept_bind_of_not_mem (fun h => ht (List.mem_append_right [.bang, .minus] h)) _ _
  have hcall : (call bound again).Refuses [] t .expression ts := hprimary.bind _
  refine (Parse.accept_bind_of_not_mem (fun h => ht ?_) _ _).trans hcall
  exact List.mem_append_left primaryKinds h

/-- In front of a token that begins no expression, an expression is missing. -/
theorem refuses (ht : t.kind ∉ openingKinds) : Parse.expression.Refuses [] t .expression ts := by
  have hternary : (ternary (ts.length + 2) (read (ts.length + 1))).Refuses [] t .expression ts :=
    (tier_refuses (unary_refuses ht) tiers).bind _
  exact hternary.bind _

end Expression

/-! ### Declarations in front of a missing semicolon -/

namespace Statement

/-- The kinds of the tokens that a missing semicolon behind an expression is not found at. -/
def goingOn : List Kind := .semicolon :: Expression.Symbol.assignment.continuing

/-- The tokens of a declaration in front of a semicolon, which ends a variable declaration or the
last statement so far. Where the semicolon is missing, the problem is found at any token that is not
of the kinds `taken`. -/
inductive Unended : (problem : SyntaxProblem) → (taken : List Kind) → List Token → Prop
  | bare {keyword name : Token} (hkeyword : keyword.kind = .kwVar) (hname : name.kind = .identifier) :
      Unended .variableEnd [.semicolon, .equal] [keyword, name]
  | initialized {keyword name equals : Token} {n : Node} {vs : List Token}
      (hkeyword : keyword.kind = .kwVar) (hname : name.kind = .identifier)
      (hequals : equals.kind = .equal) (hn : Expression.Spells .assignment [n] vs) :
      Unended .variableEnd goingOn (keyword :: name :: equals :: vs)
  | expression {n : Node} {us vs : List Token} (h : Spine us)
      (hn : Expression.Spells .assignment [n] vs) : Unended .expressionEnd goingOn (us ++ vs)
  | print {keyword : Token} {n : Node} {us vs : List Token} (h : Spine us)
      (hkeyword : keyword.kind = .kwPrint) (hn : Expression.Spells .assignment [n] vs) :
      Unended .printEnd goingOn (us ++ keyword :: vs)
  | returning {keyword : Token} {n : Node} {us vs : List Token} (h : Spine us)
      (hkeyword : keyword.kind = .kwReturn) (hn : Expression.Spells .assignment [n] vs) :
      Unended .returnEnd goingOn (us ++ keyword :: vs)
  | returningNothing {keyword : Token} {us : List Token} (h : Spine us)
      (hkeyword : keyword.kind = .kwReturn) :
      Unended .expression (.semicolon :: Expression.openingKinds) (us ++ [keyword])

variable {n : Node} {us vs ts : List Token} {t : Token}

theorem expressionThen_refuses (hn : Expression.Spells .assignment [n] vs)
    (ht : t.kind ∉ goingOn) (problem : SyntaxProblem) :
    (expressionThen .semicolon problem).Refuses vs t problem ts := by
  obtain ⟨hsemicolon, hcontinuing⟩ := not_or.mp (mt List.mem_cons.mpr ht)
  have hread : Parse.expression.Reads (vs ++ ([] ++ t :: ts)) n ([] ++ t :: ts) := hn.reads hcontinuing
  rw [← List.append_nil vs]
  exact hread.bind_refuses ((Parse.refuses_expect hsemicolon).bind _)

theorem Spine.strictDeclaration_refuses (h : Spine us) {problem : SyntaxProblem}
    (hopens : StartsOutside [.kwFun, .kwVar] (vs ++ t :: ts))
    (hend : ∃ u ∈ t :: ts, u.kind = .endOfInput) (hstatement : Parse.statement.Refuses vs t problem ts) :
    Parse.strictDeclaration.Refuses (us ++ vs) t problem ts := by
  obtain ⟨f, hf⟩ := h.continues ((us ++ (vs ++ t :: ts)).length + 1)
  have hread := hf.reads (vs ++ t :: ts) (endOfInput_mem_append vs hend) (Nat.le_succ _)
  rw [hstatement] at hread
  rw [Parse.Refuses, List.append_assoc]
  exact (strictDeclaration_eq_statement (h.startsOutside hopens)).trans hread

theorem variableDeclaration_refuses {keyword : Token} {problem : SyntaxProblem}
    (hkeyword : keyword.kind = .kwVar) (h : variableDeclaration.Refuses us t problem ts) :
    Parse.strictDeclaration.Refuses (keyword :: us) t problem ts := by
  refine (Parse.accept_bind_of_mem (by simp [hkeyword]) _ _).trans ?_
  dsimp only
  rw [hkeyword, if_neg (by decide)]
  exact h

/-- A missing semicolon is found at the token behind it. -/
theorem Unended.strictDeclaration_refuses {problem : SyntaxProblem} {taken : List Kind}
    (h : Unended problem taken us) (ht : t.kind ∉ taken)
    (hend : ∃ u ∈ t :: ts, u.kind = .endOfInput) :
    Parse.strictDeclaration.Refuses us t problem ts := by
  cases h with
  | @bare keyword name hkeyword hname =>
    obtain ⟨hsemicolon, hequal⟩ : t.kind ≠ .semicolon ∧ t.kind ≠ .equal := by simpa using ht
    have hbehind : (Parse.behind .equal Parse.expression).Reads (t :: ts) none (t :: ts) :=
      Parse.reads_behind.mpr (.inr ⟨by simpa using hequal, rfl, rfl⟩)
    refine variableDeclaration_refuses hkeyword ((Parse.expect_bind hname _ _ _).trans ?_)
    exact (hbehind.bind _).trans ((Parse.refuses_expect hsemicolon).bind _)
  | @initialized keyword name equals n vs hkeyword hname hequals hn =>
    obtain ⟨hsemicolon, hcontinuing⟩ := not_or.mp (mt List.mem_cons.mpr ht)
    have hbehind : (Parse.behind .equal Parse.expression).Reads (equals :: (vs ++ t :: ts)) (some n)
        (t :: ts) :=
      Parse.reads_behind.mpr (.inl ⟨equals, _, rfl, hequals, n, hn.reads hcontinuing, rfl⟩)
    refine variableDeclaration_refuses hkeyword ((Parse.expect_bind hname _ _ _).trans ?_)
    exact (hbehind.bind _).trans ((Parse.refuses_expect hsemicolon).bind _)
  | @expression n us vs hspine hn =>
    have hopens : StartsIn Expression.openingKinds (vs ++ t :: ts) := hn.opens.append _
    refine hspine.strictDeclaration_refuses (hopens.outside (by decide)) hend ?_
    cases vs with
    | nil => exact hn.opens.elim
    | cons u vs =>
      refine (Parse.accept_bind_of_not_mem (hopens.outside (by decide)) _ _).trans ?_
      exact (expressionThen_refuses hn ht _).bind _
  | @print keyword n us vs hspine hkeyword hn =>
    refine hspine.strictDeclaration_refuses (by simp [hkeyword]) hend ?_
    refine (Parse.accept_bind_of_mem (by simp [hkeyword]) _ _).trans ?_
    simp only [hkeyword]
    exact (expressionThen_refuses hn ht _).bind _
  | @returning keyword n us vs hspine hkeyword hn =>
    obtain ⟨hsemicolon, hcontinuing⟩ := not_or.mp (mt List.mem_cons.mpr ht)
    have hopens : StartsIn Expression.openingKinds (vs ++ t :: ts) := hn.opens.append _
    have hread : (Parse.expression.unlessAt .semicolon).Reads (vs ++ t :: ts) (some n) (t :: ts) :=
      Parse.reads_unlessAt.mpr (.inr ⟨hopens.outside (by decide), n, hn.reads hcontinuing, rfl⟩)
    have hvalue : (optionalThen .semicolon .returnEnd).Refuses vs t .returnEnd ts :=
      (hread.bind _).trans ((Parse.refuses_expect hsemicolon).bind _)
    refine hspine.strictDeclaration_refuses (by simp [hkeyword]) hend ?_
    refine (Parse.accept_bind_of_mem (by simp [hkeyword]) _ _).trans ?_
    simp only [hkeyword]
    exact hvalue.bind _
  | @returningNothing keyword us hspine hkeyword =>
    obtain ⟨hsemicolon, hopening⟩ := not_or.mp (mt List.mem_cons.mpr ht)
    have hvalue : (Parse.expression.unlessAt .semicolon).Refuses [] t .expression ts :=
      (Parse.check_bind_of_not_mem (by simpa using hsemicolon) _ _).trans
        ((Expression.refuses hopening).bind _)
    have hended : (optionalThen .semicolon .returnEnd).Refuses [] t .expression ts := hvalue.bind _
    refine hspine.strictDeclaration_refuses (by simp [hkeyword]) hend ?_
    refine (Parse.accept_bind_of_mem (by simp [hkeyword]) _ _).trans ?_
    simp only [hkeyword]
    exact hended.bind _

/-- With its semicolon the declaration is complete. -/
theorem Unended.spells {problem : SyntaxProblem} {taken : List Kind} (h : Unended problem taken us)
    {semicolon : Token} (hsemicolon : semicolon.kind = .semicolon) :
    ∃ n, Spells .declaration [n] (us ++ [semicolon]) := by
  have hended {n : Node} {vs : List Token} (hn : Expression.Spells .assignment [n] vs) :
      Ended .semicolon n (vs ++ [semicolon]) := ⟨vs, semicolon, rfl, hsemicolon, hn⟩
  cases h with
  | bare hkeyword hname => exact ⟨_, .declared hkeyword (.bare hname hsemicolon)⟩
  | initialized hkeyword hname hequals hn =>
    exact ⟨_, .declared hkeyword (.initialized hname hequals (hended hn))⟩
  | expression hspine hn =>
    obtain ⟨isOpen, m, hm⟩ := hspine.spells (.expression (hended hn))
    rw [List.append_assoc]
    exact ⟨m, .statement hm⟩
  | print hspine hkeyword hn =>
    obtain ⟨isOpen, m, hm⟩ := hspine.spells (.print hkeyword (hended hn))
    rw [List.append_assoc]
    exact ⟨m, .statement hm⟩
  | returning hspine hkeyword hn =>
    obtain ⟨isOpen, m, hm⟩ := hspine.spells (.returning hkeyword (.some (hended hn)))
    rw [List.append_assoc]
    exact ⟨m, .statement hm⟩
  | returningNothing hspine hkeyword =>
    obtain ⟨isOpen, m, hm⟩ := hspine.spells (.returning hkeyword (.none hsemicolon))
    rw [List.append_assoc]
    exact ⟨m, .statement hm⟩

theorem Unended.startsIn {problem : SyntaxProblem} {taken : List Kind} (h : Unended problem taken us) :
    StartsIn declarationKinds us := by
  have hsemicolon : (⟨.semicolon, ";", .nil, 0⟩ : Token).kind = .semicolon := rfl
  obtain ⟨n, hn⟩ := h.spells hsemicolon
  have hopens : StartsIn declarationKinds (us ++ [_]) := hn.opens
  cases us with
  | nil => exact absurd (startsIn_cons.mp hopens) (by decide)
  | cons u us => exact hopens

/-- A declaration that begins as an expression does is one with a semicolon behind it. -/
theorem Spells.ended_of_opens {n : Node} (h : Spells .declaration [n] us)
    (hopens : StartsIn Expression.openingKinds us) : ∃ m, Ended .semicolon m us := by
  cases h with
  | function hkeyword | declared hkeyword =>
    exact absurd (startsIn_cons.mp hopens) (by rw [hkeyword]; decide)
  | statement h =>
    cases h with
    | expression h => exact ⟨_, h⟩
    | print hkeyword | returning hkeyword | block hkeyword | branch hkeyword
      | branchElse hkeyword | whileLoop hkeyword | forLoop hkeyword =>
      exact absurd (startsIn_cons.mp hopens) (by rw [hkeyword]; decide)

theorem Ended.juxtapose {n m : Node} (hn : Expression.Spells .assignment [n] us)
    (hm : Ended .semicolon m (t :: vs)) (ht : t.kind ∈ goingOn) :
    ∃ l, Ended .semicolon l (us ++ t :: vs) := by
  obtain ⟨ws, semicolon, hsplit, hsemicolon, hspells⟩ := hm
  cases ws with
  | nil => exact absurd hspells.opens (fun h => h)
  | cons w ws =>
    obtain ⟨rfl, rfl⟩ := List.cons.inj hsplit
    have hcontinuing : t.kind ∈ Expression.Symbol.assignment.continuing := by
      have hopens : t.kind ∈ Expression.openingKinds := hspells.opens
      refine (List.mem_cons.mp ht).resolve_left fun hkind => ?_
      rw [hkind] at hopens
      exact absurd hopens (by decide)
    obtain ⟨l, hl⟩ := hn.juxtapose hspells hcontinuing
    exact ⟨l, us ++ t :: ws, semicolon, by simp, hsemicolon, hl⟩

/-- A declaration that begins with a token which goes on with an expression is an expression with a
semicolon behind it. -/
theorem Unended.ended {problem : SyntaxProblem} {taken : List Kind} {m : Node}
    (h : Unended problem taken us) (ht : t.kind ∈ taken)
    (hm : Spells .declaration [m] (t :: vs)) : ∃ m, Ended .semicolon m (t :: vs) := by
  have hkinds : ∀ k ∈ declarationKinds, k ∈ taken → k ∈ Expression.openingKinds := by
    cases h <;> decide
  have hopens : StartsIn declarationKinds (t :: vs) := hm.opens
  exact hm.ended_of_opens (startsIn_cons.mpr (hkinds _ (startsIn_cons.mp hopens) ht))

/-- Where a token goes on with the expression in front of it, the declaration that it begins and the
one in front of it are one. -/
theorem Unended.juxtapose {problem : SyntaxProblem} {taken : List Kind} {m : Node}
    (h : Unended problem taken us) (ht : t.kind ∈ taken)
    (hm : Spells .declaration [m] (t :: vs)) :
    ∃ l, Spells .declaration [l] (us ++ t :: vs) := by
  obtain ⟨m, hended⟩ := h.ended ht hm
  cases h with
  | bare =>
    have hnone : ∀ k ∈ [Kind.semicolon, .equal], k ∉ Expression.openingKinds := by decide
    exact absurd (startsIn_cons.mp hended.opens) (hnone _ ht)
  | initialized hkeyword hname hequals hn =>
    obtain ⟨l, hl⟩ := hended.juxtapose hn ht
    exact ⟨_, .declared hkeyword (.initialized hname hequals hl)⟩
  | expression hspine hn =>
    obtain ⟨l, hl⟩ := hended.juxtapose hn ht
    obtain ⟨isOpen, l, hl⟩ := hspine.spells (.expression hl)
    rw [List.append_assoc]
    exact ⟨l, .statement hl⟩
  | print hspine hkeyword hn =>
    obtain ⟨l, hl⟩ := hended.juxtapose hn ht
    obtain ⟨isOpen, l, hl⟩ := hspine.spells (.print hkeyword hl)
    rw [List.append_assoc]
    exact ⟨l, .statement hl⟩
  | returning hspine hkeyword hn =>
    obtain ⟨l, hl⟩ := hended.juxtapose hn ht
    obtain ⟨isOpen, l, hl⟩ := hspine.spells (.returning hkeyword (.some hl))
    rw [List.append_assoc]
    exact ⟨l, .statement hl⟩
  | returningNothing hspine hkeyword =>
    obtain ⟨isOpen, l, hl⟩ := hspine.spells (.returning hkeyword (.some hended))
    rw [List.append_assoc]
    exact ⟨l, .statement hl⟩

/-- The declaration is given up, and reading goes on behind it in the same list. -/
theorem Unended.declarations_eq {problem : SyntaxProblem} {taken closers : List Kind}
    {rest : List Token} (h : Unended problem taken us) (hcloser : .endOfInput ∈ closers)
    (hclosers : closers ⊆ [.rightBrace, .endOfInput]) (ht : t.kind ∉ taken)
    (hend : ∃ u ∈ t :: ts, u.kind = .endOfInput) (hrest : resume? (t :: ts) = some rest) :
    Parse.declarations closers (us ++ t :: ts) =
      (Parse.declarations closers rest).after [⟨t, problem⟩] := by
  have hmem := endOfInput_mem_append us hend
  have hread : Parse.declaration (us ++ t :: ts) = .done none [⟨t, problem⟩] rest :=
    Parse.recovering_of_rejected (h.strictDeclaration_refuses ht hend) hrest
  have hopens : StartsOutside closers (us ++ t :: ts) :=
    startsOutside_closers (h.startsIn.append _) hclosers
  rw [Parse.declarations_eq hmem hcloser hopens, hread]
  simp only [Parsed.andThen, Option.toList_none, List.nil_append, bind_pure]

end Statement

namespace Parse

open Statement

/-- What is read of a list of declarations without a report are phrases. -/
theorem spells_of_declarations {closers : List Kind} (hend : .endOfInput ∈ closers)
    {ts : List Token} (hts : ∃ t ∈ ts, t.kind = .endOfInput)
    (h : (declarations closers ts).reports = []) :
    ∃ ns us rest, ts = us ++ rest ∧ Spells .declarations ns us ∧ StartsIn closers rest ∧
      ∃ t ∈ rest, t.kind = .endOfInput := by
  obtain ⟨ns, reports, t, rest, hres, -, htaken⟩ := declarations_total hts hend
  obtain rfl : reports = [] := by simpa [hres, Parsed.reports] using h
  have hsound : SoundDeclaration strictDeclaration := fun us back n hread =>
    SoundDeclaration.strictDeclaration (soundEntry_readers us.length) hread
  obtain ⟨us, hsplit, hspells, hrest⟩ := spells_of_reads_upTo Reporting.strictDeclaration hsound hres
  exact ⟨ns, us, t :: rest, hsplit, hspells, hrest, htaken.endOfInput_mem hts⟩

/-- No list of declarations that is read without a report begins with an `else`. -/
theorem startsOutside_else {closers : List Kind} (hend : .endOfInput ∈ closers)
    (hclosers : closers ⊆ [.rightBrace, .endOfInput]) {ts : List Token}
    (hts : ∃ t ∈ ts, t.kind = .endOfInput) (h : (declarations closers ts).reports = []) :
    StartsOutside [.kwElse] ts := by
  obtain ⟨ns, us, rest, rfl, hspells, hrest, -⟩ := spells_of_declarations hend hts h
  exact hspells.startsOutside_declarations ((hrest.mono hclosers).outside (by decide))

/-- Where the token behind the semicolon goes on with what is in front of it, two declarations of the
list become one. -/
theorem trace_declarations_juxtaposed {closers taken : List Kind} {ds ts : List Token}
    {t semicolon : Token} {problem : SyntaxProblem} (hcloser : .endOfInput ∈ closers)
    (hclosers : closers ⊆ [.rightBrace, .endOfInput]) (hds : Unended problem taken ds)
    (hsemicolon : semicolon.kind = .semicolon) (hend : ∃ u ∈ t :: ts, u.kind = .endOfInput)
    (hclean : (declarations closers (ds ++ semicolon :: t :: ts)).reports = [])
    (ht : t.kind ∈ taken) :
    (declarations closers (ds ++ t :: ts)).trace =
      (declarations closers (ds ++ semicolon :: t :: ts)).trace := by
  have hkinds : ∀ k ∈ taken, k ∉ [Kind.kwElse] ∧ k ∉ [Kind.rightBrace, .endOfInput] := by
    cases hds <;> decide
  obtain ⟨n, hn⟩ := hds.spells hsemicolon
  have hfirst := hn.trace_declaration hcloser hclosers hend (hkinds _ ht).1
  rw [List.append_assoc] at hfirst
  have hnone : (declarations closers (t :: ts)).reports = [] :=
    (Parsed.reports_eq_of_trace hfirst).symm.trans hclean
  obtain ⟨ms, ws, rest, hsplit, hws, hrest, hrestEnd⟩ := spells_of_declarations hcloser hend hnone
  cases hws with
  | nil =>
    obtain rfl : t :: ts = rest := hsplit
    exact absurd (hclosers (startsIn_cons.mp hrest)) (hkinds _ ht).2
  | @cons m ms ws xs hm hms =>
    cases ws with
    | nil => exact absurd hm.opens (fun h => h)
    | cons w ws =>
      obtain ⟨rfl, rfl⟩ : t = w ∧ ts = ws ++ (xs ++ rest) := by simpa using hsplit
      have hothers := endOfInput_mem_append xs hrestEnd
      have helse : StartsOutside [.kwElse] (xs ++ rest) :=
        hms.startsOutside_declarations ((hrest.mono hclosers).outside (by decide))
      have hsecond := hm.trace_declaration hcloser hclosers hothers helse
      obtain ⟨l, hl⟩ := hds.juxtapose ht hm
      have hboth := hl.trace_declaration hcloser hclosers hothers helse
      rw [List.append_assoc] at hboth
      exact hboth.trans (hsecond.symm.trans hfirst.symm)

/-- A program from which the semicolon behind the tokens `ds` of a declaration is left out. Where the
token behind it goes on with them, there is no report.

Otherwise some tokens are given up with the declaration. Unless an `else` follows them, the program
is read as if neither they nor the declaration were there, but for a report at the first of them. So
there is at most one report if and only if no `else` follows and the program is grammatical without
them, which it is if they are declarations themselves. -/
theorem program_without_semicolon {closers taken : List Kind} {us vs ds ts back : List Token}
    {ns all : List Node} {t semicolon : Token} {problem : SyntaxProblem} (hus : Leads closers us)
    (hvs : Spells .declarations ns vs) (hds : Unended problem taken ds)
    (hsemicolon : semicolon.kind = .semicolon) (hend : ∃ u ∈ t :: ts, u.kind = .endOfInput)
    (hclean : Parse.program (us ++ (vs ++ (ds ++ semicolon :: t :: ts))) = .done all [] back) :
    (t.kind ∈ taken →
      ∃ others, Parse.program (us ++ (vs ++ (ds ++ t :: ts))) = .done others [] back) ∧
    (t.kind ∉ taken → ∃ skipped rest, t :: ts = skipped ++ rest ∧ GivenUp skipped rest ∧
      (StartsOutside [.kwElse] rest → Parse.program (us ++ (vs ++ (ds ++ t :: ts))) =
        (Parse.program (us ++ (vs ++ rest))).after [⟨t, problem⟩]) ∧
      ((Parse.program (us ++ (vs ++ (ds ++ t :: ts)))).reports.length ≤ 1 ↔
        StartsOutside [.kwElse] rest ∧ (Parse.program (us ++ (vs ++ rest))).reports = []) ∧
      (StartsOutside [.kwElse] rest → (∃ ms, Spells .declarations ms skipped) →
        (Parse.program (us ++ (vs ++ (ds ++ t :: ts)))).reports = [⟨t, problem⟩])) := by
  have hdamagedEnd := endOfInput_mem_append ds hend
  have hopens (xs : List Token) : StartsOutside [.kwElse] (ds ++ xs) :=
    (hds.startsIn.append xs).outside (by decide)
  obtain ⟨K, hK, hprogram⟩ :=
    hus.program_append_eq hvs (ds ++ semicolon :: t :: ts).length
  have hcleanEnd := endOfInput_mem_append ds (endOfInput_mem_append [semicolon] hend)
  rw [hprogram (ds ++ semicolon :: t :: ts) hcleanEnd (hopens _) (Nat.le_refl _)] at hclean
  have hlist : (declarations closers (ds ++ semicolon :: t :: ts)).reports = [] :=
    hK.reports_eq_nil (by rw [hclean]; rfl)
  refine ⟨fun ht => ?_, fun ht => ?_⟩
  · have htrace := hK.blind (trace_declarations_juxtaposed hus.endOfInput_mem hus.subset hds
      hsemicolon hend hlist ht)
    rw [hclean, ← hprogram (ds ++ t :: ts) hdamagedEnd (hopens _) (by simp)] at htrace
    exact Parsed.done_of_trace htrace
  obtain ⟨rest, hresume, htaken, -⟩ := takenTo_resume? hend
  obtain ⟨skipped, hsplit, hskipped⟩ := resume?_eq_some_iff.mp hresume
  have hrest : ∃ u ∈ rest, u.kind = .endOfInput := htaken.endOfInput_mem hend
  have hlength : rest.length ≤ ts.length + 1 := htaken.length_le
  have hwithout : StartsOutside [.kwElse] rest →
      Parse.program (us ++ (vs ++ rest)) = K (declarations closers rest) :=
    fun helse => hprogram rest hrest helse (by simp; omega)
  have hdamaged : Parse.program (us ++ (vs ++ (ds ++ t :: ts))) =
      (K (declarations closers rest)).after [⟨t, problem⟩] := by
    rw [hprogram _ hdamagedEnd (hopens _) (by simp),
      hds.declarations_eq hus.endOfInput_mem hus.subset ht hend hresume, hK.after]
  refine ⟨skipped, rest, hsplit, hskipped, fun helse => ?_, ⟨fun hone => ?_, ?_⟩, ?_⟩
  · rw [hdamaged, hwithout helse]
  · have hnone : (K (declarations closers rest)).reports = [] := by
      simpa [hdamaged, Parsed.reports_after] using hone
    have helse := startsOutside_else hus.endOfInput_mem hus.subset hrest (hK.reports_eq_nil hnone)
    exact ⟨helse, by rw [hwithout helse, hnone]⟩
  · rintro ⟨helse, hnone⟩
    rw [hwithout helse] at hnone
    simp [hdamaged, Parsed.reports_after, hnone]
  · -- The two programs differ in declarations, which are not looked at behind the list.
    rintro helse ⟨ms, hms⟩
    obtain ⟨n, hn⟩ := hds.spells hsemicolon
    have htrace := (Spells.cons hn hms).trace_declarations hus.endOfInput_mem hus.subset hrest helse
    rw [List.append_assoc, List.append_assoc, ← hsplit] at htrace
    have hnone := Parsed.reports_eq_of_trace (hK.blind htrace)
    rw [List.singleton_append, hclean] at hnone
    rw [hdamaged, Parsed.reports_after, ← hnone]
    rfl

namespace Forgotten

/-- The first token of `{ if (a) print 1; print 2; }`. -/
def opening : List Token := [⟨.leftBrace, "\x7b", .nil, 1⟩]

/-- Its tokens in front of the first semicolon. -/
def choice : List Token :=
  [⟨.kwIf, "if", .nil, 1⟩, ⟨.leftParen, "(", .nil, 1⟩, ⟨.identifier, "a", .nil, 1⟩,
    ⟨.rightParen, ")", .nil, 1⟩, ⟨.kwPrint, "print", .nil, 1⟩, ⟨.number, "1", .number (.ofInt 1), 1⟩]

/-- A semicolon. -/
def semicolon : Token := ⟨.semicolon, ";", .nil, 1⟩

/-- The token behind the first semicolon. -/
def keyword : Token := ⟨.kwPrint, "print", .nil, 1⟩

/-- The closing brace and the end of input. -/
def ending : List Token := [⟨.rightBrace, "\x7d", .nil, 1⟩, ⟨.endOfInput, "", .nil, 1⟩]

/-- The tokens behind the second keyword. -/
def behind : List Token := ⟨.number, "2", .number (.ofInt 2), 1⟩ :: semicolon :: ending

/-- A token that goes on with an expression. -/
def minus : Token := ⟨.minus, "-", .nil, 1⟩

theorem leads_opening : Leads [.rightBrace, .endOfInput] opening :=
  .nested .program .nil (.block .nil rfl)

/-- The second statement is lost with the first one, the block is not. In `{ if (a) print 1; - 2; }`
nothing is lost. -/
theorem program_without_semicolon_choice :
    Parse.program (opening ++ (choice ++ semicolon :: keyword :: behind)) =
      .done [.block [.branch (.reference ⟨.identifier, "a", .nil, 1⟩)
        (.print (.literal (.number (.ofInt 1)))) none, .print (.literal (.number (.ofInt 2)))]] []
          [⟨.endOfInput, "", .nil, 1⟩] ∧
    Parse.program (opening ++ (choice ++ keyword :: behind)) =
      .done [.block []] [⟨keyword, .printEnd⟩] [⟨.endOfInput, "", .nil, 1⟩] ∧
    ∃ others, Parse.program (opening ++ (choice ++ minus :: behind)) =
      .done others [] [⟨.endOfInput, "", .nil, 1⟩] := by
  have hunended : Unended .printEnd goingOn choice := by
    have ha : Expression.Spells .assignment [.reference ⟨.identifier, "a", .nil, 1⟩]
        [⟨.identifier, "a", .nil, 1⟩] := .choice (Expression.Spells.primary_ternary (.reference rfl))
    have hone : Expression.Spells .assignment [.literal (.number (.ofInt 1))]
        [⟨.number, "1", .number (.ofInt 1), 1⟩] :=
      .choice (Expression.Spells.primary_ternary (.literal rfl))
    exact .print (.branch rfl ⟨_, _, rfl, rfl, _, _, rfl, rfl, ha⟩ .nil) rfl hone
  have hclean : Parse.program (opening ++ (choice ++ semicolon :: keyword :: behind)) =
      .done [.block [.branch (.reference ⟨.identifier, "a", .nil, 1⟩)
        (.print (.literal (.number (.ofInt 1)))) none, .print (.literal (.number (.ofInt 2)))]] []
          [⟨.endOfInput, "", .nil, 1⟩] := rfl
  have hnegated : Parse.program (opening ++ (choice ++ semicolon :: minus :: behind)) =
      .done [.block [.branch (.reference ⟨.identifier, "a", .nil, 1⟩)
        (.print (.literal (.number (.ofInt 1)))) none,
          .expression (.unary minus (.literal (.number (.ofInt 2))))]] []
            [⟨.endOfInput, "", .nil, 1⟩] := rfl
  have hend (t : Token) : ∃ u ∈ t :: behind, u.kind = .endOfInput :=
    ⟨⟨.endOfInput, "", .nil, 1⟩, by simp [behind, ending], rfl⟩
  have hsemicolon : semicolon.kind = .semicolon := rfl
  obtain ⟨skipped, rest, hsplit, hskipped, hwithout, -, -⟩ :=
    (program_without_semicolon leads_opening .nil hunended hsemicolon (hend keyword) hclean).2
      (by decide)
  have hrest : resume? (keyword :: behind) = some ending := rfl
  rw [resume?_eq_some_iff.mpr ⟨skipped, hsplit, hskipped⟩] at hrest
  obtain rfl := Option.some.inj hrest
  refine ⟨hclean, hwithout (by simp [ending]), ?_⟩
  exact (program_without_semicolon leads_opening .nil hunended hsemicolon (hend minus) hnegated).1
    (by decide)

/-- The tokens of `print 1`. -/
def last : List Token := [keyword, ⟨.number, "1", .number (.ofInt 1), 1⟩]

end Forgotten

open Forgotten in
/-- It is not so that there is one report at most: where the semicolon in front of a closing brace
is left out, as in `{ print 1 }`, the brace is given up, and the block is missing its end. -/
theorem brace_given_up :
    (¬ ∀ us vs ds ts ns all closers taken t semicolon problem back, Leads closers us →
      Spells .declarations ns vs → Unended problem taken ds → semicolon.kind = Kind.semicolon →
      Parse.program (us ++ (vs ++ (ds ++ semicolon :: t :: ts))) = .done all [] back →
      (Parse.program (us ++ (vs ++ (ds ++ t :: ts)))).reports.length ≤ 1) ∧
    Parse.program (opening ++ (last ++ ending)) =
      .done [] [⟨⟨.rightBrace, "\x7d", .nil, 1⟩, .printEnd⟩, ⟨⟨.endOfInput, "", .nil, 1⟩, .blockEnd⟩]
        [⟨.endOfInput, "", .nil, 1⟩] := by
  refine ⟨fun h => ?_, rfl⟩
  have hunended : Unended .printEnd goingOn last :=
    .print .nil rfl (.choice (Expression.Spells.primary_ternary (.literal rfl)))
  have hone := h opening [] last [⟨.endOfInput, "", .nil, 1⟩] [] _ _ _
    ⟨.rightBrace, "\x7d", .nil, 1⟩ semicolon _ [⟨.endOfInput, "", .nil, 1⟩] leads_opening .nil
    hunended rfl rfl
  exact absurd hone (by decide)

end Parse

end Lox
