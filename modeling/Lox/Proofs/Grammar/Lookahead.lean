import Lox.Proofs.Grammar.Relabeling

/-!
# Lookahead

All readers mirror themselves on relabeled texts: what they answer depends on the kinds of tokens
and on what tokens carry, and on no token behind the one they stop at. Nor does it depend on the
bounds that the recursions have been given, as long as these suffice.

The productions are compared in terms of the readers that they start again, which may be different
ones on both sides.

## Main definitions

* `Parse.Mirrors.Again`: what is asked of the readers of declarations and statements.

## Main results

* `Parse.Mirrors.expression`, `Parse.Mirrors.program`: expressions and programs are mirrored.
* `Parse.program_behind`: nothing behind the end of input matters.
-/

namespace Lox

namespace Parse.Mirrors

variable {f : Token → Token} (hf : Relabeling f) {n b b' : Nat}
include hf

/-! ### Expressions -/

omit hf in
theorem relabel_join {level : List Kind × (Node → Token → Node → Node)}
    (hlevel : level ∈ Expression.tiers) (left : Node) (operator : Token) (right : Node) :
    (level.2 left operator right).relabel f =
      level.2 (left.relabel f) (f operator) (right.relabel f) := by
  simp only [Expression.tiers, List.mem_cons, List.not_mem_nil, or_false] at hlevel
  obtain rfl | rfl | rfl | rfl | rfl | rfl := hlevel <;> rfl

theorem tier {operand operand' : Parse Node}
    (hoperand : operand.Mirrors f (.relabel f) n true operand')
    (levels : List (List Kind × (Node → Token → Node → Node)))
    (hlevels : levels ⊆ Expression.tiers) (hb : n ≤ b) (hb' : n ≤ b') :
    (Expression.tier b operand levels).Mirrors f (.relabel f) n true
      (Expression.tier b' operand' levels) := by
  induction levels with
  | nil => exact hoperand
  | cons level tighter ih =>
    have htighter := ih fun t ht => hlevels (.tail _ ht)
    refine htighter.andThen fun left => ?_
    exact chain hf (relabel_join (hlevels (.head _))) (htighter.weaken (by omega)) left (by omega)
      (by omega)

section Expressions

variable {again again' : Expression.Entry → Parse Node}
variable (hagain : ∀ entry, (again entry).Mirrors f (.relabel f) n true (again' entry))
include hagain

theorem primary : (Expression.primary again).Mirrors f (.relabel f) (n + 1) true
    (Expression.primary again') := by
  refine acceptOr hf (reject _ _ _) fun t _ => ?_
  simp only [hf.kind, hf.literal]
  split
  case h_5 =>
    refine (hagain .assignment).thenLax fun inner => ?_
    exact (expect hf _ _ _).thenLax fun _ => .pure rfl _
  all_goals exact .pure rfl _

theorem arguments (hb : n ≤ b) (hb' : n ≤ b') :
    (Expression.arguments b again).Mirrors f (List.map (.relabel f)) n false
      (Expression.arguments b' again') :=
  entriesUnlessAt hf _ (hagain .assignment) hb hb'

theorem calls (hb : n ≤ b) (hb' : n ≤ b') {m steps steps' : Nat} (hm : m ≤ n + 1)
    (hsteps : m ≤ steps) (hsteps' : m ≤ steps') (callee : Node) :
    (Expression.calls b again steps callee).Mirrors f (.relabel f) m false
      (Expression.calls b' again' steps' (callee.relabel f)) := by
  induction steps generalizing m steps' callee with
  | zero =>
    obtain rfl : m = 0 := by omega
    exact exhausted
  | succ steps ih =>
    have hsucc (steps' : Nat) (hsteps' : m ≤ steps' + 1) :
        (Expression.calls b again (steps + 1) callee).Mirrors f (.relabel f) m false
          (Expression.calls b' again' (steps' + 1) (callee.relabel f)) := by
      refine acceptOr hf (.pure rfl _) fun _ _ => ?_
      refine ((arguments hf hagain hb hb').weaken (by omega)).bind fun entries => ?_
      refine (expect hf _ _ _).thenLax fun paren => ?_
      have hback :=
        ih (show m - 1 - 1 ≤ n + 1 by omega) (by omega) (show m - 1 - 1 ≤ steps' by omega)
        (.call callee paren entries)
      rwa [Node.relabel, Node.relabelAll_eq] at hback
    cases steps' with
    | succ steps' => exact hsucc steps' hsteps'
    | zero =>
      obtain rfl : m = 0 := by omega
      exact ofZero (hsucc 0 (by omega)).suffix nofun

theorem unary (hb : n + 1 ≤ b) (hb' : n + 1 ≤ b') :
    (Expression.unary b again).Mirrors f (.relabel f) (n + 1) true
      (Expression.unary b' again') := by
  refine acceptOr hf ?_ fun operator _ => ?_
  · refine (primary hf hagain).andThen fun callee => ?_
    exact calls hf hagain (by omega) (by omega) (by omega) (by omega) (by omega) callee
  · exact (hagain .unary).thenLax fun _ => .pure rfl _

theorem ternary (hb : n + 1 ≤ b) (hb' : n + 1 ≤ b') :
    (Expression.ternary b again).Mirrors f (.relabel f) (n + 1) true
      (Expression.ternary b' again') := by
  have hcondition := tier hf (unary hf hagain hb hb') Expression.tiers (List.Subset.refl _) hb hb'
  refine hcondition.andThen fun condition => ?_
  refine acceptOr hf (.pure rfl _) fun question _ => ?_
  refine ((hagain .ternary).weaken (by omega)).thenLax fun thenBranch => ?_
  refine (expect hf _ _ _).thenLax fun _ => ?_
  exact ((hagain .ternary).weaken (by omega)).thenLax fun _ => .pure rfl _

theorem assignment (hb : n + 1 ≤ b) (hb' : n + 1 ≤ b') :
    (Expression.assignment b again).Mirrors f (.relabel f) (n + 1) true
      (Expression.assignment b' again') := by
  refine (ternary hf hagain hb hb').andThen fun target => ?_
  refine acceptOr hf (.pure rfl _) fun equals _ => ?_
  refine ((hagain .assignment).weaken (by omega)).thenLax fun value => ?_
  cases target with
  | reference name => exact .pure rfl _
  | _ => exact (note _ _ _).bind fun _ => .pure rfl _

end Expressions

theorem read (hb : n ≤ b) (hb' : n ≤ b') (entry : Expression.Entry) :
    (Expression.read b entry).Mirrors f (.relabel f) n true (Expression.read b' entry) := by
  induction b generalizing n b' entry with
  | zero =>
    obtain rfl : n = 0 := by omega
    exact exhausted
  | succ b ih =>
    have hsucc (b' : Nat) (hb' : n ≤ b' + 1) :
        (Expression.read (b + 1) entry).Mirrors f (.relabel f) n true
          (Expression.read (b' + 1) entry) := by
      have hagain (entry : Expression.Entry) :
          (Expression.read b entry).Mirrors f (.relabel f) (n - 1) true
            (Expression.read b' entry) :=
        ih (by omega) (by omega) entry
      cases entry with
      | assignment => exact (assignment hf hagain (by omega) (by omega)).weaken (by omega)
      | ternary => exact (ternary hf hagain (by omega) (by omega)).weaken (by omega)
      | unary => exact (unary hf hagain (by omega) (by omega)).weaken (by omega)
    cases b' with
    | succ b' => exact hsucc b' hb'
    | zero =>
      obtain rfl : n = 0 := by omega
      exact ofZero (hsucc 0 (by omega)).suffix (hsucc 0 (by omega)).strict

theorem expression : Parse.expression.Mirrors f (.relabel f) n true Parse.expression :=
  byLength (q := fun b => Expression.read (b + 1) .assignment)
    (r := fun b => Expression.read (b + 1) .assignment) fun _ _ _ hb hb' =>
      read hf (by omega) (by omega) .assignment

/-! ### Statements -/

theorem expressionThen (kind : Kind) (problem : SyntaxProblem) :
    (Statement.expressionThen kind problem).Mirrors f (.relabel f) n true
      (Statement.expressionThen kind problem) :=
  (expression hf).andThen fun _ => (expect hf _ _ _).thenLax fun _ => .pure rfl _

theorem optionalThen (kind : Kind) (problem : SyntaxProblem) :
    (Statement.optionalThen kind problem).Mirrors f (Option.map (.relabel f)) n false
      (Statement.optionalThen kind problem) :=
  (unlessAt hf (expression hf).lax).bind fun _ => (expect hf _ _ _).thenLax fun _ => .pure rfl _

theorem condition (opening closing : SyntaxProblem) :
    (Statement.condition opening closing).Mirrors f (.relabel f) n true
      (Statement.condition opening closing) :=
  (expect hf _ _ _).andThen fun _ => (expressionThen hf _ _).lax

theorem variableDeclaration :
    Statement.variableDeclaration.Mirrors f (.relabel f) n true Statement.variableDeclaration := by
  refine (expect hf _ _ _).andThen fun name => ?_
  refine (behind hf (expression hf).lax).bind fun initializer => ?_
  exact (expect hf _ _ _).thenLax fun _ => .pure (by simp [Node.relabel]) _

theorem expressionStatement :
    Statement.expressionStatement.Mirrors f (.relabel f) n true Statement.expressionStatement :=
  (expressionThen hf _ _).andThen fun _ => .pure rfl _

theorem forInitializer :
    Statement.forInitializer.Mirrors f (Option.map (.relabel f)) n true
      Statement.forInitializer := by
  refine acceptOr hf ((expressionStatement hf).map fun _ => rfl) fun t _ => ?_
  simp only [hf.kind]
  split
  · exact .pure rfl _
  · exact (variableDeclaration hf).lax.map fun _ => rfl

omit hf in
/-- What is asked of the readers of declarations and statements that productions start again: they
are mirrored, and they take a token; a declaration may have to be given up in front of the end of
input. -/
structure Again (f : Token → Token) (n : Nat) (again again' : Statement.Entry) : Prop where
  declaration : again.declaration.Mirrors f (Option.map (.relabel f)) n false again'.declaration
  advances : again.declaration.Advances
  statement : again.statement.Mirrors f (.relabel f) n true again'.statement

section Productions

variable {again again' : Statement.Entry} (hagain : Again f n again again')
include hagain

theorem block (hb : n ≤ b) (hb' : n ≤ b') :
    (Statement.block b again).Mirrors f (List.map (.relabel f)) n true
      (Statement.block b' again') := by
  have hstatements := upTo hf (show Kind.endOfInput ∈ [.rightBrace, .endOfInput] by decide)
    hagain.declaration hagain.advances hb hb'
  exact hstatements.bind fun _ => (expect hf _ _ _).andThen fun _ => .pure rfl _

theorem functionDeclaration (hb : n ≤ b) (hb' : n ≤ b') :
    (Statement.functionDeclaration b again).Mirrors f (.relabel f) n true
      (Statement.functionDeclaration b' again') := by
  refine (expect hf _ _ _).andThen fun name => ?_
  refine (expect hf _ _ _).thenLax fun _ => ?_
  refine (entriesUnlessAt hf _ (expect hf _ _ _) (by omega) (by omega)).bind fun params => ?_
  refine (expect hf _ _ _).thenLax fun _ => ?_
  refine (expect hf _ _ _).thenLax fun _ => ?_
  refine ((block hf hagain hb hb').weaken (by omega)).thenLax fun body => .pure ?_ _
  rw [Node.relabel, Node.relabelAll_eq]

theorem forLoop :
    (Statement.forLoop again).Mirrors f (.relabel f) n true (Statement.forLoop again') := by
  refine (expect hf _ _ _).andThen fun _ => ?_
  refine (forInitializer hf).thenLax fun initializer => ?_
  refine (optionalThen hf _ _).bind fun condition => ?_
  refine (optionalThen hf _ _).bind fun increment => ?_
  refine (hagain.statement.weaken (by omega)).thenLax fun body => ?_
  exact .pure (Node.relabel_desugarFor _ _ _ _) _

theorem branch :
    (Statement.branch again).Mirrors f (.relabel f) n true (Statement.branch again') := by
  refine (condition hf _ _).andThen fun condition => ?_
  refine (hagain.statement.weaken (by omega)).thenLax fun thenBranch => ?_
  refine (behind hf (hagain.statement.weaken (by omega)).lax).bind fun elseBranch => ?_
  exact .pure (by simp [Node.relabel]) _

theorem whileLoop :
    (Statement.whileLoop again).Mirrors f (.relabel f) n true (Statement.whileLoop again') := by
  refine (condition hf _ _).andThen fun condition => ?_
  exact (hagain.statement.weaken (by omega)).thenLax fun _ => .pure rfl _

theorem statement (hb : n ≤ b) (hb' : n ≤ b') :
    (Statement.statement b again).Mirrors f (.relabel f) (n + 1) true
      (Statement.statement b' again') := by
  refine acceptOr hf (expressionStatement hf) fun t _ => ?_
  simp only [hf.kind]
  split
  · exact (forLoop hf hagain).lax
  · exact (whileLoop hf hagain).lax
  · exact (branch hf hagain).lax
  · exact (expressionThen hf _ _).thenLax fun _ => .pure rfl _
  · exact (optionalThen hf _ _).bind fun _ => .pure (by simp [Node.relabel]) _
  · refine (block hf hagain hb hb').thenLax fun statements => .pure ?_ _
    rw [Node.relabel, Node.relabelAll_eq]

theorem strictDeclaration (hb : n ≤ b) (hb' : n ≤ b') :
    (Statement.strictDeclaration b again).Mirrors f (.relabel f) (n + 1) true
      (Statement.strictDeclaration b' again') := by
  refine acceptOr hf (statement hf hagain hb hb') fun t _ => ?_
  simp only [hf.kind]
  split
  · exact (functionDeclaration hf hagain hb hb').lax
  · exact (variableDeclaration hf).lax

end Productions

/-! ### Programs -/

omit hf in
theorem Again.weaken {again again' : Statement.Entry} {m : Nat} (h : Again f m again again')
    (hn : n ≤ m) : Again f n again again' :=
  ⟨h.declaration.weaken hn, h.advances, h.statement.weaken hn⟩

omit hf in
/-- Readers that are tied by a recursion on a bound are mirrored with any two bounds that suffice,
if one round of the recursion hands it on. -/
theorem Again.tied {R : Nat → Statement.Entry} (hzero : R 0 = ⟨Parse.exhausted, Parse.exhausted⟩)
    (hstep : ∀ {m b b'}, m ≤ b → m ≤ b' → Again f m (R b) (R b') →
      Again f (m + 1) (R (b + 1)) (R (b' + 1)))
    (hb : n ≤ b) (hb' : n ≤ b') : Again f n (R b) (R b') := by
  induction b generalizing n b' with
  | zero =>
    obtain rfl : n = 0 := by omega
    rw [hzero]
    exact ⟨exhausted, fun _ _ _ _ _ _ hres => (by cases hres), exhausted⟩
  | succ b ih =>
    have hsucc (b' : Nat) (hb' : n ≤ b' + 1) : Again f n (R (b + 1)) (R (b' + 1)) := by
      have hless : Again f (n - 1) (R b) (R b') := ih (by omega) (by omega)
      exact (hstep (by omega) (by omega) hless).weaken (by omega)
    cases b' with
    | succ b' => exact hsucc b' hb'
    | zero =>
      obtain rfl : n = 0 := by omega
      have hnext := hsucc 0 (by omega)
      exact ⟨ofZero hnext.declaration.suffix nofun, hnext.advances,
        ofZero hnext.statement.suffix hnext.statement.strict⟩

section Loops

omit hf

variable {R : Nat → Statement.Entry}
variable (hR : ∀ {m b b'}, m ≤ b → m ≤ b' → Again f m (R b) (R b'))
include hR

theorem ofReaders : Mirrors f (Option.map (.relabel f)) n false
    (fun ts => (R (ts.length + 1)).declaration ts) fun ts => (R (ts.length + 1)).declaration ts :=
  byLength (q := fun b => (R (b + 1)).declaration) (r := fun b => (R (b + 1)).declaration)
    fun _ _ _ hb hb' => (hR (by omega) (by omega)).declaration

theorem advances_ofReaders :
    Advances fun ts : List Token => (R (ts.length + 1)).declaration ts := fun _ ts _ _ _ ht hres =>
  (hR (Nat.zero_le (ts.length + 2)) (Nat.zero_le 0)).advances ht hres

end Loops

theorem ofDeclaration {d : Parse (Option Node)}
    (hd : ∀ m, d.Mirrors f (Option.map (.relabel f)) m false d) (hadvances : d.Advances) :
    Mirrors f (List.map (.relabel f)) n false
      (fun ts => Parse.upTo [.endOfInput] d (ts.length + 1) ts)
      fun ts => Parse.upTo [.endOfInput] d (ts.length + 1) ts :=
  byLength (q := fun b => Parse.upTo [.endOfInput] d (b + 1))
    (r := fun b => Parse.upTo [.endOfInput] d (b + 1)) fun m _ _ hb hb' =>
      upTo hf (List.mem_singleton_self _) (hd m) hadvances (by omega) (by omega)

theorem readers (hb : n ≤ b) (hb' : n ≤ b') :
    Again f n (Statement.readers b) (Statement.readers b') := by
  refine .tied rfl (fun hb hb' hagain => ?_) hb hb'
  have hdeclaration := strictDeclaration hf hagain (Nat.le_succ_of_le hb) (Nat.le_succ_of_le hb')
  exact ⟨recovering hf hdeclaration, advances_recovering hdeclaration,
    statement hf hagain (Nat.le_succ_of_le hb) (Nat.le_succ_of_le hb')⟩

theorem declaration :
    Parse.declaration.Mirrors f (Option.map (.relabel f)) n false Parse.declaration :=
  ofReaders (readers hf)

theorem advances_declaration : Parse.declaration.Advances := advances_ofReaders (readers hf)

theorem program : Parse.program.Mirrors f (List.map (.relabel f)) n false Parse.program :=
  ofDeclaration hf (fun _ => declaration hf) (advances_declaration hf)

/-! ### Texts that begin alike -/

section Unchanged

omit hf

variable {α : Type} {g : α → α} {strict : Bool} {p p' : Parse α}
variable {front us behind : List Token} {u : Token} {reports : List SyntaxReport}

/-- What is behind the token that a reader stops at does not matter. -/
theorem done_of_done (hp : p.Mirrors id g n strict p') (hg : g = id) (hfront : front.length ≤ n)
    {a : α} (hres : p (front ++ behind) = .done a reports (u :: us ++ behind))
    (behind' : List Token) : p' (front ++ behind') = .done a reports (u :: us ++ behind') := by
  have hmirrors := hp.mirrors front behind behind' hfront u us (by rw [hres]; rfl)
  rwa [hres, List.map_id, List.map_id, Parsed.relabel_id_done hg] at hmirrors

theorem stopped_of_stopped (hp : p.Mirrors id g n strict p') (hfront : front.length ≤ n)
    {why : Stop} (hres : p (front ++ behind) = .stopped why reports (u :: us ++ behind))
    (behind' : List Token) :
    p' (front ++ behind') = .stopped why reports (u :: us ++ behind') := by
  have hmirrors := hp.mirrors front behind behind' hfront u us (by rw [hres]; rfl)
  rwa [hres, List.map_id, List.map_id, Parsed.relabel_id_stopped] at hmirrors

end Unchanged

end Parse.Mirrors

theorem Node.map_relabel_id : List.map (Node.relabel id) = id := by
  rw [Node.relabel_id_eq, List.map_id_fun]

/-- What is behind the first end of input does not matter. -/
theorem Parse.program_behind {front behind : List Token} {e : Token} {ns : List Node}
    {reports : List SyntaxReport}
    (h : Parse.program (front ++ e :: behind) = .done ns reports (e :: behind))
    (behind' : List Token) :
    Parse.program (front ++ e :: behind') = .done ns reports (e :: behind') := by
  have hres : program (front ++ [e] ++ behind) = .done ns reports (e :: [] ++ behind) := by
    simpa using h
  simpa using (Mirrors.program .id).done_of_done Node.map_relabel_id (Nat.le_refl _) hres behind'

/-- A relabeled text is read as relabeled trees, with relabeled reports. -/
theorem Parse.program_relabel {f : Token → Token} (hf : Relabeling f) {ts : List Token}
    (hts : ∃ t ∈ ts, t.kind = .endOfInput) {ns : List Node} {reports : List SyntaxReport}
    {rest : List Token} (h : Parse.program ts = .done ns reports rest) :
    Parse.program (ts.map f) =
      .done (ns.map (.relabel f)) (reports.map (.relabel f)) (rest.map f) := by
  obtain ⟨ns', reports', e, back, hres, -, -⟩ := program_total hts
  obtain ⟨rfl, rfl, rfl⟩ := Parsed.done.inj (h.symm.trans hres)
  have hmirrors := (Mirrors.program hf).mirrors ts [] [] (Nat.le_refl _) e back
  rw [List.append_nil, List.append_nil, List.append_nil, List.append_nil, hres] at hmirrors
  exact hmirrors rfl

end Lox
