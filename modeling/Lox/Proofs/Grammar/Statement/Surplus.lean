import Lox.Proofs.Grammar.Statement

/-!
# Statements with long lists

The phrases of statements once more, with lists of any length: those of the arguments in their
expressions and those of the parameters of functions. The reports of a phrase are those of its parts,
in the order of its tokens, and a list of parameters is reported like one of arguments.

## Main definitions

* `Statement.EndedLong`, `Statement.ConditionLong` and the like: the clauses of statements.
* `Statement.SpellsLong`: tokens spell some trees, with some reports.

## Main results

* `Statement.EndedLong.yields` and the like: the clauses are read, with their reports.
* `Statement.Spells.long`: the phrases of statements have no reports.
-/

namespace Lox

namespace Statement

/-! ### Clauses -/

/-- An expression and a token behind it. -/
def EndedLong (kind : Kind) (n : Node) (rs : List SyntaxReport) (us : List Token) : Prop :=
  ∃ vs t, us = vs ++ [t] ∧ t.kind = kind ∧ Expression.SpellsLong 0 .assignment [n] rs vs

/-- An expression that may be left out, and a token behind it. -/
inductive OptionallyEndedLong (kind : Kind) : Option Node → List SyntaxReport → List Token → Prop
  | none {t : Token} (ht : t.kind = kind) : OptionallyEndedLong kind none [] [t]
  | some {n : Node} {rs : List SyntaxReport} {us : List Token} (h : EndedLong kind n rs us) :
      OptionallyEndedLong kind (some n) rs us

/-- An expression in parentheses. -/
def ConditionLong (n : Node) (rs : List SyntaxReport) (us : List Token) : Prop :=
  ∃ t vs, us = t :: vs ∧ t.kind = .leftParen ∧ EndedLong .rightParen n rs vs

/-- The declaration of a variable behind its keyword. -/
inductive VariableLong : Node → List SyntaxReport → List Token → Prop
  | bare {name t : Token} (hname : name.kind = .identifier) (ht : t.kind = .semicolon) :
      VariableLong (.declare name none) [] [name, t]
  | initialized {name equals : Token} {n : Node} {rs : List SyntaxReport} {us : List Token}
      (hname : name.kind = .identifier) (hequals : equals.kind = .equal)
      (h : EndedLong .semicolon n rs us) :
      VariableLong (.declare name (some n)) rs (name :: equals :: us)

/-- The first clause of a `for` loop. -/
inductive InitializerLong : Option Node → List SyntaxReport → List Token → Prop
  | none {t : Token} (ht : t.kind = .semicolon) : InitializerLong none [] [t]
  | declared {keyword : Token} {n : Node} {rs : List SyntaxReport} {us : List Token}
      (hkeyword : keyword.kind = .kwVar) (h : VariableLong n rs us) :
      InitializerLong (some n) rs (keyword :: us)
  | expression {n : Node} {rs : List SyntaxReport} {us : List Token}
      (h : EndedLong .semicolon n rs us) : InitializerLong (some (.expression n)) rs us

/-- The parameters of a function. -/
structure ParametersLong (params ps : List Token) : Prop where
  separated : Separated (params.map ([·])) ps
  identifiers : ∀ p ∈ params, p.kind = .identifier

/-- What is reported of the parameters of a function. -/
def parameterReports (params : List Token) : List SyntaxReport :=
  Parse.listReports .tooManyParameters 0 (params.map ([·]))

/-! ### Statements and declarations -/

/-- The tokens spell the trees as a phrase of some kind whose lists may be too long, which is
reported. -/
inductive SpellsLong : Symbol → List Node → List SyntaxReport → List Token → Prop
  | nil : SpellsLong .declarations [] [] []
  | cons {n : Node} {ns : List Node} {rs rs' : List SyntaxReport} {us vs : List Token}
      (h : SpellsLong .declaration [n] rs us) (hns : SpellsLong .declarations ns rs' vs) :
      SpellsLong .declarations (n :: ns) (rs ++ rs') (us ++ vs)
  | function {keyword name opening closing left right : Token} {params ps us : List Token}
      {body : List Node} {rs : List SyntaxReport} (hkeyword : keyword.kind = .kwFun)
      (hname : name.kind = .identifier) (hopening : opening.kind = .leftParen)
      (hparams : ParametersLong params ps) (hclosing : closing.kind = .rightParen)
      (hleft : left.kind = .leftBrace) (hbody : SpellsLong .declarations body rs us)
      (hright : right.kind = .rightBrace) :
      SpellsLong .declaration [.function name params body] (parameterReports params ++ rs)
        (keyword :: name :: opening :: (ps ++ closing :: left :: (us ++ [right])))
  | declared {keyword : Token} {n : Node} {rs : List SyntaxReport} {us : List Token}
      (hkeyword : keyword.kind = .kwVar) (h : VariableLong n rs us) :
      SpellsLong .declaration [n] rs (keyword :: us)
  | statement {isOpen : Bool} {n : Node} {rs : List SyntaxReport} {us : List Token}
      (h : SpellsLong (.statement isOpen) [n] rs us) : SpellsLong .declaration [n] rs us
  | expression {n : Node} {rs : List SyntaxReport} {us : List Token}
      (h : EndedLong .semicolon n rs us) : SpellsLong (.statement false) [.expression n] rs us
  | print {keyword : Token} {n : Node} {rs : List SyntaxReport} {us : List Token}
      (hkeyword : keyword.kind = .kwPrint) (h : EndedLong .semicolon n rs us) :
      SpellsLong (.statement false) [.print n] rs (keyword :: us)
  | returning {keyword : Token} {value : Option Node} {rs : List SyntaxReport} {us : List Token}
      (hkeyword : keyword.kind = .kwReturn) (h : OptionallyEndedLong .semicolon value rs us) :
      SpellsLong (.statement false) [.returning keyword value] rs (keyword :: us)
  | block {left right : Token} {ns : List Node} {rs : List SyntaxReport} {us : List Token}
      (hleft : left.kind = .leftBrace) (hns : SpellsLong .declarations ns rs us)
      (hright : right.kind = .rightBrace) :
      SpellsLong (.statement false) [.block ns] rs (left :: (us ++ [right]))
  | branch {keyword : Token} {isOpen : Bool} {condition thenBranch : Node}
      {rs rs' : List SyntaxReport} {cs us : List Token} (hkeyword : keyword.kind = .kwIf)
      (hcondition : ConditionLong condition rs cs)
      (hthen : SpellsLong (.statement isOpen) [thenBranch] rs' us) :
      SpellsLong (.statement true) [.branch condition thenBranch none] (rs ++ rs')
        (keyword :: (cs ++ us))
  | branchElse {keyword keywordElse : Token} {isOpen : Bool}
      {condition thenBranch elseBranch : Node} {rs rs' rs'' : List SyntaxReport}
      {cs us vs : List Token} (hkeyword : keyword.kind = .kwIf)
      (hcondition : ConditionLong condition rs cs)
      (hthen : SpellsLong (.statement false) [thenBranch] rs' us)
      (hkeywordElse : keywordElse.kind = .kwElse)
      (helse : SpellsLong (.statement isOpen) [elseBranch] rs'' vs) :
      SpellsLong (.statement isOpen) [.branch condition thenBranch (some elseBranch)]
        (rs ++ (rs' ++ rs'')) (keyword :: (cs ++ (us ++ keywordElse :: vs)))
  | whileLoop {keyword : Token} {isOpen : Bool} {condition body : Node}
      {rs rs' : List SyntaxReport} {cs us : List Token} (hkeyword : keyword.kind = .kwWhile)
      (hcondition : ConditionLong condition rs cs)
      (hbody : SpellsLong (.statement isOpen) [body] rs' us) :
      SpellsLong (.statement isOpen) [.loop condition body] (rs ++ rs') (keyword :: (cs ++ us))
  | forLoop {keyword opening : Token} {isOpen : Bool}
      {initializer condition increment : Option Node} {body : Node}
      {rs rs' rs'' rs''' : List SyntaxReport} {is cs es us : List Token}
      (hkeyword : keyword.kind = .kwFor) (hopening : opening.kind = .leftParen)
      (hinitializer : InitializerLong initializer rs is)
      (hcondition : OptionallyEndedLong .semicolon condition rs' cs)
      (hincrement : OptionallyEndedLong .rightParen increment rs'' es)
      (hbody : SpellsLong (.statement isOpen) [body] rs''' us) :
      SpellsLong (.statement isOpen) [desugarFor initializer condition increment body]
        (rs ++ (rs' ++ (rs'' ++ rs'''))) (keyword :: opening :: (is ++ (cs ++ (es ++ us))))

/-! ### Nothing is reported of lists that are not too long -/

theorem Ended.long {kind : Kind} {n : Node} {us : List Token} (h : Ended kind n us) :
    EndedLong kind n [] us := by
  obtain ⟨vs, t, rfl, ht, hspells⟩ := h
  exact ⟨vs, t, rfl, ht, hspells.long rfl⟩

theorem OptionallyEnded.long {kind : Kind} {o : Option Node} {us : List Token}
    (h : OptionallyEnded kind o us) : OptionallyEndedLong kind o [] us := by
  cases h with
  | none ht => exact .none ht
  | some h => exact .some h.long

theorem Condition.long {n : Node} {us : List Token} (h : Condition n us) :
    ConditionLong n [] us := by
  obtain ⟨t, vs, rfl, ht, hended⟩ := h
  exact ⟨t, vs, rfl, ht, hended.long⟩

theorem Variable.long {n : Node} {us : List Token} (h : Variable n us) : VariableLong n [] us := by
  cases h with
  | bare hname ht => exact .bare hname ht
  | initialized hname hequals h => exact .initialized hname hequals h.long

theorem Initializer.long {o : Option Node} {us : List Token} (h : Initializer o us) :
    InitializerLong o [] us := by
  cases h with
  | none ht => exact .none ht
  | declared hkeyword h => exact .declared hkeyword h.long
  | expression h => exact .expression h.long

theorem Listed.long {ps us : List Token} (h : Listed ps us) : ParametersLong ps us := by
  induction h with
  | last hp => exact ⟨.last _, by simpa using hp⟩
  | @cons p comma ps us hp hcomma h ih =>
    refine ⟨?_, List.forall_mem_cons.mpr ⟨hp, ih.identifiers⟩⟩
    obtain ⟨q, ps, rfl⟩ : ∃ q qs, ps = q :: qs := by
      cases h with
      | last | cons => exact ⟨_, _, rfl⟩
    exact .cons hcomma ih.separated

theorem Parameters.long {params ps : List Token} (h : Parameters params ps) :
    ParametersLong params ps := by
  cases h with
  | none => exact ⟨.none, List.forall_mem_nil _⟩
  | some _ h => exact h.long

theorem Parameters.parameterReports_eq {params ps : List Token} (h : Parameters params ps) :
    parameterReports params = [] := by
  refine Parse.listReports_of_le ?_
  rw [Nat.zero_add, List.length_map]
  cases h with
  | none => exact Nat.zero_le _
  | some hlength => exact hlength

theorem Spells.long {s : Symbol} {ns : List Node} {us : List Token} (h : Spells s ns us) :
    SpellsLong s ns [] us := by
  induction h with
  | nil => exact .nil
  | cons _ _ ih ih' => exact .cons ih ih'
  | function hkeyword hname hopening hparams hclosing hleft _ hright ih =>
    have hlong := SpellsLong.function hkeyword hname hopening hparams.long hclosing hleft ih hright
    rwa [hparams.parameterReports_eq] at hlong
  | declared hkeyword h => exact .declared hkeyword h.long
  | statement _ ih => exact .statement ih
  | expression h => exact .expression h.long
  | print hkeyword h => exact .print hkeyword h.long
  | returning hkeyword h => exact .returning hkeyword h.long
  | block hleft _ hright ih => exact .block hleft ih hright
  | branch hkeyword hcondition _ ih => exact .branch hkeyword hcondition.long ih
  | branchElse hkeyword hcondition _ hkeywordElse _ ih ih' =>
    exact .branchElse hkeyword hcondition.long ih hkeywordElse ih'
  | whileLoop hkeyword hcondition _ ih => exact .whileLoop hkeyword hcondition.long ih
  | forLoop hkeyword hopening hinitializer hcondition hincrement _ ih =>
    exact .forLoop hkeyword hopening hinitializer.long hcondition.long hincrement.long ih

/-! ### The clauses are read -/

section Clauses

variable {kind : Kind} {n : Node} {o : Option Node} {rs : List SyntaxReport}
variable {us params ps rest : List Token}

theorem EndedLong.opens (h : EndedLong kind n rs us) : StartsIn Expression.openingKinds us := by
  obtain ⟨vs, t, rfl, -, hspells⟩ := h
  exact StartsIn.append hspells.opens _

/-- The expression is read up to the token behind it. -/
theorem EndedLong.yields_expression (hkind : Ends kind) (h : EndedLong kind n rs us)
    (rest : List Token) :
    ∃ t, t.kind = kind ∧ Parse.expression.Yields (us ++ rest) n rs (t :: rest) := by
  obtain ⟨vs, t, rfl, ht, hspells⟩ := h
  refine ⟨t, ht, ?_⟩
  rw [List.append_assoc]
  exact hspells.yields (ht ▸ hkind.2 : t.kind ∉ _)

theorem EndedLong.yields (hkind : Ends kind) (h : EndedLong kind n rs us)
    (problem : SyntaxProblem) (rest : List Token) :
    (expressionThen kind problem).Yields (us ++ rest) n rs rest := by
  obtain ⟨t, ht, hexpression⟩ := h.yields_expression hkind rest
  rw [← List.append_nil rs]
  exact hexpression.bind (.expect ht (.pure _ _))

theorem OptionallyEndedLong.yields (hkind : Ends kind) (h : OptionallyEndedLong kind o rs us)
    (problem : SyntaxProblem) (rest : List Token) :
    (optionalThen kind problem).Yields (us ++ rest) o rs rest := by
  rw [← List.append_nil rs]
  cases h with
  | none ht =>
    exact Parse.Yields.bind (.closed (List.mem_singleton.mpr ht) (.pure _ _))
      (.expect ht (.pure _ _))
  | some h =>
    obtain ⟨t, ht, hexpression⟩ := h.yields_expression hkind rest
    have hopens := hkind.outside (h.opens.append rest)
    exact Parse.Yields.bind (.entered hopens (hexpression.map Option.some)) (.expect ht (.pure _ _))

theorem ConditionLong.yields (h : ConditionLong n rs us) (opening closing : SyntaxProblem)
    (rest : List Token) : (condition opening closing).Yields (us ++ rest) n rs rest := by
  obtain ⟨t, vs, rfl, ht, hended⟩ := h
  exact .expect ht (hended.yields (by decide) closing rest)

theorem VariableLong.yields (h : VariableLong n rs us) (rest : List Token) :
    variableDeclaration.Yields (us ++ rest) n rs rest := by
  rw [← List.append_nil rs]
  cases h with
  | bare hname ht =>
    exact .expect hname (Parse.Yields.bind (.skip (by simp [ht]) (.pure _ _))
      (.expect ht (.pure _ _)))
  | initialized hname hequals h =>
    obtain ⟨t, ht, hexpression⟩ := h.yields_expression (by decide) rest
    exact .expect hname (Parse.Yields.bind
      (.accept (by simp [hequals]) (hexpression.map some)) (.expect ht (.pure _ _)))

theorem InitializerLong.yields (h : InitializerLong o rs us) (rest : List Token) :
    forInitializer.Yields (us ++ rest) o rs rest := by
  cases h with
  | none ht =>
    refine .accept (by simp [ht]) ?_
    dsimp only
    rw [if_pos ht]
    exact .pure _ _
  | declared hkeyword h =>
    refine .accept (by simp [hkeyword]) ?_
    dsimp only
    rw [hkeyword, if_neg (by decide)]
    exact (h.yields rest).map some
  | expression h =>
    refine .skip ((h.opens.append rest).outside (by decide)) (Parse.Yields.map ?_ some)
    exact (h.yields (by decide) .expressionEnd rest).bind_pure

theorem ParametersLong.yields (h : ParametersLong params ps) {bound : Nat}
    (hlength : ps.length < bound) (hrest : StartsIn [.rightParen] rest) :
    (parameters bound).Yields (ps ++ rest) params (parameterReports params) rest := by
  have hread : List.Forall₂ (fun us p => us ≠ [] ∧ ∀ mid,
      (Parse.expect .identifier .parameterName).Yields (us ++ mid) p [] mid)
      (params.map ([·])) params := by
    rw [List.forall₂_map_left_iff, List.forall₂_same]
    exact fun p hp => ⟨List.cons_ne_nil _ _, Parse.expect_of_eq (h.identifiers p hp) _⟩
  obtain ⟨hps, hnames⟩ := h
  cases params with
  | nil =>
    cases hps
    exact .closed hrest (.pure _ _)
  | cons p params =>
    have hopens : StartsIn [.identifier] ps := by
      have hp := hnames p List.mem_cons_self
      rw [List.map_cons] at hps
      generalize params.map ([·]) = uss at hps
      cases hps with
      | last | cons => exact List.mem_singleton.mpr hp
    exact .entered ((hopens.append rest).outside (by decide)) (.entries_separated hps hread
      (List.cons_ne_nil _ _) hlength (hrest.outside (by decide)))

theorem Parameters.reads (h : Parameters params ps) {bound : Nat} (hlength : ps.length < bound)
    (hrest : StartsIn [.rightParen] rest) : (parameters bound).Reads (ps ++ rest) params rest := by
  have hread := h.long.yields hlength hrest
  rwa [h.parameterReports_eq] at hread

end Clauses

end Statement

end Lox
