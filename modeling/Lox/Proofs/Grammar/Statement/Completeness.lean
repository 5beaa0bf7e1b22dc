import Lox.Proofs.Grammar.Statement.Surplus

/-!
# The phrases of statements are read

As for expressions, every rule has a lemma of its own, and lists may be too long. Behind an open
statement there must not be an `else`, which would become part of it.

## Main definitions

* `Statement.Symbol.Opens`: how a phrase starts.
* `Statement.Completes`: the reader of a phrase reads it.

## Main results

* `Statement.SpellsLong.yields`: a list of phrases is read as their trees, with their reports.
* `Statement.Spells.reads`: a list of phrases is read without a report, as their trees.
-/

namespace Lox

namespace Statement

/-! ### Where phrases begin -/

/-- The kinds of tokens that a statement starts with. -/
def statementKinds : List Kind :=
  [.kwFor, .kwWhile, .kwIf, .kwPrint, .kwReturn, .leftBrace] ++ Expression.openingKinds

/-- The kinds of tokens that a declaration starts with. -/
def declarationKinds : List Kind := .kwFun :: .kwVar :: statementKinds

/-- How the tokens of a phrase start, if there have to be any. -/
def Symbol.Opens (us : List Token) : Symbol → Prop
  | declarations => True
  | declaration => StartsIn declarationKinds us
  | statement _ => StartsIn statementKinds us

theorem SpellsLong.opens {s : Symbol} {ns : List Node} {rs : List SyntaxReport} {us : List Token}
    (h : SpellsLong s ns rs us) : s.Opens us := by
  induction h with
  | nil | cons => trivial
  | statement _ ih => exact StartsIn.mono ih (by decide)
  | expression hended => exact hended.opens.mono (List.subset_append_right _ _)
  | _ => simp [Symbol.Opens, declarationKinds, statementKinds, *]

theorem Spells.opens {s : Symbol} {ns : List Node} {us : List Token} (h : Spells s ns us) :
    s.Opens us :=
  h.long.opens

/-- No declaration starts with an `else`, so none of those before becomes longer by it. -/
theorem SpellsLong.startsOutside_declarations {ns : List Node} {rs : List SyntaxReport}
    {us rest : List Token} (h : SpellsLong .declarations ns rs us)
    (hrest : StartsOutside [.kwElse] rest) : StartsOutside [.kwElse] (us ++ rest) := by
  cases h with
  | nil => exact hrest
  | cons hn _ => exact ((hn.opens.append _).append rest).outside (by decide)

theorem Spells.startsOutside_declarations {ns : List Node} {us rest : List Token}
    (h : Spells .declarations ns us) (hrest : StartsOutside [.kwElse] rest) :
    StartsOutside [.kwElse] (us ++ rest) :=
  h.long.startsOutside_declarations hrest

/-! ### A phrase is read -/

/-- A reader of declarations which has a bound for every list of at most `length` tokens. -/
def Adequate (length : Nat) (entry : Parse (Option Node)) : Prop :=
  ∀ ts : List Token, ts.length ≤ length → ∃ bound, ts.length ≤ bound ∧
    entry ts = (strictDeclaration (bound + 1) (readers bound)).recovering ts

/-- The tokens are read as the trees, and with the reports, if nothing behind them belongs to
them. -/
def Completes (ns : List Node) (rs : List SyntaxReport) (us : List Token) : Symbol → Prop
  | .declarations =>
    ∀ (closers : List Kind) (entry : Parse (Option Node)) (steps : Nat) (rest : List Token),
      closers ⊆ [.rightBrace, .endOfInput] → StartsIn closers rest →
        Adequate (us.length + rest.length) entry → us.length < steps →
          (Parse.upTo closers entry steps).Yields (us ++ rest) ns rs rest
  | .declaration =>
    ∀ (n : Node) (bound : Nat) (rest : List Token), ns = [n] → us.length + rest.length ≤ bound →
      StartsOutside [.kwElse] rest →
        (strictDeclaration (bound + 1) (readers bound)).Yields (us ++ rest) n rs rest
  | .statement isOpen =>
    ∀ (n : Node) (bound : Nat) (rest : List Token), ns = [n] → us.length + rest.length ≤ bound →
      (isOpen = true → StartsOutside [.kwElse] rest) →
        (statement (bound + 1) (readers bound)).Yields (us ++ rest) n rs rest

namespace Completes

variable {n body thenBranch elseBranch condition : Node} {ns : List Node}
variable {rs rs' rs'' rs''' : List SyntaxReport} {us vs cs rest : List Token}
variable {bound : Nat} {isOpen : Bool}

/-- A statement behind a token is read by the reader with the smaller bound. -/
theorem again (h : Completes [n] rs us (.statement isOpen))
    (hlength : us.length + rest.length < bound)
    (hrest : isOpen = true → StartsOutside [.kwElse] rest) :
    (readers bound).statement.Yields (us ++ rest) n rs rest := by
  obtain ⟨bound, rfl⟩ : ∃ b, bound = b + 1 := ⟨bound - 1, by omega⟩
  exact h n bound rest rfl (by omega) hrest

/-- So are the declarations of a block. -/
theorem block (h : Completes ns rs us .declarations) {right : Token}
    (hright : right.kind = .rightBrace) (hlength : us.length + rest.length + 1 < bound) :
    (Statement.block (bound + 1) (readers bound)).Yields (us ++ right :: rest) ns rs rest := by
  obtain ⟨bound, rfl⟩ : ∃ b, bound = b + 1 := ⟨bound - 1, by omega⟩
  have hadequate : Adequate (us.length + (right :: rest).length) (readers (bound + 1)).declaration := by
    intro ts hts
    rw [List.length_cons] at hts
    exact ⟨bound, by omega, rfl⟩
  have readDeclarations := h [.rightBrace, .endOfInput] _ (bound + 2) (right :: rest)
    (List.Subset.refl _) (by simp [hright]) hadequate (by omega)
  rw [← List.append_nil rs]
  exact readDeclarations.bind (.expect hright (.pure _ _))

theorem nil : Completes [] [] [] .declarations := by
  intro closers entry steps rest _ hrest _ hsteps
  obtain ⟨steps, rfl⟩ : ∃ s, steps = s + 1 := ⟨steps - 1, by simp at hsteps; omega⟩
  exact .upTo_closed hrest steps

theorem cons (hopens : StartsIn declarationKinds us) (h : Completes [n] rs us .declaration)
    (hspells : SpellsLong .declarations ns rs' vs) (hns : Completes ns rs' vs .declarations) :
    Completes (n :: ns) (rs ++ rs') (us ++ vs) .declarations := by
  intro closers entry steps rest hclosers hrest hadequate hsteps
  rw [List.length_append] at hsteps
  obtain ⟨steps, rfl⟩ : ∃ s, steps = s + 1 := ⟨steps - 1, by omega⟩
  have hpos : 0 < us.length := List.length_pos_iff.mpr hopens.ne_nil
  obtain ⟨bound, hbound, hentry⟩ := hadequate (us ++ (vs ++ rest)) (by simp; omega)
  rw [List.length_append] at hbound
  have hstops := hspells.startsOutside_declarations ((hrest.mono hclosers).outside (by decide))
  have readStrict := h n bound (vs ++ rest) rfl hbound hstops
  have readFirst : entry.Yields (us ++ (vs ++ rest)) (some n) rs (vs ++ rest) :=
    hentry.trans readStrict.recovering
  have readOthers := hns closers entry steps rest hclosers hrest
    (fun ts hts => hadequate ts (by simp; omega)) (by omega)
  have hout : StartsOutside closers (us ++ (vs ++ rest)) := by
    have hkinds : ∀ kind ∈ declarationKinds, kind ∉ [Kind.rightBrace, .endOfInput] := by decide
    exact (hopens.append _).outside fun kind hkind hcloser => hkinds kind hkind (hclosers hcloser)
  rw [List.append_assoc]
  exact .upTo_entered hout readFirst readOthers

/-- A function is read whatever is behind it. -/
theorem yields_function {keyword name opening closing left right : Token} {params ps : List Token}
    {body : List Node} (hkeyword : keyword.kind = .kwFun) (hname : name.kind = .identifier)
    (hopening : opening.kind = .leftParen) (hparams : ParametersLong params ps)
    (hclosing : closing.kind = .rightParen) (hleft : left.kind = .leftBrace)
    (hbody : Completes body rs us .declarations) (hright : right.kind = .rightBrace)
    (hlength : ps.length + us.length + rest.length + 5 < bound) :
    (strictDeclaration (bound + 1) (readers bound)).Yields
      (keyword :: name :: opening :: (ps ++ closing :: left :: (us ++ right :: rest)))
      (.function name params body) (parameterReports params ++ rs) rest := by
  have readBody : (Statement.block (bound + 1) (readers bound)).Yields (us ++ right :: rest) body
      rs rest := hbody.block hright (by omega)
  have readParameters : (parameters (bound + 1)).Yields
      (ps ++ closing :: left :: (us ++ right :: rest)) params (parameterReports params)
      (closing :: left :: (us ++ right :: rest)) :=
    hparams.yields (by omega) (by simp [hclosing])
  refine .accept (by simp [hkeyword]) ?_
  dsimp only
  rw [if_pos hkeyword]
  refine .expect hname (.expect hopening (readParameters.bind (.expect hclosing ?_)))
  exact .expect hleft readBody.bind_pure

theorem function {keyword name opening closing left right : Token} {params ps : List Token}
    {body : List Node} (hkeyword : keyword.kind = .kwFun) (hname : name.kind = .identifier)
    (hopening : opening.kind = .leftParen) (hparams : ParametersLong params ps)
    (hclosing : closing.kind = .rightParen) (hleft : left.kind = .leftBrace)
    (hbody : Completes body rs us .declarations) (hright : right.kind = .rightBrace) :
    Completes [.function name params body] (parameterReports params ++ rs)
      (keyword :: name :: opening :: (ps ++ closing :: left :: (us ++ [right]))) .declaration := by
  rintro _ bound rest ⟨rfl⟩ hlength _
  simp only [List.length_cons, List.length_append, List.length_nil] at hlength
  have hread := yields_function hkeyword hname hopening hparams hclosing hleft hbody hright
    (show ps.length + us.length + rest.length + 5 < bound by omega)
  simpa using hread

theorem declared {keyword : Token} (hkeyword : keyword.kind = .kwVar) (h : VariableLong n rs us) :
    Completes [n] rs (keyword :: us) .declaration := by
  rintro _ bound rest ⟨rfl⟩ _ _
  refine .accept (by simp [hkeyword]) ?_
  dsimp only
  rw [hkeyword, if_neg (by decide)]
  exact h.yields rest

theorem statement (hopens : StartsIn statementKinds us)
    (h : Completes [n] rs us (.statement isOpen)) : Completes [n] rs us .declaration := by
  rintro _ bound rest ⟨rfl⟩ hlength hrest
  have readStatement := h n bound rest rfl hlength fun _ => hrest
  exact .skip ((hopens.append rest).outside (by decide)) readStatement

theorem expression (h : EndedLong .semicolon n rs us) :
    Completes [.expression n] rs us (.statement false) := by
  rintro _ bound rest ⟨rfl⟩ _ _
  refine .skip ((h.opens.append rest).outside (by decide)) ?_
  exact (h.yields (by decide) .expressionEnd rest).bind_pure

theorem print {keyword : Token} (hkeyword : keyword.kind = .kwPrint)
    (h : EndedLong .semicolon n rs us) :
    Completes [.print n] rs (keyword :: us) (.statement false) := by
  rintro _ bound rest ⟨rfl⟩ _ _
  refine .accept (by simp [hkeyword]) ?_
  simp only [hkeyword]
  exact (h.yields (by decide) .printEnd rest).bind_pure

theorem returning {keyword : Token} {value : Option Node} (hkeyword : keyword.kind = .kwReturn)
    (h : OptionallyEndedLong .semicolon value rs us) :
    Completes [.returning keyword value] rs (keyword :: us) (.statement false) := by
  rintro _ bound rest ⟨rfl⟩ _ _
  refine .accept (by simp [hkeyword]) ?_
  simp only [hkeyword]
  exact (h.yields (by decide) .returnEnd rest).bind_pure

theorem ofBlock {left right : Token} (hleft : left.kind = .leftBrace)
    (hns : Completes ns rs us .declarations) (hright : right.kind = .rightBrace) :
    Completes [.block ns] rs (left :: (us ++ [right])) (.statement false) := by
  rintro _ bound rest ⟨rfl⟩ hlength _
  simp only [List.length_cons, List.length_append, List.length_nil] at hlength
  have readBlock : (Statement.block (bound + 1) (readers bound)).Yields (us ++ right :: rest) ns
      rs rest := hns.block hright (by omega)
  have happend : left :: (us ++ [right]) ++ rest = left :: (us ++ right :: rest) := by simp
  rw [happend]
  refine .accept (by simp [hleft]) ?_
  simp only [hleft]
  exact readBlock.bind_pure

theorem branch {keyword : Token} (hkeyword : keyword.kind = .kwIf)
    (hcondition : ConditionLong condition rs cs)
    (hthen : Completes [thenBranch] rs' us (.statement isOpen)) :
    Completes [.branch condition thenBranch none] (rs ++ rs') (keyword :: (cs ++ us))
      (.statement true) := by
  rintro _ bound rest ⟨rfl⟩ hlength hrest
  simp only [List.length_cons, List.length_append] at hlength
  have readThen : (readers bound).statement.Yields (us ++ rest) thenBranch rs' rest :=
    hthen.again (by omega) fun _ => hrest rfl
  rw [List.cons_append, List.append_assoc, ← List.append_nil rs']
  refine .accept (by simp [hkeyword]) ?_
  simp only [hkeyword]
  refine (hcondition.yields .ifParen .ifEnd _).bind (readThen.bind ?_)
  exact Parse.Yields.bind_pure (.skip (hrest rfl) (.pure _ _))

theorem branchElse {keyword keywordElse : Token} (hkeyword : keyword.kind = .kwIf)
    (hcondition : ConditionLong condition rs cs)
    (hthen : Completes [thenBranch] rs' us (.statement false))
    (hkeywordElse : keywordElse.kind = .kwElse)
    (helse : Completes [elseBranch] rs'' vs (.statement isOpen)) :
    Completes [.branch condition thenBranch (some elseBranch)] (rs ++ (rs' ++ rs''))
      (keyword :: (cs ++ (us ++ keywordElse :: vs))) (.statement isOpen) := by
  rintro _ bound rest ⟨rfl⟩ hlength hrest
  simp only [List.length_cons, List.length_append] at hlength
  have readThen : (readers bound).statement.Yields (us ++ keywordElse :: (vs ++ rest)) thenBranch
      rs' (keywordElse :: (vs ++ rest)) := hthen.again (by simp; omega) (by simp)
  have readElse : (readers bound).statement.Yields (vs ++ rest) elseBranch rs'' rest :=
    helse.again (by omega) hrest
  have happend : keyword :: (cs ++ (us ++ keywordElse :: vs)) ++ rest =
      keyword :: (cs ++ (us ++ keywordElse :: (vs ++ rest))) := by simp
  rw [happend]
  refine .accept (by simp [hkeyword]) ?_
  simp only [hkeyword]
  refine (hcondition.yields .ifParen .ifEnd _).bind (readThen.bind ?_)
  exact Parse.Yields.bind_pure (.accept (by simp [hkeywordElse]) (readElse.map some))

theorem whileLoop {keyword : Token} (hkeyword : keyword.kind = .kwWhile)
    (hcondition : ConditionLong condition rs cs)
    (hbody : Completes [body] rs' us (.statement isOpen)) :
    Completes [.loop condition body] (rs ++ rs') (keyword :: (cs ++ us)) (.statement isOpen) := by
  rintro _ bound rest ⟨rfl⟩ hlength hrest
  simp only [List.length_cons, List.length_append] at hlength
  have readBody : (readers bound).statement.Yields (us ++ rest) body rs' rest :=
    hbody.again (by omega) hrest
  rw [List.cons_append, List.append_assoc]
  refine .accept (by simp [hkeyword]) ?_
  simp only [hkeyword]
  exact (hcondition.yields .whileParen .whileEnd _).bind readBody.bind_pure

theorem forLoop {keyword opening : Token} {initializer condition increment : Option Node}
    {is es : List Token} (hkeyword : keyword.kind = .kwFor) (hopening : opening.kind = .leftParen)
    (hinitializer : InitializerLong initializer rs is)
    (hcondition : OptionallyEndedLong .semicolon condition rs' cs)
    (hincrement : OptionallyEndedLong .rightParen increment rs'' es)
    (hbody : Completes [body] rs''' us (.statement isOpen)) :
    Completes [desugarFor initializer condition increment body]
      (rs ++ (rs' ++ (rs'' ++ rs'''))) (keyword :: opening :: (is ++ (cs ++ (es ++ us))))
      (.statement isOpen) := by
  rintro _ bound rest ⟨rfl⟩ hlength hrest
  simp only [List.length_cons, List.length_append] at hlength
  have readBody : (readers bound).statement.Yields (us ++ rest) body rs''' rest :=
    hbody.again (by omega) hrest
  have happend : keyword :: opening :: (is ++ (cs ++ (es ++ us))) ++ rest =
      keyword :: opening :: (is ++ (cs ++ (es ++ (us ++ rest)))) := by simp
  rw [happend]
  refine .accept (by simp [hkeyword]) ?_
  simp only [hkeyword]
  refine .expect hopening ((hinitializer.yields _).bind ?_)
  refine (hcondition.yields (by decide) .loopConditionEnd _).bind ?_
  exact (hincrement.yields (by decide) .forEnd _).bind readBody.bind_pure

end Completes

theorem SpellsLong.completes {s : Symbol} {ns : List Node} {rs : List SyntaxReport}
    {us : List Token} (h : SpellsLong s ns rs us) : Completes ns rs us s := by
  induction h with
  | nil => exact .nil
  | cons h hns ih ih' => exact .cons h.opens ih hns ih'
  | function hkeyword hname hopening hparams hclosing hleft _ hright ih =>
    exact .function hkeyword hname hopening hparams hclosing hleft ih hright
  | declared hkeyword h => exact .declared hkeyword h
  | statement h ih => exact .statement h.opens ih
  | expression h => exact .expression h
  | print hkeyword h => exact .print hkeyword h
  | returning hkeyword h => exact .returning hkeyword h
  | block hleft _ hright ih => exact .ofBlock hleft ih hright
  | branch hkeyword hcondition _ ih => exact .branch hkeyword hcondition ih
  | branchElse hkeyword hcondition _ hkeywordElse _ ih ih' =>
    exact .branchElse hkeyword hcondition ih hkeywordElse ih'
  | whileLoop hkeyword hcondition _ ih => exact .whileLoop hkeyword hcondition ih
  | forLoop hkeyword hopening hinitializer hcondition hincrement _ ih =>
    exact .forLoop hkeyword hopening hinitializer hcondition hincrement ih

theorem Spells.completes {s : Symbol} {ns : List Node} {us : List Token} (h : Spells s ns us) :
    Completes ns [] us s :=
  h.long.completes

/-- A list of phrases in front of an end of input is read as their trees, with their reports. -/
theorem SpellsLong.yields {ns : List Node} {rs : List SyntaxReport} {us rest : List Token}
    (h : SpellsLong .declarations ns rs us) (hrest : StartsIn [.endOfInput] rest) :
    Parse.program.Yields (us ++ rest) ns rs rest := by
  have hadequate : Adequate (us.length + rest.length) Parse.declaration :=
    fun ts _ => ⟨ts.length, Nat.le_refl _, rfl⟩
  exact h.completes [.endOfInput] Parse.declaration _ rest (by simp) hrest hadequate
    (by rw [List.length_append]; omega)

/-- A list of phrases in front of an end of input is read as their trees, without a report. -/
theorem Spells.reads {ns : List Node} {us rest : List Token} (h : Spells .declarations ns us)
    (hrest : StartsIn [.endOfInput] rest) : Parse.program.Reads (us ++ rest) ns rest :=
  h.long.yields hrest

end Statement

end Lox
