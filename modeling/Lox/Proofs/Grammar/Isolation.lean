import Lox.Proofs.Grammar.Resumption
import Lox.Proofs.Grammar.Sequence
import Lox.Proofs.Grammar.Viability

/-!
# Simple statements are isolated

A simple statement ends with a semicolon: a variable declaration, a `print` or `return` statement,
or an expression. Whether it is well formed or not, an error in it does not reach behind its
semicolon. No expression takes a semicolon, so that the error is found at the semicolon or in front
of it; and reading goes on behind it, since nothing in front of it ends a statement or begins one.

Where a reader stops in front of a semicolon or right behind it, the tokens up to there settle what
it answers: it answers the same whatever follows.

## Main definitions

* `Parse.Settled`: the answer of a reader does not depend on what follows.
* `Parse.StopsBefore`, `Parse.Concludes`: a reader stops in front of a semicolon, or takes it last.
* `Statement.Simple`: the tokens of a simple statement, well formed or not.

## Main results

* `Parse.StopsBefore.expression`: expressions stop in front of a semicolon.
* `Parse.program_isolated`: a simple statement in front of any other tokens.
-/

namespace Lox

/-! ### The kinds of tokens in expressions -/

/-- The kinds of tokens that expressions are made of. -/
def Expression.kinds : List Kind :=
  Expression.openingKinds ++ Grammar.operators.flatten ++
    [.rightParen, .comma, .question, .colon, .equal]

namespace Grammar

/-- The symbols of parts of expressions. -/
def Symbol.InExpressions : Symbol → Prop
  | expression | ternary | unary | call | primary => True
  | tier levels => levels ⊆ operators
  | _ => False

theorem mem_commaSeparated {k : Kind} {ws : List (List Kind)} (h : k ∈ commaSeparated ws) :
    k = .comma ∨ ∃ w ∈ ws, k ∈ w := by
  fun_induction commaSeparated ws with
  | case1 => cases h
  | case2 w => exact .inr ⟨w, List.mem_singleton_self w, h⟩
  | case3 w w' ws ih =>
    rw [List.mem_append, List.mem_cons] at h
    obtain hk | rfl | hk := h
    · exact .inr ⟨w, List.mem_cons_self .., hk⟩
    · exact .inl rfl
    · exact (ih hk).imp_right fun ⟨v, hv, hkv⟩ => ⟨v, .tail _ hv, hkv⟩

/-- No other kinds occur in expressions. -/
theorem Admits.subset_kinds {s : Symbol} {w : List Kind} (h : Admits s w) (hs : s.InExpressions) :
    w ⊆ Expression.kinds := by
  induction h with
  | program | function | declared | stated | bare | initialized | forLoop | whileLoop | branch
  | branchElse | print | returning | block | evaluated | noInitializer | declaredFirst
  | evaluatedFirst | noClause | clause => exact hs.elim
  | assignment _ _ ih ih' =>
    exact List.append_subset.mpr ⟨ih trivial, List.cons_subset.mpr ⟨by decide, ih' trivial⟩⟩
  | choice _ ih | atom _ ih | tight _ ih => exact ih trivial
  | joins _ ih => exact ih (List.Subset.refl _)
  | ternary _ _ _ ih ih' ih'' =>
    refine List.append_subset.mpr ⟨ih (List.Subset.refl _), List.cons_subset.mpr ⟨by decide, ?_⟩⟩
    exact List.append_subset.mpr ⟨ih' trivial, List.cons_subset.mpr ⟨by decide, ih'' trivial⟩⟩
  | @join level levels u v k _ hk _ ih ih' =>
    obtain ⟨hlevel, hlevels⟩ := List.cons_subset.mp hs
    have hmem : k ∈ operators.flatten := List.mem_flatten.mpr ⟨level, hlevel, hk⟩
    refine List.append_subset.mpr ⟨ih hs, List.cons_subset.mpr ⟨?_, ih' hlevels⟩⟩
    simp [Expression.kinds, hmem]
  | tighter _ ih => exact ih (List.cons_subset.mp hs).2
  | operand _ ih => exact ih trivial
  | @unary k w hk _ ih =>
    have hsub : [Kind.bang, .minus] ⊆ Expression.kinds := by decide
    exact List.cons_subset.mpr ⟨hsub hk, ih trivial⟩
  | @call w ws _ _ ih ih' =>
    refine List.append_subset.mpr ⟨ih trivial, List.cons_subset.mpr ⟨by decide, ?_⟩⟩
    refine List.append_subset.mpr ⟨fun k hk => ?_, by decide⟩
    obtain rfl | ⟨v, hv, hkv⟩ := mem_commaSeparated hk
    · decide
    · exact ih' v hv trivial hkv
  | @constant k hk =>
    have hsub : [Kind.kwFalse, .kwTrue, .kwNil, .number, .string, .identifier] ⊆
        Expression.kinds := by decide
    exact List.cons_subset.mpr ⟨hsub hk, List.nil_subset _⟩
  | grouping _ ih =>
    exact List.cons_subset.mpr ⟨by decide, List.append_subset.mpr ⟨ih trivial, by decide⟩⟩

end Grammar

/-! ### Answers that are settled -/

/-- The answer with more tokens left. -/
def Parsed.followedBy {α : Type} (behind : List Token) : Parsed α → Parsed α
  | done a reports rest => done a reports (rest ++ behind)
  | stopped why reports rest => stopped why reports (rest ++ behind)

/-- The tokens `ts` settle that a reader answers with `r`: whatever is behind them is left. -/
def Parse.Settled {α : Type} (p : Parse α) (ts : List Token) (r : Parsed α) : Prop :=
  ∀ behind, p (ts ++ behind) = r.followedBy behind

namespace Parse.Settled

variable {α β : Type} {p : Parse α} {f : α → Parse β} {ts rest : List Token}
variable {reports : List SyntaxReport} {r : Parsed β}

theorem bind_done {a : α} (hp : p.Settled ts (.done a reports rest)) (hf : (f a).Settled rest r) :
    (p >>= f).Settled ts (r.after reports) := by
  intro behind
  rw [bind_of_done f (hp behind), hf behind]
  cases r <;> rfl

theorem bind_stopped {why : Stop} (hp : p.Settled ts (.stopped why reports rest)) :
    (p >>= f).Settled ts (.stopped why reports rest) :=
  fun behind => bind_of_stopped f (hp behind)

theorem check_of_mem {kinds : List Kind} {f : Bool → Parse β} {t : Token} (ht : t.kind ∈ kinds)
    (hf : (f true).Settled (t :: ts) r) : (check kinds >>= f).Settled (t :: ts) r :=
  fun behind => (check_bind_of_mem ht f _).trans (hf behind)

theorem check_of_not_mem {kinds : List Kind} {f : Bool → Parse β} {t : Token}
    (ht : t.kind ∉ kinds) (hf : (f false).Settled (t :: ts) r) :
    (check kinds >>= f).Settled (t :: ts) r :=
  fun behind => (check_bind_of_not_mem ht f _).trans (hf behind)

theorem accept_of_mem {kinds : List Kind} {f : Option Token → Parse β} {t : Token}
    (ht : t.kind ∈ kinds) (hf : (f (some t)).Settled ts r) :
    (accept kinds >>= f).Settled (t :: ts) r :=
  fun behind => (accept_bind_of_mem ht f _).trans (hf behind)

theorem accept_of_not_mem {kinds : List Kind} {f : Option Token → Parse β} {t : Token}
    (ht : t.kind ∉ kinds) (hf : (f none).Settled (t :: ts) r) :
    (accept kinds >>= f).Settled (t :: ts) r :=
  fun behind => (accept_bind_of_not_mem ht f _).trans (hf behind)

end Parse.Settled

/-! ### Reading up to a semicolon -/

/-- An answer that leaves the semicolon and some of the tokens `body` in front of it. -/
inductive Parsed.StopsBefore {α : Type} (body : List Token) (semi : Token) : Parsed α → Prop
  | done (a : α) (reports : List SyntaxReport) {left : List Token} (hleft : left <:+ body) :
      StopsBefore body semi (.done a reports (left ++ [semi]))
  | rejected (report : SyntaxReport) (reports : List SyntaxReport) {left : List Token}
      (hleft : left <:+ body) :
      StopsBefore body semi (.stopped (.rejected report) reports (left ++ [semi]))

/-- An answer that leaves nothing, or a stop at the semicolon or in front of it. -/
inductive Parsed.Concludes {α : Type} (body : List Token) (semi : Token) : Parsed α → Prop
  | done (a : α) (reports : List SyntaxReport) : Concludes body semi (.done a reports [])
  | rejected (report : SyntaxReport) (reports : List SyntaxReport) {left : List Token}
      (hleft : left <:+ body) :
      Concludes body semi (.stopped (.rejected report) reports (left ++ [semi]))

namespace Parse

variable {α β : Type} {body : List Token} {semi : Token}

/-- The reader stops in front of the semicolon, whatever follows it. -/
def StopsBefore (p : Parse α) (body : List Token) (semi : Token) : Prop :=
  ∃ r : Parsed α, r.StopsBefore body semi ∧ p.Settled (body ++ [semi]) r

/-- The reader takes the semicolon last or stops in front of it, whatever follows it. -/
def Concludes (p : Parse α) (body : List Token) (semi : Token) : Prop :=
  ∃ r : Parsed α, r.Concludes body semi ∧ p.Settled (body ++ [semi]) r

theorem Concludes.bind {p : Parse α} {f : α → Parse β} (hp : p.StopsBefore body semi)
    (hf : ∀ a left, left <:+ body → (f a).Concludes left semi) : (p >>= f).Concludes body semi := by
  obtain ⟨r, hr, hsettled⟩ := hp
  cases hr with
  | rejected report reports hleft => exact ⟨_, .rejected report reports hleft, hsettled.bind_stopped⟩
  | @done a reports left hleft =>
    obtain ⟨r, hr, hback⟩ := hf a left hleft
    refine ⟨r.after reports, ?_, hsettled.bind_done hback⟩
    cases hr with
    | done b own => exact .done b _
    | rejected report own hleft' => exact .rejected report _ (hleft'.trans hleft)

theorem Concludes.bind_pure {p : Parse α} (hp : p.Concludes body semi) (g : α → β) :
    (p >>= fun a => pure (g a)).Concludes body semi := by
  obtain ⟨r, hr, hsettled⟩ := hp
  cases hr with
  | done a reports =>
    exact ⟨_, .done (g a) _, hsettled.bind_done (r := .done (g a) [] []) fun _ => rfl⟩
  | rejected report reports hleft => exact ⟨_, .rejected report reports hleft, hsettled.bind_stopped⟩

theorem StopsBefore.map {p : Parse α} (hp : p.StopsBefore body semi) (g : α → β) :
    (g <$> p).StopsBefore body semi := by
  rw [map_eq_pure_bind]
  obtain ⟨r, hr, hsettled⟩ := hp
  cases hr with
  | @done a reports left hleft =>
    exact ⟨_, .done (g a) _ hleft,
      hsettled.bind_done (r := .done (g a) [] (left ++ [semi])) fun _ => rfl⟩
  | rejected report reports hleft => exact ⟨_, .rejected report reports hleft, hsettled.bind_stopped⟩

/-- Tokens none of which is a semicolon. -/
def Open (body : List Token) : Prop := ∀ t ∈ body, t.kind ≠ .semicolon

theorem Open.suffix (h : Open body) {left : List Token} (hleft : left <:+ body) : Open left :=
  fun t ht => h t (hleft.mem ht)

variable (hbody : Open body) (hsemi : semi.kind = .semicolon)
include hbody hsemi

omit hbody in
/-- What takes no semicolon leaves the one in front of it. -/
theorem left_of_semicolon {us rest back : List Token} (hsplit : body ++ semi :: back = us ++ rest)
    (hus : Kind.semicolon ∉ us.map Token.kind) :
    ∃ left, left <:+ body ∧ rest = left ++ semi :: back := by
  obtain ⟨more, rfl, hrest⟩ | ⟨left, rfl, hrest⟩ := List.append_eq_append_iff.mp hsplit
  · cases more with
    | nil => exact ⟨[], List.nil_suffix, by simpa using hrest.symm⟩
    | cons t more =>
      obtain ⟨rfl, -⟩ := List.cons_eq_cons.mp hrest
      exact absurd (List.mem_map.mpr ⟨semi, by simp, hsemi⟩) hus
  · exact ⟨left, List.suffix_append _ _, hrest⟩

omit hbody in
/-- No expression takes a semicolon. -/
theorem StopsBefore.expression : Parse.expression.StopsBefore body semi := by
  let e : Token := ⟨.endOfInput, "", .nil, 0⟩
  have hlength : (body ++ [semi]).length ≤ (body ++ [semi]).length := Nat.le_refl _
  have hfree {us more : List Kind} (h : Grammar.Admits .expression (us ++ more)) :
      Kind.semicolon ∉ us := fun hmem =>
    absurd (h.subset_kinds trivial (List.mem_append_left more hmem)) (by decide)
  have hwithin := Within.expression.answers (body ++ [semi] ++ [e])
  have hends : (Parse.expression (body ++ [semi] ++ [e])).Ends true (body ++ [semi] ++ [e]) :=
    Total.handedOn.expression _ ⟨e, by simp, rfl⟩ (Nat.le_refl _)
  cases hres : Parse.expression (body ++ [semi] ++ [e]) with
  | done n reports rest =>
    rw [hres] at hwithin
    obtain ⟨-, us, hsplit, hword⟩ := hwithin
    rw [← List.append_nil (us.map Token.kind)] at hword
    obtain ⟨left, hleft, rfl⟩ := left_of_semicolon hsemi (by simpa using hsplit) (hfree hword)
    obtain ⟨u, vs, hu⟩ := List.exists_cons_of_ne_nil (List.concat_ne_nil semi left)
    have hfront : Parse.expression (body ++ [semi] ++ [e]) = .done n reports (u :: vs ++ [e]) := by
      rw [hres, ← hu, List.append_assoc, List.singleton_append]
    refine ⟨_, .done n reports hleft, fun behind => ?_⟩
    rw [hu]
    exact (Mirrors.expression .id).done_of_done Node.relabel_id_eq hlength hfront behind
  | stopped why reports rest =>
    rw [hres] at hwithin hends
    cases why with
    | overrun | exhausted => exact hends.elim
    | rejected report =>
      obtain ⟨-, -, -, us, hsplit, w, hword⟩ := hwithin
      obtain ⟨left, hleft, rfl⟩ := left_of_semicolon hsemi (by simpa using hsplit) (hfree hword)
      obtain ⟨u, vs, hu⟩ := List.exists_cons_of_ne_nil (List.concat_ne_nil semi left)
      have hfront : Parse.expression (body ++ [semi] ++ [e]) =
          .stopped (.rejected report) reports (u :: vs ++ [e]) := by
        rw [hres, ← hu, List.append_assoc, List.singleton_append]
      refine ⟨_, .rejected report reports hleft, fun behind => ?_⟩
      rw [hu]
      exact (Mirrors.expression .id).stopped_of_stopped hlength hfront behind

/-! ### The clauses of simple statements -/

theorem Concludes.expect (problem : SyntaxProblem) :
    (Parse.expect .semicolon problem).Concludes body semi := by
  cases body with
  | nil => exact ⟨_, .done semi [], fun behind => expect_of_eq hsemi problem behind⟩
  | cons t body =>
    have ht := hbody t (List.mem_cons_self ..)
    exact ⟨_, .rejected ⟨t, problem⟩ _ (List.suffix_refl _), fun behind => expect_of_ne ht problem _⟩

theorem StopsBefore.expect {kind : Kind} (hkind : kind ≠ .semicolon) (problem : SyntaxProblem) :
    (Parse.expect kind problem).StopsBefore body semi := by
  cases body with
  | nil =>
    exact ⟨_, .rejected ⟨semi, problem⟩ _ (List.suffix_refl _), fun behind =>
      expect_of_ne (hsemi ▸ hkind.symm) problem _⟩
  | cons t body =>
    by_cases ht : t.kind = kind
    · exact ⟨_, .done t [] (List.suffix_cons t body), fun behind => expect_of_eq ht problem _⟩
    · exact ⟨_, .rejected ⟨t, problem⟩ _ (List.suffix_refl _), fun behind =>
        expect_of_ne ht problem _⟩

theorem StopsBefore.unlessAt :
    (Parse.expression.unlessAt .semicolon).StopsBefore body semi := by
  cases body with
  | nil =>
    exact ⟨_, .done none [] (List.suffix_refl _),
      Settled.check_of_mem (by simp [hsemi]) fun _ => rfl⟩
  | cons t body =>
    have ht : t.kind ∉ [Kind.semicolon] := by simpa using hbody t (List.mem_cons_self ..)
    obtain ⟨r, hr, hsettled⟩ := (StopsBefore.expression hsemi).map some
    exact ⟨r, hr, Settled.check_of_not_mem ht hsettled⟩

theorem StopsBefore.behind : (Parse.expression.behind .equal).StopsBefore body semi := by
  cases body with
  | nil =>
    exact ⟨_, .done none [] (List.suffix_refl _),
      Settled.accept_of_not_mem (by simp [hsemi]) fun _ => rfl⟩
  | cons t body =>
    by_cases ht : t.kind ∈ [Kind.equal]
    · obtain ⟨r, hr, hsettled⟩ := (StopsBefore.expression hsemi).map some
      refine ⟨r, ?_, Settled.accept_of_mem ht hsettled⟩
      cases hr with
      | done a reports hleft => exact .done a reports (hleft.trans (List.suffix_cons t body))
      | rejected report reports hleft =>
        exact .rejected report reports (hleft.trans (List.suffix_cons t body))
    · exact ⟨_, .done none [] (List.suffix_refl _), Settled.accept_of_not_mem ht fun _ => rfl⟩

theorem Concludes.expressionThen (problem : SyntaxProblem) :
    (Statement.expressionThen .semicolon problem).Concludes body semi :=
  Concludes.bind (StopsBefore.expression hsemi) fun n _ hleft =>
    (Concludes.expect (hbody.suffix hleft) hsemi problem).bind_pure fun _ => n

theorem Concludes.optionalThen (problem : SyntaxProblem) :
    (Statement.optionalThen .semicolon problem).Concludes body semi :=
  Concludes.bind (StopsBefore.unlessAt hbody hsemi) fun o _ hleft =>
    (Concludes.expect (hbody.suffix hleft) hsemi problem).bind_pure fun _ => o

theorem Concludes.variableDeclaration : Statement.variableDeclaration.Concludes body semi :=
  Concludes.bind (StopsBefore.expect hbody hsemi (by decide) _) fun name _ hmid =>
    Concludes.bind (StopsBefore.behind (hbody.suffix hmid) hsemi) fun initializer _ hleft =>
      (Concludes.expect (hbody.suffix (hleft.trans hmid)) hsemi .variableEnd).bind_pure fun _ =>
        Node.declare name initializer

end Parse

/-! ### Simple statements -/

/-- The tokens of a simple statement, well formed or not: behind a keyword, unless it is an
expression or ought to be one, there are tokens that neither end nor begin a statement, and then a
semicolon. -/
structure Statement.Simple (keyword body : List Token) (semi : Token) : Prop where
  keyword : keyword = [] ∨ ∃ t, keyword = [t] ∧ t.kind ∈ [Kind.kwPrint, .kwReturn, .kwVar]
  body : ∀ t ∈ body, t.kind ∉ [Kind.semicolon, .leftBrace, .rightBrace, .endOfInput] ∧
    t.kind.startsStatement = false
  semicolon : semi.kind = .semicolon

namespace Statement.Simple

variable {keyword body : List Token} {semi : Token} (h : Simple keyword body semi)
include h

theorem openBody : Parse.Open body := fun t ht heq => (h.body t ht).1 (by simp [heq])

/-- A simple statement is read up to its semicolon or given up in front of it. -/
theorem strictDeclaration : ∃ r : Parsed Node, r.Concludes body semi ∧ ∀ bound again,
    (Statement.strictDeclaration bound again).Settled (keyword ++ (body ++ [semi])) r := by
  have hopen := h.openBody
  obtain hkeyword | ⟨t, hkeyword, ht⟩ := h.keyword
  · -- What is in front begins no other statement, so an expression is expected.
    have hfront : ∃ t us, body ++ [semi] = t :: us ∧ t.kind ∉ [Kind.kwFun, .kwVar] ∧
        t.kind ∉ [Kind.kwFor, .kwWhile, .kwIf, .kwPrint, .kwReturn, .leftBrace] := by
      cases body with
      | nil => exact ⟨semi, [], rfl, by simp [h.semicolon], by simp [h.semicolon]⟩
      | cons t body =>
        obtain ⟨hkinds, hstarts⟩ := h.body t (List.mem_cons_self ..)
        refine ⟨t, body ++ [semi], rfl, fun hmem => ?_, fun hmem => ?_⟩ <;>
          simp only [List.mem_cons, List.not_mem_nil, or_false] at hmem <;>
          grind [Kind.startsStatement]
    obtain ⟨r, hr, hsettled⟩ :=
      (Parse.Concludes.expressionThen hopen h.semicolon .expressionEnd).bind_pure Node.expression
    refine ⟨r, hr, fun bound again => ?_⟩
    obtain ⟨t, us, heq, hdeclaration, hstatement⟩ := hfront
    subst hkeyword
    rw [List.nil_append]
    rw [heq] at hsettled ⊢
    exact Parse.Settled.accept_of_not_mem hdeclaration
      (Parse.Settled.accept_of_not_mem hstatement hsettled)
  · subst hkeyword
    simp only [List.mem_cons, List.not_mem_nil, or_false] at ht
    obtain ht | ht | ht := ht
    · obtain ⟨r, hr, hsettled⟩ :=
        (Parse.Concludes.expressionThen hopen h.semicolon .printEnd).bind_pure Node.print
      refine ⟨r, hr, fun bound again => ?_⟩
      rw [List.singleton_append]
      refine Parse.Settled.accept_of_not_mem (by simp [ht])
        (Parse.Settled.accept_of_mem (by simp [ht]) ?_)
      simpa only [ht] using hsettled
    · obtain ⟨r, hr, hsettled⟩ :=
        (Parse.Concludes.optionalThen hopen h.semicolon .returnEnd).bind_pure (Node.returning t)
      refine ⟨r, hr, fun bound again => ?_⟩
      rw [List.singleton_append]
      refine Parse.Settled.accept_of_not_mem (by simp [ht])
        (Parse.Settled.accept_of_mem (by simp [ht]) ?_)
      simpa only [ht] using hsettled
    · obtain ⟨r, hr, hsettled⟩ := Parse.Concludes.variableDeclaration hopen h.semicolon
      refine ⟨r, hr, fun bound again => ?_⟩
      rw [List.singleton_append]
      refine Parse.Settled.accept_of_mem (by simp [ht]) ?_
      simpa only [ht, reduceCtorEq, if_false] using hsettled

theorem endOfInput_ne : ∀ t ∈ keyword ++ (body ++ [semi]), t.kind ≠ .endOfInput := by
  intro t ht
  rw [List.mem_append, List.mem_append, List.mem_singleton] at ht
  obtain ht | ht | rfl := ht
  · obtain rfl | ⟨u, rfl, hu⟩ := h.keyword
    · cases ht
    · obtain rfl := List.mem_singleton.mp ht
      exact fun heq => absurd (heq ▸ hu) (by decide)
  · exact fun heq => (h.body t ht).1 (by simp [heq])
  · simp [h.semicolon]

/-- Wherever a simple statement is given up, reading goes on behind its semicolon. -/
theorem resume?_eq {left : List Token} (hleft : left <:+ body) (e : Token) (back : List Token) :
    resume? (left ++ [semi] ++ e :: back) = some (e :: back) := by
  have hresumes : ResumesAt semi (e :: back) := .inr (.inl h.semicolon)
  have hpass : ∀ t ∈ left ++ [semi], t.kind ≠ .endOfInput ∧ t.kind.startsStatement = false := by
    intro t ht
    obtain ht | ht := List.mem_append.mp ht
    · have hmem : t ∈ keyword ++ (body ++ [semi]) := by simp [hleft.mem ht]
      exact ⟨h.endOfInput_ne t hmem, (h.body t (hleft.mem ht)).2⟩
    · rw [List.mem_singleton.mp ht, h.semicolon]
      exact ⟨by decide, rfl⟩
  refine resume?_eq_some_iff.mpr ⟨left ++ [semi], rfl, ?_⟩
  cases left with
  | nil => exact .some (hpass semi (by simp)).1 (.nil semi) hresumes
  | cons first left =>
    obtain ⟨hfirst, hothers⟩ := List.forall_mem_cons.mp hpass
    have hpassed : PassedOver first (left ++ [semi]) semi :=
      .append_singleton (fun t ht => h.openBody t (hleft.mem ht)) hothers
    exact .some hfirst.1 hpassed hresumes

/-- What is read of a simple statement, and what is reported, does not depend on what follows. -/
theorem declaration : ∃ o reports, (o = none → reports ≠ []) ∧ ∀ e back,
    Parse.declaration (keyword ++ (body ++ [semi]) ++ e :: back) =
      .done o reports (e :: back) := by
  obtain ⟨r, hr, hsettled⟩ := h.strictDeclaration
  have hstrict (behind : List Token) :
      Parse.strictDeclaration (keyword ++ (body ++ [semi]) ++ behind) = r.followedBy behind :=
    hsettled _ _ behind
  cases hr with
  | done n reports =>
    exact ⟨some n, reports, nofun, fun e back => Parse.recovering_of_done (hstrict (e :: back))⟩
  | @rejected report reports left hleft =>
    have hreported : reports ≠ [] := by
      have hreporting := Parse.Reporting.strictDeclaration (keyword ++ (body ++ [semi]) ++ [])
      rwa [hstrict] at hreporting
    exact ⟨none, reports, fun _ => hreported, fun e back =>
      Parse.recovering_of_rejected (hstrict (e :: back)) (h.resume?_eq hleft e back)⟩

end Statement.Simple

namespace Parse

/-- A simple statement is isolated: whether it is well formed or not, the declarations and the
reports that it gives in front of other tokens are those that it gives alone, in front of those
that the other tokens give alone. It gives at most one declaration, and a report if it gives
none. -/
theorem program_isolated {keyword body q : List Token} {semi e : Token}
    (hsimple : Statement.Simple keyword body semi) (he : e.kind = .endOfInput) :
    ∃ ss rs qs rq back,
      Parse.program (keyword ++ (body ++ [semi]) ++ [e]) = .done ss rs [e] ∧
      Parse.program (q ++ [e]) = .done qs rq back ∧
      Parse.program (keyword ++ (body ++ [semi]) ++ (q ++ [e])) =
        .done (ss ++ qs) (rs ++ rq) back ∧
      ss.length ≤ 1 ∧ (ss = [] → rs ≠ []) := by
  obtain ⟨o, rs, hnone, hread⟩ := hsimple.declaration
  have hend : ∃ t ∈ q ++ [e], t.kind = .endOfInput := ⟨e, by simp, he⟩
  obtain ⟨qs, rq, e', back, hq, -, -⟩ := program_total hend
  have hloop {u e' : Token} {us rest : List Token} {ns : List Node} {reports : List SyntaxReport}
      (hrest : Parse.program (u :: us) = .done ns reports (e' :: rest)) :
      Parse.program (keyword ++ (body ++ [semi]) ++ u :: us) =
        .done (o.toList ++ ns) (rs ++ reports) (e' :: rest) := by
    have hfirst := hread u us
    have hends := hsimple.endOfInput_ne
    obtain ⟨t, ts, hts⟩ : ∃ t ts, keyword ++ (body ++ [semi]) = t :: ts :=
      List.exists_cons_of_ne_nil (by simp)
    rw [hts] at hfirst hends ⊢
    have hopens : t.kind ∉ [Kind.endOfInput] := by simpa using hends t (List.mem_cons_self ..)
    have hothers := upTo_declaration hrest
      (show (u :: us).length ≤ (t :: ts ++ u :: us).length by simp; omega)
    rw [Parse.program, upTo, List.cons_append, check_bind_of_not_mem hopens, if_neg (by simp),
      ← List.cons_append, bind_of_done _ hfirst, bind_of_done _ hothers]
    simp
  have hnothing : Parse.program [e] = .done [] [] [e] := check_bind_of_mem (by simp [he]) _ []
  obtain ⟨u, us, hu⟩ : ∃ u us, q ++ [e] = u :: us := List.exists_cons_of_ne_nil (by simp)
  refine ⟨o.toList, rs, qs, rq, e' :: back, by simpa using hloop hnothing, hq, ?_, ?_, ?_⟩
  · rw [hu] at hq ⊢
    exact hloop hq
  · cases o <;> simp
  · exact fun ho => hnone (by simpa using ho)

namespace Isolated

/-- The keyword of `print f(a else;`, an argument list that is not closed. -/
def keyword : List Token := [⟨.kwPrint, "print", .nil, 1⟩]

/-- The tokens between its keyword and its semicolon. -/
def body : List Token :=
  [⟨.identifier, "f", .nil, 1⟩, ⟨.leftParen, "(", .nil, 1⟩, ⟨.identifier, "a", .nil, 1⟩,
    ⟨.kwElse, "else", .nil, 1⟩]

/-- Its semicolon. -/
def semicolon : Token := ⟨.semicolon, ";", .nil, 1⟩

/-- The tokens of `} a;`, the first of which begins no statement. -/
def others : List Token :=
  [⟨.rightBrace, "\x7d", .nil, 2⟩, ⟨.identifier, "a", .nil, 2⟩, ⟨.semicolon, ";", .nil, 2⟩]

/-- The end of input. -/
def ending : Token := ⟨.endOfInput, "", .nil, 2⟩

theorem program_isolated_unclosed :
    ∃ qs rq back, rq ≠ [] ∧ Parse.program (others ++ [ending]) = .done qs rq back ∧
      Parse.program (keyword ++ (body ++ [semicolon]) ++ (others ++ [ending])) =
        .done qs (⟨⟨.kwElse, "else", .nil, 1⟩, .argumentsEnd⟩ :: rq) back := by
  have hsimple : Statement.Simple keyword body semicolon :=
    ⟨.inr ⟨_, rfl, by decide⟩, by decide, rfl⟩
  have halone : Parse.program (keyword ++ (body ++ [semicolon]) ++ [ending]) =
      .done [] [⟨⟨.kwElse, "else", .nil, 1⟩, .argumentsEnd⟩] [ending] := rfl
  have hreported : (Parse.program (others ++ [ending])).reports ≠ [] := by decide +kernel
  obtain ⟨ss, rs, qs, rq, back, hs, hq, happend, -, -⟩ :=
    program_isolated (q := others) hsimple (e := ending) rfl
  obtain ⟨rfl, rfl, -⟩ := Parsed.done.inj (halone.symm.trans hs)
  rw [hq] at hreported
  exact ⟨qs, rq, back, hreported, hq, happend⟩

end Isolated

end Parse

end Lox
