import Lox.Proofs.Grammar.Sequence

/-!
# Lists of declarations inside of programs

A program is a list of declarations, and so are the bodies of its blocks and of its functions. A
reader that comes to such a list reads it as it would read it anywhere, and goes on with what is
left. It hands on what was reported in the list, and does not look at the trees, which only become
parts of other trees.

## Main definitions

* `Parsed.Surrounding`: what a reader does with the answer of a reader that it has called.
* `Statement.Spine`, `Statement.Head`: the tokens of a declaration in front of a statement that it
  ends with, and in front of a block that it contains.
* `Statement.Leads`: the tokens of a program in front of a list of declarations.

## Main results

* `Statement.Leads.program_eq`: a program is read by reading a list of declarations inside of it.
-/

namespace Lox

/-! ### Going on with an answer -/

namespace Parsed

variable {α β γ : Type}

/-- What an answer says besides its value. -/
def trace : Parsed α → Option Stop × List SyntaxReport × List Token
  | done _ reports rest => (none, reports, rest)
  | stopped why reports rest => (some why, reports, rest)

/-- An answer and what is read behind it. -/
def andThen (r : Parsed α) (f : α → Parse β) : Parsed β :=
  match r with
  | done a reports rest => (f a rest).after reports
  | stopped why reports rest => stopped why reports rest

/-- An answer with a syntax error given up. -/
def recovered : Parsed α → Parsed (Option α)
  | done a reports rest => done (some a) reports rest
  | stopped (.rejected _) reports rest =>
    match resume? rest with
    | some rest => done none reports rest
    | none => stopped .overrun reports []
  | stopped why reports rest => stopped why reports rest

theorem reports_after (before : List SyntaxReport) (r : Parsed α) :
    (r.after before).reports = before ++ r.reports := by
  cases r <;> rfl

theorem reports_eq_of_trace {r : Parsed α} {r' : Parsed β} (h : r.trace = r'.trace) :
    r.reports = r'.reports := by
  cases r <;> cases r' <;> simp_all [trace, reports]

theorem done_of_trace {r : Parsed α} {a : β} {reports : List SyntaxReport} {rest : List Token}
    (h : r.trace = (done a reports rest).trace) : ∃ b, r = done b reports rest := by
  cases r with
  | done b =>
    obtain ⟨rfl, rfl⟩ : _ ∧ _ := by simpa [trace] using h
    exact ⟨b, rfl⟩
  | stopped => simp [trace] at h

theorem trace_after {r : Parsed α} {r' : Parsed β} (h : r.trace = r'.trace)
    (before : List SyntaxReport) : (r.after before).trace = (r'.after before).trace := by
  cases r <;> cases r' <;> simp_all [trace]

theorem andThen_pure (r : Parsed α) : r.andThen pure = r := by
  cases r <;> simp [andThen]

theorem andThen_andThen (r : Parsed α) (f : α → Parse β) (g : β → Parse γ) :
    (r.andThen f).andThen g = r.andThen fun a => f a >>= g := by
  cases r with
  | stopped => rfl
  | done a reports rest =>
    simp only [andThen, Parse.bind_apply]
    cases f a rest <;> simp [Parsed.after_after]

end Parsed

namespace Parse

variable {α β γ : Type}

theorem bind_eq_andThen (p : Parse α) (f : α → Parse β) (ts : List Token) :
    (p >>= f) ts = (p ts).andThen f := rfl

theorem recovering_eq_recovered (p : Parse α) (ts : List Token) :
    p.recovering ts = (p ts).recovered := by
  rw [recovering]
  cases p ts with
  | done => rfl
  | stopped why reports rest => cases why <;> rfl

theorem Reads.bind {p : Parse α} {ts rest : List Token} {a : α} (h : p.Reads ts a rest)
    (f : α → Parse β) : (p >>= f) ts = f a rest := by
  rw [bind_of_done f h, Parsed.after_nil]

theorem expect_bind {kind : Kind} {t : Token} (ht : t.kind = kind) (problem : SyntaxProblem)
    (f : Token → Parse β) (ts : List Token) : (expect kind problem >>= f) (t :: ts) = f t ts :=
  Reads.bind (expect_of_eq ht problem ts) f

/-- What is read behind a value depends on the value only in its own value. -/
def Blind (f : α → Parse β) : Prop := ∀ a b ts, (f a ts).trace = (f b ts).trace

end Parse

namespace Parsed

variable {α β γ : Type}

theorem trace_andThen {r r' : Parsed α} (h : r.trace = r'.trace) {f : α → Parse β}
    (hf : Parse.Blind f) : (r.andThen f).trace = (r'.andThen f).trace := by
  cases r with
  | done a reports rest =>
    cases r' with
    | stopped => simp [trace] at h
    | done b =>
      obtain ⟨-, rfl, rfl⟩ : (none : Option Stop) = none ∧ reports = _ ∧ rest = _ := by
        simpa [trace] using h
      exact trace_after (hf a b _) _
  | stopped why reports rest =>
    cases r' with
    | done => simp [trace] at h
    | stopped => exact h

end Parsed

namespace Parse.Blind

variable {α β γ : Type}

theorem pure (g : α → β) : Blind fun a => (Pure.pure (g a) : Parse β) := fun _ _ _ => rfl

theorem bind {f : α → Parse β} {g : β → Parse γ} (hf : Blind f) (hg : Blind g) :
    Blind fun a => f a >>= g :=
  fun a b ts => Parsed.trace_andThen (hf a b ts) hg

theorem bind_pure (p : Parse γ) (g : α → γ → β) :
    Blind fun a => p >>= fun c => Pure.pure (g a c) := by
  intro a b ts
  simp only [bind_apply]
  cases p ts <;> rfl

end Parse.Blind

namespace Parsed

variable {α β γ : Type}

theorem trace_andThen_pure (r : Parsed α) (g : α → β) :
    (r.andThen fun a => pure (g a)).trace = r.trace := by
  cases r <;> simp [andThen, trace]

theorem trace_recovered {r r' : Parsed α} (h : r.trace = r'.trace) :
    r.recovered.trace = r'.recovered.trace := by
  cases r with
  | done a reports rest =>
    cases r' with
    | stopped => simp [trace] at h
    | done b => exact h
  | stopped why reports rest =>
    cases r' with
    | done => simp [trace] at h
    | stopped =>
      simp only [trace, Prod.mk.injEq, Option.some.injEq] at h
      obtain ⟨rfl, rfl, rfl⟩ := h
      rfl

/-- What a reader does with an answer: it hands on the reports that were made before, and does not
look at the value. -/
structure Surrounding (K : Parsed α → Parsed β) : Prop where
  after (before : List SyntaxReport) (r : Parsed α) : K (r.after before) = (K r).after before
  blind {r r' : Parsed α} : r.trace = r'.trace → (K r).trace = (K r').trace

namespace Surrounding

variable {K : Parsed α → Parsed β} {L : Parsed β → Parsed γ}

theorem id : Surrounding (id : Parsed α → Parsed α) := ⟨fun _ _ => rfl, fun h => h⟩

theorem comp (hL : Surrounding L) (hK : Surrounding K) : Surrounding fun r => L (K r) where
  after before r := by rw [hK.after, hL.after]
  blind h := hL.blind (hK.blind h)

theorem andThen {f : β → Parse γ} (hK : Surrounding K) (hf : Parse.Blind f) :
    Surrounding fun r => (K r).andThen f where
  after before r := by
    rw [hK.after]
    cases K r <;> simp [Parsed.andThen, after_after]
  blind h := trace_andThen (hK.blind h) hf

theorem recovered (hK : Surrounding K) : Surrounding fun r => (K r).recovered where
  after before r := by
    rw [hK.after]
    cases K r with
    | done => rfl
    | stopped why reports rest =>
      cases why with
      | overrun | exhausted => rfl
      | rejected report =>
        simp only [after_stopped, Parsed.recovered]
        cases resume? rest <;> rfl
  blind h := trace_recovered (hK.blind h)

/-- What was reported before is reported. -/
theorem reports_eq_nil (hK : Surrounding K) {r : Parsed α} (h : (K r).reports = []) :
    r.reports = [] := by
  have hbefore : ∃ r' : Parsed α, r = r'.after r.reports := by
    cases r with
    | done a reports rest => exact ⟨done a [] rest, by simp [Parsed.reports]⟩
    | stopped why reports rest => exact ⟨stopped why [] rest, by simp [Parsed.reports]⟩
  obtain ⟨r', hr⟩ := hbefore
  rw [hr, hK.after, reports_after] at h
  exact (List.append_eq_nil_iff.mp h).1

end Surrounding

end Parsed

/-! ### Readers with other bounds -/

/-- An end of input is there whatever is put in front. -/
theorem endOfInput_mem_append (us : List Token) {ts : List Token}
    (hts : ∃ t ∈ ts, t.kind = .endOfInput) : ∃ t ∈ us ++ ts, t.kind = .endOfInput := by
  obtain ⟨t, ht, hkind⟩ := hts
  exact ⟨t, List.mem_append_right us ht, hkind⟩

theorem Parsed.Ends.rest_ne_nil {α : Type} {strict : Bool} {ts : List Token} {r : Parsed α}
    (h : r.Ends strict ts) (hts : ∃ t ∈ ts, t.kind = .endOfInput) : r.rest ≠ [] := by
  have htaken : TakenTo false ts r.rest := by
    cases r with
    | done a reports rest => exact TakenTo.lax h
    | stopped why reports rest =>
      cases why with
      | rejected report => exact h
      | overrun | exhausted => exact h.elim
  obtain ⟨e, he, -⟩ := htaken.endOfInput_mem hts
  exact List.ne_nil_of_mem he

/-- A reader that leaves a token reads a text as the readers that mirror it. -/
theorem Parse.Mirrors.apply_eq {α : Type} {g : α → α} {n : Nat} {strict : Bool} {p p' : Parse α}
    (hp : p.Mirrors id g n strict p') (hg : g = id) {ts : List Token} (hlength : ts.length ≤ n)
    (hrest : (p ts).rest ≠ []) : p' ts = p ts := by
  obtain ⟨t, rest, heq⟩ := List.exists_cons_of_ne_nil hrest
  have hmirrors := hp.mirrors ts [] [] hlength t rest (by simpa using heq)
  simp only [List.append_nil, List.map_id] at hmirrors
  rw [hmirrors, ← heq]
  cases p ts with
  | done a reports rest => exact Parsed.relabel_id_done hg rest rest a reports
  | stopped why reports rest => exact Parsed.relabel_id_stopped g rest rest why reports

theorem Parse.Mirrors.declaration_readers {n bound : Nat} (hbound : n ≤ bound) :
    Parse.declaration.Mirrors id (Option.map (.relabel id)) n false
      (Statement.readers bound).declaration where
  suffix := (Mirrors.declaration (n := n) .id).suffix
  strict := nofun
  mirrors front behind behind' hfront :=
    (Mirrors.readers .id (n := front.length) (by simp; omega)
      (Nat.le_trans hfront hbound)).declaration.mirrors front behind behind' (Nat.le_refl _)

namespace Parse

/-- Reads a statement. -/
def statement : Parse Node := fun ts => (Statement.readers (ts.length + 1)).statement ts

/-- Reads declarations up to a token of the kinds `closers`. -/
def declarations (closers : List Kind) : Parse (List Node) := fun ts =>
  upTo closers Parse.declaration (ts.length + 1) ts

variable {ts : List Token} {bound steps : Nat} {closers : List Kind}
variable (hts : ∃ t ∈ ts, t.kind = .endOfInput)
include hts

theorem readers_statement_eq (hbound : ts.length ≤ bound) :
    (Statement.readers bound).statement ts = statement ts := by
  have hends : (statement ts).Ends true ts :=
    (Total.handedOn.readers (ts.length + 1)).2 ts hts (Nat.le_succ _)
  exact (Mirrors.readers .id (Nat.le_succ ts.length) hbound).statement.apply_eq
    Node.relabel_id_eq (Nat.le_refl _) (hends.rest_ne_nil hts)

theorem declarations_total (hclosers : .endOfInput ∈ closers) :
    ∃ ns reports t rest, declarations closers ts = .done ns reports (t :: rest) ∧
      t.kind ∈ closers ∧ TakenTo false ts (t :: rest) :=
  Total.handedOn.declaration.upTo hclosers hts (Nat.le_succ _)

theorem readers_declaration_eq (hbound : ts.length ≤ bound) :
    (Statement.readers bound).declaration ts = Parse.declaration ts := by
  obtain ⟨o, reports, rest, hres, htaken⟩ := proceeds_declaration hts
  refine (Mirrors.declaration_readers hbound).apply_eq (by simp [Node.relabel_id_eq])
    (Nat.le_refl _) ?_
  rw [hres]
  obtain htaken | ⟨rfl, -⟩ := htaken
  · obtain ⟨e, he, -⟩ := htaken.endOfInput_mem hts
    exact List.ne_nil_of_mem he
  · obtain ⟨e, he, -⟩ := hts
    exact List.ne_nil_of_mem he

/-- Whatever the bounds are, if they suffice, the same declarations are read. -/
theorem upTo_eq_declarations (hclosers : .endOfInput ∈ closers) {entry : Parse (Option Node)}
    (hentry : Parse.declaration.Mirrors id (Option.map (.relabel id)) ts.length false entry)
    (hsteps : ts.length ≤ steps) : upTo closers entry steps ts = declarations closers ts := by
  have hloop : (upTo closers Parse.declaration (ts.length + 1)).Mirrors id
      (List.map (.relabel id)) ts.length false (upTo closers entry steps) :=
    Mirrors.upTo .id hclosers hentry (Mirrors.advances_declaration .id) (Nat.le_succ _) hsteps
  refine hloop.apply_eq Node.map_relabel_id (Nat.le_refl _) ?_
  obtain ⟨ns, reports, t, rest, hres, -, -⟩ := declarations_total hts hclosers
  rw [declarations] at hres
  rw [hres]
  exact List.cons_ne_nil _ _

/-- Declarations are read one after the other. -/
theorem declarations_eq (hclosers : .endOfInput ∈ closers) (hopens : StartsOutside closers ts) :
    declarations closers ts = (Parse.declaration ts).andThen fun o =>
      declarations closers >>= fun ns => pure (o.toList ++ ns) := by
  obtain ⟨o, reports, rest, hres, htaken⟩ := proceeds_declaration hts
  have hrest : (∃ t ∈ rest, t.kind = .endOfInput) ∧ rest.length ≤ ts.length := by
    obtain htaken | ⟨rfl, -⟩ := htaken
    · exact ⟨htaken.endOfInput_mem hts, htaken.length_le⟩
    · exact ⟨hts, Nat.le_refl _⟩
  obtain ⟨hend, hlength⟩ := hrest
  have hothers := upTo_eq_declarations hend hclosers
    (Mirrors.declaration (n := rest.length) .id) hlength
  cases ts with
  | nil => exact hopens.elim
  | cons t us =>
    rw [declarations, upTo, check_bind_of_not_mem hopens, if_neg (by simp), bind_of_done _ hres,
      hres]
    simp only [Parsed.andThen]
    rw [bind_eq_andThen, hothers, bind_eq_andThen]

end Parse

/-! ### Declarations behind others -/

namespace Statement

/-- No declaration begins with a token that ends a list of declarations. -/
theorem startsOutside_closers {ts : List Token} (h : StartsIn declarationKinds ts)
    {closers : List Kind} (hclosers : closers ⊆ [.rightBrace, .endOfInput]) :
    StartsOutside closers ts := by
  have hkinds : ∀ kind ∈ declarationKinds, kind ∉ [Kind.rightBrace, .endOfInput] := by decide
  exact h.outside fun kind hkind hc => hkinds kind hkind (hclosers hc)

theorem Spells.declarations_append {ns : List Node} {us ts : List Token}
    (h : Spells .declarations ns us) {closers : List Kind} (hend : .endOfInput ∈ closers)
    (hclosers : closers ⊆ [.rightBrace, .endOfInput]) (hts : ∃ t ∈ ts, t.kind = .endOfInput)
    (hrest : StartsOutside [.kwElse] ts) :
    Parse.declarations closers (us ++ ts) =
      (Parse.declarations closers ts).andThen fun ms => pure (ns ++ ms) := by
  induction ns generalizing us with
  | nil =>
    cases h
    exact (Parsed.andThen_pure _).symm
  | cons n ns ih =>
    cases h with
    | @cons _ _ vs ws hn hns =>
      have hstarts : StartsIn declarationKinds (vs ++ (ws ++ ts)) := hn.opens.append _
      have hopens : StartsOutside closers (vs ++ (ws ++ ts)) :=
        startsOutside_closers hstarts hclosers
      have hmem := endOfInput_mem_append vs (endOfInput_mem_append ws hts)
      have hread : Parse.declaration (vs ++ (ws ++ ts)) = .done (some n) [] (ws ++ ts) :=
        Parse.recovering_of_done (hn.completes n _ (ws ++ ts) rfl (by simp)
          (hns.startsOutside_declarations hrest))
      rw [List.append_assoc, Parse.declarations_eq hmem hend hopens, hread]
      simp only [Parsed.andThen, Parsed.after_nil]
      rw [Parse.bind_eq_andThen, ih hns, Parsed.andThen_andThen]
      rfl

/-- Declarations in front do not matter for what is reported of a list and where it ends. -/
theorem Spells.trace_declarations {ns : List Node} {us ts : List Token}
    (h : Spells .declarations ns us) {closers : List Kind} (hend : .endOfInput ∈ closers)
    (hclosers : closers ⊆ [.rightBrace, .endOfInput]) (hts : ∃ t ∈ ts, t.kind = .endOfInput)
    (hrest : StartsOutside [.kwElse] ts) :
    (Parse.declarations closers (us ++ ts)).trace = (Parse.declarations closers ts).trace := by
  rw [h.declarations_append hend hclosers hts hrest]
  exact Parsed.trace_andThen_pure _ _

theorem Spells.trace_declaration {n : Node} {us ts : List Token}
    (h : Spells .declaration [n] us) {closers : List Kind} (hend : .endOfInput ∈ closers)
    (hclosers : closers ⊆ [.rightBrace, .endOfInput]) (hts : ∃ t ∈ ts, t.kind = .endOfInput)
    (hrest : StartsOutside [.kwElse] ts) :
    (Parse.declarations closers (us ++ ts)).trace = (Parse.declarations closers ts).trace := by
  have hone := Spells.cons h .nil
  rw [List.append_nil] at hone
  exact hone.trace_declarations hend hclosers hts hrest

/-! ### Statements that other statements end with -/

/-- The tokens of statements in front of a statement that all of them end with. -/
inductive Spine : List Token → Prop
  | nil : Spine []
  | branch {keyword : Token} {condition : Node} {cs us : List Token} (hkeyword : keyword.kind = .kwIf)
      (hcondition : Condition condition cs) (h : Spine us) : Spine (keyword :: (cs ++ us))
  | branchElse {keyword keywordElse : Token} {condition thenBranch : Node} {cs vs us : List Token}
      (hkeyword : keyword.kind = .kwIf) (hcondition : Condition condition cs)
      (hthen : Spells (.statement false) [thenBranch] vs) (hkeywordElse : keywordElse.kind = .kwElse)
      (h : Spine us) : Spine (keyword :: (cs ++ (vs ++ [keywordElse]) ++ us))
  | whileLoop {keyword : Token} {condition : Node} {cs us : List Token}
      (hkeyword : keyword.kind = .kwWhile) (hcondition : Condition condition cs) (h : Spine us) :
      Spine (keyword :: (cs ++ us))
  | forLoop {keyword opening : Token} {initializer condition increment : Option Node}
      {is cs es us : List Token} (hkeyword : keyword.kind = .kwFor)
      (hopening : opening.kind = .leftParen) (hinitializer : Initializer initializer is)
      (hcondition : OptionallyEnded .semicolon condition cs)
      (hincrement : OptionallyEnded .rightParen increment es) (h : Spine us) :
      Spine (keyword :: (opening :: (is ++ (cs ++ es)) ++ us))

namespace Spine

variable {us : List Token} {bound : Nat}

/-- Behind the tokens `us` a statement is read first, and then what `f` asks for. -/
structure Continues (us : List Token) (bound : Nat) (f : Node → Parse Node) : Prop where
  blind : Parse.Blind f
  reads (ts : List Token) : (∃ t ∈ ts, t.kind = .endOfInput) → (us ++ ts).length ≤ bound →
    (readers bound).statement (us ++ ts) = (Parse.statement ts).andThen f

/-- A statement begins with some tokens, and then another statement is read. -/
theorem Continues.step {keyword : Token} {front : List Token} {g : Node → Parse Node}
    (h : ∀ bound, ∃ f, Continues us bound f) (hg : Parse.Blind g)
    (hread : ∀ ts, front.length + (us ++ ts).length ≤ bound →
      (readers (bound + 1)).statement (keyword :: (front ++ (us ++ ts))) =
        ((readers bound).statement >>= g) (us ++ ts)) :
    ∃ f, Continues (keyword :: (front ++ us)) (bound + 1) f := by
  obtain ⟨f, hf⟩ := h bound
  refine ⟨fun n => f n >>= g, hf.blind.bind hg, fun ts hts hbound => ?_⟩
  have hlength : front.length + (us ++ ts).length ≤ bound := by simp at hbound ⊢; omega
  rw [List.cons_append, List.append_assoc, hread ts hlength, Parse.bind_eq_andThen,
    hf.reads ts hts (by omega), Parsed.andThen_andThen]

theorem continues (h : Spine us) (bound : Nat) : ∃ f, Continues us bound f := by
  induction h generalizing bound with
  | nil =>
    refine ⟨pure, .pure id, fun ts hts hbound => ?_⟩
    rw [Parsed.andThen_pure]
    exact Parse.readers_statement_eq hts hbound
  | @branch keyword condition cs us hkeyword hcondition _ ih =>
    cases bound with
    | zero => exact ⟨pure, .pure id, fun ts _ hbound => absurd hbound (Nat.not_succ_le_zero _)⟩
    | succ bound =>
      have hg := Parse.Blind.bind_pure ((readers bound).statement.behind .kwElse)
        (Node.branch condition)
      refine Continues.step ih hg fun ts _ => ?_
      refine (Parse.accept_bind_of_mem (by simp [hkeyword]) _ _).trans ?_
      simp only [hkeyword]
      exact Parse.Reads.bind ((recognizes_condition _ _).mpr ⟨cs, rfl, hcondition⟩) _
  | @branchElse keyword keywordElse condition thenBranch cs vs us hkeyword hcondition hthen
      hkeywordElse _ ih =>
    cases bound with
    | zero => exact ⟨pure, .pure id, fun ts _ hbound => absurd hbound (Nat.not_succ_le_zero _)⟩
    | succ bound =>
      have hg := Parse.Blind.pure fun n => Node.branch condition thenBranch (some n)
      refine Continues.step ih hg fun ts hlength => ?_
      have readThen : (readers bound).statement.Reads (vs ++ keywordElse :: (us ++ ts)) thenBranch
          (keywordElse :: (us ++ ts)) := by
        obtain ⟨t, cs, rfl, -⟩ := hcondition
        exact hthen.completes.again (by simp at hlength ⊢; omega) (by simp)
      rw [List.append_assoc, List.append_assoc]
      refine (Parse.accept_bind_of_mem (by simp [hkeyword]) _ _).trans ?_
      simp only [hkeyword]
      refine (Parse.Reads.bind ((recognizes_condition _ _).mpr ⟨cs, rfl, hcondition⟩) _).trans ?_
      refine (Parse.Reads.bind readThen _).trans ?_
      rw [Parse.behind, bind_assoc, Parse.accept_bind_of_mem (by simp [hkeywordElse])]
      simp only [map_eq_pure_bind, bind_assoc, pure_bind]
  | @whileLoop keyword condition cs us hkeyword hcondition _ ih =>
    cases bound with
    | zero => exact ⟨pure, .pure id, fun ts _ hbound => absurd hbound (Nat.not_succ_le_zero _)⟩
    | succ bound =>
      refine Continues.step ih (.pure (.loop condition)) fun ts _ => ?_
      refine (Parse.accept_bind_of_mem (by simp [hkeyword]) _ _).trans ?_
      simp only [hkeyword]
      exact Parse.Reads.bind ((recognizes_condition _ _).mpr ⟨cs, rfl, hcondition⟩) _
  | @forLoop keyword opening initializer condition increment is cs es us hkeyword hopening
      hinitializer hcondition hincrement _ ih =>
    cases bound with
    | zero => exact ⟨pure, .pure id, fun ts _ hbound => absurd hbound (Nat.not_succ_le_zero _)⟩
    | succ bound =>
      refine Continues.step ih (.pure (desugarFor initializer condition increment)) fun ts _ => ?_
      rw [List.cons_append, List.append_assoc, List.append_assoc]
      refine (Parse.accept_bind_of_mem (by simp [hkeyword]) _ _).trans ?_
      simp only [hkeyword]
      refine (Parse.expect_bind hopening _ _ _).trans ?_
      refine (Parse.Reads.bind (recognizes_forInitializer.mpr ⟨is, rfl, hinitializer⟩) _).trans ?_
      refine (Parse.Reads.bind ((recognizes_optionalThen (by decide) _).mpr
        ⟨cs, rfl, hcondition⟩) _).trans ?_
      exact Parse.Reads.bind ((recognizes_optionalThen (by decide) _).mpr ⟨es, rfl, hincrement⟩) _

/-- What begins like this and goes on with a statement is a statement. -/
theorem spells (h : Spine us) {isOpen : Bool} {n : Node} {vs : List Token}
    (hn : Spells (.statement isOpen) [n] vs) :
    ∃ isOpen m, Spells (.statement isOpen) [m] (us ++ vs) := by
  induction h with
  | nil => exact ⟨isOpen, n, hn⟩
  | branch hkeyword hcondition _ ih =>
    obtain ⟨_, m, hm⟩ := ih
    rw [List.cons_append, List.append_assoc]
    exact ⟨_, _, .branch hkeyword hcondition hm⟩
  | branchElse hkeyword hcondition hthen hkeywordElse _ ih =>
    obtain ⟨_, m, hm⟩ := ih
    rw [List.cons_append, List.append_assoc, List.append_assoc, List.append_assoc]
    exact ⟨_, _, .branchElse hkeyword hcondition hthen hkeywordElse hm⟩
  | whileLoop hkeyword hcondition _ ih =>
    obtain ⟨_, m, hm⟩ := ih
    rw [List.cons_append, List.append_assoc]
    exact ⟨_, _, .whileLoop hkeyword hcondition hm⟩
  | forLoop hkeyword hopening hinitializer hcondition hincrement _ ih =>
    obtain ⟨_, m, hm⟩ := ih
    rw [List.cons_append, List.append_assoc, List.cons_append, List.append_assoc, List.append_assoc]
    exact ⟨_, _, .forLoop hkeyword hopening hinitializer hcondition hincrement hm⟩

/-- The tokens are those of a statement, not of another declaration. -/
theorem startsOutside (h : Spine us) {ts : List Token} (hts : StartsOutside [.kwFun, .kwVar] ts) :
    StartsOutside [.kwFun, .kwVar] (us ++ ts) := by
  cases h with
  | nil => exact hts
  | branch hkeyword | branchElse hkeyword | whileLoop hkeyword | forLoop hkeyword => simp [hkeyword]

end Spine

/-- A declaration that is a statement. -/
theorem strictDeclaration_eq_statement {bound : Nat} {again : Entry} {ts : List Token}
    (hts : StartsOutside [.kwFun, .kwVar] ts) :
    Statement.strictDeclaration bound again ts = statement bound again ts := by
  cases ts with
  | nil => exact hts.elim
  | cons t ts => exact Parse.accept_bind_of_not_mem hts _ _

/-! ### Lists inside of programs -/

/-- The tokens of a declaration in front of the declarations of a block or of a function body. -/
inductive Head : List Token → Prop
  | block {us : List Token} {left : Token} (h : Spine us) (hleft : left.kind = .leftBrace) :
      Head (us ++ [left])
  | function {keyword name opening closing left : Token} {params ps : List Token}
      (hkeyword : keyword.kind = .kwFun) (hname : name.kind = .identifier)
      (hopening : opening.kind = .leftParen) (hparams : Parameters params ps)
      (hclosing : closing.kind = .rightParen) (hleft : left.kind = .leftBrace) :
      Head (keyword :: name :: opening :: (ps ++ [closing, left]))

theorem Head.startsIn {us : List Token} (h : Head us) : StartsIn declarationKinds us := by
  cases h with
  | block h hleft => cases h <;> simp [declarationKinds, statementKinds, *]
  | function hkeyword => simp [declarationKinds, hkeyword]

/-- What is read of a block or of a function body behind its declarations. -/
def closing (g : List Node → Node) : List Node → Parse Node := fun ns =>
  Parse.expect .rightBrace .blockEnd >>= fun _ => pure (g ns)

/-- The block of a statement or of a function is read by reading its declarations. -/
theorem block_bind_eq {ts : List Token} (hts : ∃ t ∈ ts, t.kind = .endOfInput) {bound steps : Nat}
    (hbound : ts.length ≤ bound) (hsteps : ts.length ≤ steps) (g : List Node → Node) :
    (block steps (readers bound) >>= fun ns => pure (g ns)) ts =
      (Parse.declarations [.rightBrace, .endOfInput] ts).andThen (closing g) := by
  rw [block, bind_assoc, Parse.bind_eq_andThen, Parse.upTo_eq_declarations hts (by decide)
    (Parse.Mirrors.declaration_readers hbound) hsteps]
  simp only [bind_assoc, pure_bind]
  rfl

theorem statement_leftBrace {left : Token} (hleft : left.kind = .leftBrace) {ts : List Token}
    (hts : ∃ t ∈ ts, t.kind = .endOfInput) : Parse.statement (left :: ts) =
      (Parse.declarations [.rightBrace, .endOfInput] ts).andThen (closing .block) := by
  refine (Parse.accept_bind_of_mem (by simp [hleft]) _ _).trans ?_
  simp only [hleft]
  exact block_bind_eq hts (Nat.le_succ _) (by simp; omega) _

/-- A declaration is read by reading the declarations inside of it. -/
theorem Head.declaration_eq {us : List Token} (h : Head us) (bound : Nat) :
    ∃ K : Parsed (List Node) → Parsed (Option Node), Parsed.Surrounding K ∧
      ∀ ts, (∃ t ∈ ts, t.kind = .endOfInput) → (us ++ ts).length ≤ bound →
        Parse.declaration (us ++ ts) = K (Parse.declarations [.rightBrace, .endOfInput] ts) := by
  -- All of them are read with one bound, since what is read behind the block depends on it.
  have hstrict {ts : List Token} (hts : ∃ t ∈ ts, t.kind = .endOfInput)
      (hlength : (us ++ ts).length ≤ bound) : Parse.declaration (us ++ ts) =
        (strictDeclaration (bound + 1) (readers bound) (us ++ ts)).recovered := by
    rw [← Parse.readers_declaration_eq (endOfInput_mem_append us hts) (Nat.le_succ_of_le hlength)]
    exact Parse.recovering_eq_recovered _ _
  have hclosing (g : List Node → Node) : Parsed.Surrounding fun r => r.andThen (closing g) :=
    .andThen .id (.bind_pure _ fun ns _ => g ns)
  cases h with
  | @block us left h hleft =>
    obtain ⟨f, hf⟩ := h.continues (bound + 1)
    refine ⟨_, ((hclosing .block).andThen hf.blind).recovered, fun ts hts hlength => ?_⟩
    have houtside : StartsOutside [.kwFun, .kwVar] (us ++ left :: ts) :=
      h.startsOutside (by simp [hleft])
    rw [hstrict hts hlength, List.append_assoc, List.singleton_append,
      strictDeclaration_eq_statement houtside]
    have hread := hf.reads (left :: ts) (endOfInput_mem_append [left] hts) (by simp at hlength ⊢; omega)
    rw [statement_leftBrace hleft hts] at hread
    exact congrArg Parsed.recovered hread
  | @function keyword name opening closing' left params ps hkeyword hname hopening hparams hclosing'
      hleft =>
    refine ⟨_, (hclosing (.function name params)).recovered, fun ts hts hlength => ?_⟩
    rw [hstrict hts hlength]
    simp only [List.cons_append, List.append_assoc, List.nil_append, List.length_cons,
      List.length_append] at hlength ⊢
    have readParameters : (parameters (bound + 1)).Reads (ps ++ closing' :: left :: ts) params
        (closing' :: left :: ts) := hparams.reads (by omega) (by simp [hclosing'])
    refine congrArg Parsed.recovered ((Parse.accept_bind_of_mem (by simp [hkeyword]) _ _).trans ?_)
    simp only [hkeyword, if_true]
    refine (Parse.expect_bind hname _ _ _).trans ?_
    refine (Parse.expect_bind hopening _ _ _).trans ?_
    refine (readParameters.bind _).trans ?_
    refine (Parse.expect_bind hclosing' _ _ _).trans ?_
    refine (Parse.expect_bind hleft _ _ _).trans ?_
    exact block_bind_eq hts (by omega) (by omega) _

/-- The tokens of a program in front of a list of declarations, which goes on up to a token of the
kinds `closers`. -/
inductive Leads : (closers : List Kind) → List Token → Prop
  | program : Leads [.endOfInput] []
  | nested {closers : List Kind} {us vs head : List Token} {ns : List Node} (h : Leads closers us)
      (hns : Spells .declarations ns vs) (hhead : Head head) :
      Leads [.rightBrace, .endOfInput] (us ++ (vs ++ head))

namespace Leads

variable {closers : List Kind} {us : List Token}

theorem endOfInput_mem (h : Leads closers us) : .endOfInput ∈ closers := by
  cases h <;> simp

theorem subset (h : Leads closers us) : closers ⊆ [.rightBrace, .endOfInput] := by
  cases h <;> simp

/-- A program is read by reading a list of declarations inside of it. -/
theorem program_eq (h : Leads closers us) (bound : Nat) :
    ∃ K : Parsed (List Node) → Parsed (List Node), Parsed.Surrounding K ∧
      ∀ ts, (∃ t ∈ ts, t.kind = .endOfInput) → (us ++ ts).length ≤ bound →
        Parse.program (us ++ ts) = K (Parse.declarations closers ts) := by
  induction h with
  | program => exact ⟨id, .id, fun ts _ _ => rfl⟩
  | @nested closers us vs head ns h hns hhead ih =>
    obtain ⟨K, hK, hprogram⟩ := ih
    obtain ⟨L, hL, hdeclaration⟩ := hhead.declaration_eq bound
    have hothers := Parse.Blind.bind_pure (Parse.declarations closers) fun (o : Option Node) ms =>
      o.toList ++ ms
    refine ⟨_, hK.comp ((hL.andThen hothers).andThen (.pure (ns ++ ·))), fun ts hts hlength => ?_⟩
    have hmem (ws : List Token) := endOfInput_mem_append ws hts
    have hstarts : StartsIn declarationKinds (head ++ ts) := hhead.startsIn.append ts
    have hopens : StartsOutside closers (head ++ ts) := startsOutside_closers hstarts h.subset
    have hlist : Parse.declarations closers (vs ++ (head ++ ts)) =
        ((L (Parse.declarations [.rightBrace, .endOfInput] ts)).andThen fun o =>
          Parse.declarations closers >>= fun ms => pure (o.toList ++ ms)).andThen
            fun ms => pure (ns ++ ms) := by
      rw [hns.declarations_append h.endOfInput_mem h.subset (hmem head)
        (hstarts.outside (by decide)), Parse.declarations_eq (hmem head) h.endOfInput_mem hopens,
        hdeclaration ts hts (by simp at hlength ⊢; omega)]
    rw [List.append_assoc, List.append_assoc, hprogram _ (by simpa using hmem (vs ++ head))
      (by simpa using hlength), hlist]

/-- Declarations of the list that are in front do not matter. -/
theorem program_append_eq (h : Leads closers us) {ns : List Node} {vs : List Token}
    (hns : Spells .declarations ns vs) (bound : Nat) :
    ∃ K : Parsed (List Node) → Parsed (List Node), Parsed.Surrounding K ∧
      ∀ ts, (∃ t ∈ ts, t.kind = .endOfInput) → StartsOutside [.kwElse] ts → ts.length ≤ bound →
        Parse.program (us ++ (vs ++ ts)) = K (Parse.declarations closers ts) := by
  obtain ⟨K, hK, hprogram⟩ := h.program_eq (us.length + (vs.length + bound))
  refine ⟨_, hK.comp (.andThen .id (.pure (ns ++ ·))), fun ts hts helse hlength => ?_⟩
  rw [hprogram _ (endOfInput_mem_append vs hts) (by simp; omega), hns.declarations_append h.endOfInput_mem h.subset hts helse]
  rfl

end Leads

end Statement

end Lox
