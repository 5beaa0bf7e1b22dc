import Lox.Proofs.Grammar.Lookahead

/-!
# Reading up to the first syntax error

A syntax error gives up the declaration it occurs in, and reading goes on behind it. Here programs
are read once more without going on: the first syntax error ends the reading, so that it is known in
front of which token it was found. Both ways of reading do the same until then, and the first error
that is reported is the same one. Some problems are reported without being errors in this sense:
reading is not interrupted by them.

## Main definitions

* `SyntaxProblem.isRaised`: whether a problem interrupts the reading.
* `Parse.haltingProgram`: reads a program up to the first syntax error.
* `Parse.Halts`: a reader does what another one does as long as it does not stop at an error.

## Main results

* `Parse.halts_program`: programs are read in the same way up to the first syntax error.
-/

namespace Lox

/-- Whether the declaration in which a problem occurs is given up. A list that is too long is read
nevertheless, and so is an assignment to something that is no variable. -/
def SyntaxProblem.isRaised : SyntaxProblem → Bool
  | tooManyParameters | tooManyArguments | assignmentTarget => false
  | _ => true

namespace Statement

/-- The readers of declarations and statements of less than `bound` tokens that stop at a syntax
error. -/
def haltingReaders : (bound : Nat) → Entry
  | 0 => ⟨Parse.exhausted, Parse.exhausted⟩
  | bound + 1 =>
    ⟨fun ts => (some <$> strictDeclaration (bound + 1) (haltingReaders bound)) ts,
      fun ts => statement (bound + 1) (haltingReaders bound) ts⟩

end Statement

/-- Reads a declaration or a statement and stops at a syntax error. -/
def Parse.haltingDeclaration : Parse (Option Node) := fun ts =>
  (Statement.haltingReaders (ts.length + 1)).declaration ts

/-- Reads declarations up to the end of input or to the first syntax error. -/
def Parse.haltingProgram : Parse (List Node) := fun ts =>
  Parse.upTo [.endOfInput] Parse.haltingDeclaration (ts.length + 1) ts

/-! ### What is reported is not taken back -/

namespace Parse

variable {α β : Type}

theorem prefix_reports_bind (p : Parse α) (f : α → Parse β) (ts : List Token) :
    (p ts).reports <+: ((p >>= f) ts).reports := by
  cases hres : p ts with
  | done a reports rest =>
    rw [bind_of_done f hres]
    cases f a rest <;> exact List.prefix_append _ _
  | stopped why reports rest =>
    rw [bind_of_stopped f hres]
    exact List.prefix_refl _

theorem reports_recovering (p : Parse α) (ts : List Token) :
    (p.recovering ts).reports = (p ts).reports := by
  cases hres : p ts with
  | done a reports rest =>
    rw [recovering_of_done hres]
    rfl
  | stopped why reports rest =>
    cases why with
    | overrun | exhausted =>
      rw [recovering_of_stopped hres (by simp)]
      rfl
    | rejected report =>
      cases hresume : resume? rest with
      | none =>
        rw [recovering_of_not_resumed hres hresume]
        rfl
      | some back =>
        rw [recovering_of_rejected hres hresume]
        rfl

/-- The reader `p'` answers as `p` does, or it stops at a syntax error, and everything that it has
reported until then is reported by `p` first. -/
def Halts (p' p : Parse α) : Prop :=
  ∀ ts, p' ts = p ts ∨ ∃ report reports rest,
    p' ts = .stopped (.rejected report) reports rest ∧ reports <+: (p ts).reports

namespace Halts

variable {p p' : Parse α} {f f' : α → Parse β}

theorem refl (p : Parse α) : p.Halts p := fun _ => .inl rfl

theorem bind (hp : p'.Halts p) (hf : ∀ a, (f' a).Halts (f a)) : (p' >>= f').Halts (p >>= f) := by
  intro ts
  obtain heq | ⟨report, reports, rest, hstopped, hprefix⟩ := hp ts
  · cases hres : p ts with
    | stopped why reports rest =>
      rw [bind_of_stopped f hres, bind_of_stopped f' (heq.trans hres)]
      exact .inl rfl
    | done a reports rest =>
      rw [bind_of_done f hres, bind_of_done f' (heq.trans hres)]
      obtain heq | ⟨report, own, back, hstopped, hprefix⟩ := hf a rest
      · exact .inl (by rw [heq])
      · refine .inr ⟨report, reports ++ own, back, by rw [hstopped, Parsed.after_stopped], ?_⟩
        cases hback : f a rest with
        | done | stopped =>
          rw [hback] at hprefix
          exact List.prefix_append_right_inj reports |>.mpr hprefix
  · refine .inr ⟨report, reports, rest, bind_of_stopped f' hstopped, ?_⟩
    exact hprefix.trans (prefix_reports_bind p f ts)

theorem map (hp : p'.Halts p) (g : α → β) : (g <$> p').Halts (g <$> p) := by
  rw [map_eq_pure_bind, map_eq_pure_bind]
  exact hp.bind fun _ => refl _

theorem behind {kind : Kind} (hp : p'.Halts p) : (p'.behind kind).Halts (p.behind kind) := by
  refine (refl _).bind fun o => ?_
  cases o with
  | none => exact refl _
  | some _ => exact hp.map _

/-- Where a declaration is given up, reading halts. -/
theorem recovering (hp : p'.Halts p) : (some <$> p').Halts p.recovering := by
  intro ts
  rw [map_eq_pure_bind]
  obtain heq | ⟨report, reports, rest, hstopped, hprefix⟩ := hp ts
  · cases hres : p ts with
    | done a reports rest =>
      rw [bind_of_done _ (heq.trans hres), recovering_of_done hres, pure_apply, Parsed.after_done,
        List.append_nil]
      exact .inl rfl
    | stopped why reports rest =>
      rw [bind_of_stopped _ (heq.trans hres)]
      cases why with
      | overrun | exhausted =>
        rw [recovering_of_stopped hres (by simp)]
        exact .inl rfl
      | rejected report =>
        refine .inr ⟨report, reports, rest, rfl, ?_⟩
        rw [reports_recovering, hres]
        exact List.prefix_refl _
  · refine .inr ⟨report, reports, rest, bind_of_stopped _ hstopped, ?_⟩
    rwa [reports_recovering]

theorem upTo {closers : List Kind} {entry entry' : Parse (Option α)} (hentry : entry'.Halts entry)
    (bound : Nat) : (upTo closers entry' bound).Halts (upTo closers entry bound) := by
  induction bound with
  | zero => exact refl _
  | succ bound ih =>
    refine (refl _).bind fun isClosed => ?_
    cases isClosed with
    | true => exact refl _
    | false => exact hentry.bind fun _ => ih.bind fun _ => refl _

end Halts

/-! ### Productions -/

/-- Readers of declarations and statements that do the same up to the first syntax error. -/
structure HaltsAgain (again' again : Statement.Entry) : Prop where
  declaration : again'.declaration.Halts again.declaration
  statement : again'.statement.Halts again.statement

namespace HaltsAgain

variable {again again' : Statement.Entry} (h : HaltsAgain again' again) (bound : Nat)
include h

theorem block : (Statement.block bound again').Halts (Statement.block bound again) :=
  (h.declaration.upTo bound).bind fun _ => .refl _

theorem functionDeclaration :
    (Statement.functionDeclaration bound again').Halts
      (Statement.functionDeclaration bound again) := by
  refine (Halts.refl _).bind fun name => (Halts.refl _).bind fun _ => ?_
  refine (Halts.refl _).bind fun params => (Halts.refl _).bind fun _ => ?_
  exact (Halts.refl _).bind fun _ => (h.block bound).bind fun _ => .refl _

theorem forLoop : (Statement.forLoop again').Halts (Statement.forLoop again) := by
  refine (Halts.refl _).bind fun _ => (Halts.refl _).bind fun initializer => ?_
  refine (Halts.refl _).bind fun condition => (Halts.refl _).bind fun increment => ?_
  exact h.statement.bind fun _ => .refl _

theorem branch : (Statement.branch again').Halts (Statement.branch again) := by
  refine (Halts.refl _).bind fun condition => h.statement.bind fun thenBranch => ?_
  exact h.statement.behind.bind fun _ => .refl _

theorem whileLoop : (Statement.whileLoop again').Halts (Statement.whileLoop again) :=
  (Halts.refl _).bind fun _ => h.statement.bind fun _ => .refl _

theorem statements :
    (Statement.statement bound again').Halts (Statement.statement bound again) := by
  refine (Halts.refl _).bind fun o => ?_
  cases o with
  | none => exact .refl _
  | some t =>
    dsimp only
    split
    · exact h.forLoop
    · exact h.whileLoop
    · exact h.branch
    · exact .refl _
    · exact .refl _
    · exact (h.block bound).bind fun _ => .refl _

theorem strictDeclaration :
    (Statement.strictDeclaration bound again').Halts (Statement.strictDeclaration bound again) := by
  refine (Halts.refl _).bind fun o => ?_
  cases o with
  | none => exact h.statements bound
  | some t =>
    dsimp only
    split
    · exact h.functionDeclaration bound
    · exact .refl _

omit h in
theorem readers : HaltsAgain (Statement.haltingReaders bound) (Statement.readers bound) := by
  induction bound with
  | zero => exact ⟨.refl _, .refl _⟩
  | succ bound ih =>
    exact ⟨(ih.strictDeclaration (bound + 1)).recovering, ih.statements (bound + 1)⟩

end HaltsAgain

/-- Programs are read in the same way up to the first syntax error. -/
theorem halts_program : haltingProgram.Halts program := by
  have hdeclaration : haltingDeclaration.Halts Parse.declaration :=
    fun ts => (HaltsAgain.readers (ts.length + 1)).declaration ts
  exact fun ts => hdeclaration.upTo (ts.length + 1) ts

end Parse

/-! ### Lookahead -/

namespace Parse.Mirrors

variable {f : Token → Token} (hf : Relabeling f) {n b b' : Nat}
include hf

/-- Stopping at a syntax error does not change what readers look at. -/
theorem haltingReaders (hb : n ≤ b) (hb' : n ≤ b') :
    Again f n (Statement.haltingReaders b) (Statement.haltingReaders b') := by
  refine .tied rfl (fun hb hb' hagain => ?_) hb hb'
  have hdeclaration := (strictDeclaration hf hagain (Nat.le_succ_of_le hb)
    (Nat.le_succ_of_le hb')).map (h := Option.map (.relabel f)) (k := some) (l := some)
    fun _ => rfl
  exact ⟨hdeclaration.lax, fun _ _ _ _ _ _ hres => hdeclaration.strict rfl hres,
    statement hf hagain (Nat.le_succ_of_le hb) (Nat.le_succ_of_le hb')⟩

theorem haltingProgram :
    Parse.haltingProgram.Mirrors f (List.map (.relabel f)) n false Parse.haltingProgram :=
  ofDeclaration hf (fun _ => ofReaders (haltingReaders hf)) (advances_ofReaders (haltingReaders hf))

end Parse.Mirrors

end Lox
