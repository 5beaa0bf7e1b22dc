import Lox.Proofs.Execution.Likeness
import Lox.Proofs.Execution.Return
import Mathlib.Order.Basic

/-!
# Two runs side by side

Two runs that begin alike go on alike: they look up, define and call what corresponds, print the
same, and end with corresponding values, failures and stores. What "alike" means is given by a
likeness and by a relation between the stores of the two machines; how the constructs of the
language keep it is shown here once.

A machine consists of its store and of the place it stands at. Every step puts the place back, so
a comparison is made at fixed places, and only the stores and the stage change. The two places
need not be the same: a comparison of calls does not ask for anything about the scopes the calls
are made from.

The engines of the two runs may have different numbers of levels. Then one run may overflow where
the other does not; a simulation that is lax about overflows says nothing of such runs.

## Main definitions

* `Store`: what a machine holds apart from its place.
* `Simulation`: a likeness with a relation of stores.
* `Simulation.Steady`: the steps of the machine keep the stores alike.
* `Simulation.Lawful`: besides, a host function may blame any token.
* `Simulation.Agree`: two steps that end alike if they begin alike.

## Main results

* `Simulation.Steady.ofDepth`, `Simulation.Lawful.ofDepth`: every level of the engine makes alike of
  alike.
* `Simulation.Lawful.execute_of_definesNothing`: a statement that defines no name in place does so
  wherever names are looked up alike.
-/

namespace Lox

/-- What a machine holds apart from the place it stands at. -/
structure Store where
  scopes : Scopes
  nextIdentity : Nat
  output : String
  notes : List View
  deriving Inhabited

/-- What a machine holds. -/
def Machine.store (m : Machine) : Store := ⟨m.scopes, m.nextIdentity, m.output, m.notes⟩

/-- The machine with a store that stands at a place. -/
def Store.at (s : Store) (p : Place) : Machine :=
  ⟨s.scopes, p.scope, p.callDepth, s.nextIdentity, s.output, s.notes⟩

namespace Store

/-- The store with a variable defined in one scope. -/
def define (s : Store) (id : ScopeId) (name : String) (v : Value) : Store :=
  { s with scopes := s.scopes.define id name v }

/-- The store with a further scope. -/
def push (s : Store) (t : Table) : Store := { s with scopes := s.scopes.push t }

/-- The store with a further line printed. -/
def printLine (s : Store) (text : String) : Store := { s with output := s.output ++ text ++ "\n" }

/-- The store with a further note of the host functions. -/
def note (s : Store) (entry : View) : Store := { s with notes := s.notes ++ [entry] }

theorem lookup_at (s : Store) (p : Place) (t : Token) :
    Run.lookup t (s.at p) = (s.scopes.get? p.scope t.lexeme).elim
      (.error (.failed ⟨.undefinedVariable t.lexeme, some t⟩) (s.at p)) (.ok · (s.at p)) := by
  have hplace : s.scopes.get? p.scope t.lexeme = (s.at p).scopes.get? (s.at p).scope t.lexeme := rfl
  rw [hplace, Run.lookup]
  cases (s.at p).scopes.get? (s.at p).scope t.lexeme <;> rfl

theorem assign_at (s : Store) (p : Place) (t : Token) (v : Value) :
    Run.assign t v (s.at p) = (s.scopes.owner? p.scope t.lexeme).elim
      (.error (.failed ⟨.undefinedVariable t.lexeme, some t⟩) (s.at p))
      fun id => .ok () ((s.define id t.lexeme v).at p) := by
  have hplace : s.scopes.owner? p.scope t.lexeme = (s.at p).scopes.owner? (s.at p).scope t.lexeme :=
    rfl
  rw [hplace, Run.assign]
  cases (s.at p).scopes.owner? (s.at p).scope t.lexeme <;> rfl

/-- The store with a further identity given out. -/
def identify (s : Store) : Store := { s with nextIdentity := s.nextIdentity + 1 }

end Store

/-- The tokens that a host function blames its failures on have a property. -/
def Action.Blames (P : Token → Prop) : Action → Prop
  | .fail _ _ token => ∀ t ∈ token, P t
  | .invoke _ _ next => ∀ v, (next v).Blames P
  | .compare _ _ next => ∀ same, (next same).Blames P
  | .note _ next => next.Blames P
  | .consult next => ∀ notes, (next notes).Blames P
  | .done _ | .crash _ => True

theorem Action.blames_of_forall {P : Token → Prop} (h : ∀ t, P t) (action : Action) :
    action.Blames P := by
  induction action with
  | fail _ _ token => exact fun t _ => h t
  | invoke _ _ _ ih | compare _ _ _ ih | note _ _ ih | consult _ ih => exact ih
  | done | crash => trivial

theorem Action.Blames.mono {P Q : Token → Prop} (hPQ : ∀ t, P t → Q t) {action : Action}
    (h : action.Blames P) : action.Blames Q := by
  induction action with
  | fail _ _ token => exact fun t ht => hPQ t (h t ht)
  | invoke _ _ _ ih | compare _ _ _ ih | consult _ ih => exact fun a => ih a (h a)
  | note _ _ ih => exact ih h
  | done | crash => trivial

/-- The tokens that the functions of a host blame their failures on have a property. -/
def Host.Blames (P : Token → Prop) (host : Host) : Prop :=
  ∀ n ∈ host.natives, ∀ views, (n.action views).Blames P

theorem Host.blames_of_forall {P : Token → Prop} (host : Host) (h : ∀ t, P t) : host.Blames P :=
  fun n _ views => (n.action views).blames_of_forall h

/-- A comparison of two runs: what corresponds in them, and when their stores are alike. -/
structure Simulation (W : Type) extends Likeness W where
  /-- Chains in whose innermost scopes names may be defined. -/
  home : W → Chain → Chain → Prop
  /-- Stores. -/
  store : W → Store → Store → Prop
  /-- Whether nothing is said of runs that overflow. -/
  lax : Prop

namespace Node

/-- The statements that define a name at the place where they stand. -/
def isDefinition : Node → Bool
  | declare .. | function .. => true
  | _ => false

/-- The statements that a statement executes at the place where it stands. -/
def inPlace : Node → List Node
  | branch _ t e => t :: e.toList
  | loop _ n => [n]
  | _ => []

/-- A statement that defines no name at the place where it stands. -/
inductive DefinesNothing : Node → Prop
  | intro {n : Node} :
      n.isDefinition = false → (∀ k ∈ n.inPlace, DefinesNothing k) → DefinesNothing n

end Node

namespace Simulation

variable {W : Type} (R : Simulation W)

/-- Places from which names are looked up alike, and at which return statements are alike. -/
structure Readable (w : W) (p p' : Place) : Prop where
  chain : R.chain w p.scope p'.scope
  calls : p.callDepth = 0 ↔ p'.callDepth = 0

/-- Places at which names may be defined as well. -/
structure Writable (w : W) (p p' : Place) : Prop where
  home : R.home w p.scope p'.scope
  calls : p.callDepth = 0 ↔ p'.callDepth = 0

variable {R} in
theorem Readable.chain_of_place {w : W} {p p' : Place} {m m' : Machine} (hp : R.Readable w p p')
    (hm : m.place = p ∧ m'.place = p') : R.chain w m.scope m'.scope := by
  obtain ⟨rfl, rfl⟩ := hm
  exact hp.chain

variable [Preorder W]

/-- The steps of the machine keep the stores alike; a new scope and a new identity lead to a
later stage. -/
structure Steady : Prop where
  faithful : R.toLikeness.Faithful
  likeness_mono {w w' : W} : w ≤ w' → R.toLikeness.Extends w w'
  home_mono {w w' : W} {c c' : Chain} : w ≤ w' → R.home w c c' → R.home w' c c'
  chain_of_home {w : W} {c c' : Chain} : R.home w c c' → R.chain w c c'
  expressions {w : W} {n n' : Node} : R.expression w n n' → R.Expressions w n n'
  statements {w : W} {n n' : Node} : R.statement w n n' → R.Statements w n n'
  cause_self {c : Cause} : c.isFallback = false → c.isNaming = false → R.cause c c
  cause_undefined {a a' : String} :
    R.spelling a a' → R.cause (.undefinedVariable a) (.undefinedVariable a')
  get? {w : W} {s s' : Store} {c c' : Chain} {a a' : String} :
    R.store w s s' → R.chain w c c' → R.spelling a a' →
      Option.Rel (R.Values w) (s.scopes.get? c a) (s'.scopes.get? c' a')
  assign {w : W} {s s' : Store} {c c' : Chain} {a a' : String} {v v' : Value} :
    R.store w s s' → R.chain w c c' → R.spelling a a' → R.Values w v v' →
      Option.Rel (fun id id' => R.store w (s.define id a v) (s'.define id' a' v'))
        (s.scopes.owner? c a) (s'.scopes.owner? c' a')
  define {w : W} {s s' : Store} {c c' : Chain} {a a' : String} {v v' : Value} :
    R.store w s s' → R.home w c c' → R.spelling a a' → R.Values w v v' →
      R.store w (s.define c.here a v) (s'.define c'.here a' v')
  push {w : W} {s s' : Store} {c c' : Chain} {t t' : Table} :
    R.store w s s' → R.chain w c c' → R.Tables w t t' →
      ∃ w', w ≤ w' ∧ R.store w' (s.push t) (s'.push t') ∧
        R.home w' (c.extend s.scopes.next) (c'.extend s'.scopes.next)
  printLine {w : W} {s s' : Store} (text : String) :
    R.store w s s' → R.store w (s.printLine text) (s'.printLine text)
  note {w : W} {s s' : Store} (entry : View) :
    R.store w s s' → R.store w (s.note entry) (s'.note entry)
  notes_eq {w : W} {s s' : Store} : R.store w s s' → s.notes = s'.notes
  identify {w : W} {s s' : Store} :
    R.store w s s' →
      ∃ w', w ≤ w' ∧ R.store w' s.identify s'.identify ∧
        R.identity w' s.nextIdentity s'.nextIdentity

/-- Besides, a host function may blame its failures on any token. -/
structure Lawful : Prop extends R.Steady where
  blame_self (t : Token) : R.blame t t

/-! ### Steps that end alike -/

variable {α β : Type}

/-- Two results that are alike: values or interrupts with the stores at some later stage, at the
places where the comparison is made. -/
inductive Ends (p p' : Place) (w : W) (Q : W → α → α → Prop) :
    EStateM.Result Interrupt Machine α → EStateM.Result Interrupt Machine α → Prop
  | ok {w' : W} {s s' : Store} {a a' : α} :
      w ≤ w' → R.store w' s s' → Q w' a a' → Ends p p' w Q (.ok a (s.at p)) (.ok a' (s'.at p'))
  | error {w' : W} {s s' : Store} {e e' : Interrupt} :
      w ≤ w' → R.store w' s s' → R.Interrupts w' e e' →
      Ends p p' w Q (.error e (s.at p)) (.error e' (s'.at p'))
  | left {m : Machine} {r : EStateM.Result Interrupt Machine α} :
      R.lax → Ends p p' w Q (.error .overflow m) r
  | right {m : Machine} {r : EStateM.Result Interrupt Machine α} :
      R.lax → Ends p p' w Q r (.error .overflow m)

/-- Two steps that end alike if they begin in stores that are alike. -/
def Agree (p p' : Place) (w : W) (Q : W → α → α → Prop) (r r' : Run α) : Prop :=
  ∀ s s', R.store w s s' → R.Ends p p' w Q (r (s.at p)) (r' (s'.at p'))

/-- Any two values are alike. -/
def Any : W → α → α → Prop := fun _ _ _ => True

variable {R} {p p' : Place} {w w' : W} {Q : W → α → α → Prop} {Q' : W → β → β → Prop}

theorem Ends.weaken {r r' : EStateM.Result Interrupt Machine α} (hw : w ≤ w')
    (h : R.Ends p p' w' Q r r') : R.Ends p p' w Q r r' := by
  cases h with
  | ok hw' hs ha => exact .ok (hw.trans hw') hs ha
  | error hw' hs he => exact .error (hw.trans hw') hs he
  | left hlax => exact .left hlax
  | right hlax => exact .right hlax

/-- Where both sides are broken off, the interrupts are alike. -/
theorem Ends.interrupts {e e' : Interrupt} {m m' : Machine} (hlax : ¬ R.lax)
    (h : R.Ends p p' w Q (.error e m) (.error e' m')) :
    ∃ w', w ≤ w' ∧ R.Interrupts w' e e' := by
  cases h with
  | error hw _ he => exact ⟨_, hw, he⟩
  | left h => exact absurd h hlax
  | right h => exact absurd h hlax

namespace Agree

theorem pure {a a' : α} (ha : Q w a a') : R.Agree p p' w Q (pure a) (pure a') :=
  fun _ _ hs => .ok le_rfl hs ha

theorem throw {e e' : Interrupt} (he : R.Interrupts w e e') :
    R.Agree p p' w Q (throw e) (throw e') :=
  fun _ _ hs => .error le_rfl hs he

theorem fail {c c' : Cause} {t t' : Option Token} (hc : R.cause c c')
    (ht : Option.Rel R.blame t t') : R.Agree p p' w Q (Run.fail c t) (Run.fail c' t') :=
  throw (.failed ⟨hc, ht⟩)

/-- Two steps in a row end alike if their parts do, the second from what the first has made of the
stores. -/
theorem bind {r r' : Run α} {q q' : α → Run β} (hr : R.Agree p p' w Q r r')
    (hq : ∀ w' a a', w ≤ w' → Q w' a a' → R.Agree p p' w' Q' (q a) (q' a')) :
    R.Agree p p' w Q' (r >>= q) (r' >>= q') := by
  intro s s' hs
  have h := hr s s' hs
  generalize hx : r (s.at p) = x at h
  generalize hx' : r' (s'.at p') = x' at h
  cases h with
  | ok hw hs₁ ha =>
    rw [Run.bind_of_ok hx, Run.bind_of_ok hx']
    exact (hq _ _ _ hw ha _ _ hs₁).weaken hw
  | error hw hs₁ he =>
    rw [Run.bind_of_error hx, Run.bind_of_error hx']
    exact .error hw hs₁ he
  | left hlax =>
    rw [Run.bind_of_error hx]
    exact .left hlax
  | right hlax =>
    rw [Run.bind_of_error hx']
    exact .right hlax

theorem map {r r' : Run α} {f f' : α → β} (hr : R.Agree p p' w Q r r')
    (hf : ∀ w' a a', Q w' a a' → Q' w' (f a) (f' a')) :
    R.Agree p p' w Q' (do return f (← r)) (do return f' (← r')) :=
  hr.bind fun _ _ _ _ ha => pure (hf _ _ _ ha)

/-- The place at which a comparison is made is known to both sides. -/
theorem get : R.Agree p p' w (fun _ m m' => m.place = p ∧ m'.place = p') get get :=
  fun _ _ hs => .ok le_rfl hs ⟨rfl, rfl⟩

theorem ofOutcomes {r r' : Except Failure Value} (h : R.Outcomes w r r') :
    R.Agree p p' w R.Values (Run.ofExcept r) (Run.ofExcept r') := by
  cases h with
  | ok hv => exact pure hv
  | error hf => exact throw (.failed hf)

/-- A step inside other scopes, which are left again. -/
theorem within {r r' : Run Unit} {c c' : Chain}
    (h : R.Agree { p with scope := c } { p' with scope := c' } w Any r r') :
    R.Agree p p' w Any (Run.within c r) (Run.within c' r') := by
  intro s s' hs
  have hr : R.Ends { p with scope := c } { p' with scope := c' } w Any
      (r { s.at p with scope := c }) (r' { s'.at p' with scope := c' }) := h s s' hs
  unfold Run.within
  generalize r { s.at p with scope := c } = x at hr ⊢
  generalize r' { s'.at p' with scope := c' } = x' at hr ⊢
  cases hr with
  | ok hw hs₁ ha => exact .ok hw hs₁ ha
  | error hw hs₁ he => exact .error hw hs₁ he
  | left hlax => exact .left hlax
  | right hlax => exact .right hlax

/-- A step that only one side makes inside other scopes. -/
theorem withinLeft {r r' : Run α} {c : Chain} (h : R.Agree { p with scope := c } p' w Q r r') :
    R.Agree p p' w Q (Run.within c r) r' := by
  intro s s' hs
  have hr : R.Ends { p with scope := c } p' w Q (r { s.at p with scope := c }) (r' (s'.at p')) :=
    h s s' hs
  unfold Run.within
  generalize r { s.at p with scope := c } = x at hr ⊢
  generalize r' (s'.at p') = x' at hr ⊢
  cases hr with
  | ok hw hs₁ ha => exact .ok hw hs₁ ha
  | error hw hs₁ he => exact .error hw hs₁ he
  | left hlax => exact .left hlax
  | right hlax => exact .right hlax

/-- A step inside one more call, where return statements are allowed on both sides. -/
theorem counted {r r' : Run α}
    (h : R.Agree { p with callDepth := p.callDepth + 1 }
      { p' with callDepth := p'.callDepth + 1 } w Q r r') :
    R.Agree p p' w Q (Run.counted r) (Run.counted r') := by
  intro s s' hs
  have hr : R.Ends { p with callDepth := p.callDepth + 1 }
      { p' with callDepth := p'.callDepth + 1 } w Q
      (r { s.at p with callDepth := (s.at p).callDepth + 1 })
      (r' { s'.at p' with callDepth := (s'.at p').callDepth + 1 }) := h s s' hs
  unfold Run.counted
  generalize r { s.at p with callDepth := (s.at p).callDepth + 1 } = x at hr ⊢
  generalize r' { s'.at p' with callDepth := (s'.at p').callDepth + 1 } = x' at hr ⊢
  cases hr with
  | ok hw hs₁ ha => exact .ok hw hs₁ ha
  | error hw hs₁ he => exact .error hw hs₁ he
  | left hlax => exact .left hlax
  | right hlax => exact .right hlax

theorem adopting {r r' : Run α} {t t' : Token} (ht : R.blame t t') (h : R.Agree p p' w Q r r') :
    R.Agree p p' w Q (Run.adopting t r) (Run.adopting t' r') := by
  intro s s' hs
  have hr := h s s' hs
  unfold Run.adopting
  generalize r (s.at p) = x at hr ⊢
  generalize r' (s'.at p') = x' at hr ⊢
  cases hr with
  | ok hw hs₁ ha => exact .ok hw hs₁ ha
  | error hw hs₁ he =>
    cases he with
    | @failed f f' hf =>
      refine .error hw hs₁ (.failed ⟨hf.cause, .some ?_⟩)
      have htoken := hf.token
      generalize f.token = o at htoken ⊢
      generalize f'.token = o' at htoken ⊢
      cases htoken with
      | some hb => exact hb
      | none => exact ht
    | returned hv => exact .error hw hs₁ (.returned hv)
    | overflow => exact .error hw hs₁ .overflow
    | unfinished => exact .error hw hs₁ .unfinished
    | broken fault => exact .error hw hs₁ (.broken fault)
  | left hlax => exact .left hlax
  | right hlax =>
    cases x with
    | ok a m => exact .right hlax
    | error e m => cases e <;> exact .right hlax

theorem catchingReturn {r r' : Run Unit} (h : R.Agree p p' w Any r r') :
    R.Agree p p' w R.Values (Run.catchingReturn r) (Run.catchingReturn r') := by
  intro s s' hs
  have hr := h s s' hs
  unfold Run.catchingReturn
  generalize r (s.at p) = x at hr ⊢
  generalize r' (s'.at p') = x' at hr ⊢
  cases hr with
  | ok hw hs₁ _ => exact .ok hw hs₁ .nil
  | error hw hs₁ he =>
    cases he with
    | returned hv => exact .ok hw hs₁ hv
    | failed hf => exact .error hw hs₁ (.failed hf)
    | overflow => exact .error hw hs₁ .overflow
    | unfinished => exact .error hw hs₁ .unfinished
    | broken fault => exact .error hw hs₁ (.broken fault)
  | left hlax => exact .left hlax
  | right hlax => exact .right hlax

/-- Loops end alike if their passes do, at every stage they may find. -/
theorem iterate {r r' : Run Bool} (passes : Nat)
    (h : ∀ w', w ≤ w' → R.Agree p p' w' (fun _ b b' => b = b') r r') :
    R.Agree p p' w Any (Run.iterate passes r) (Run.iterate passes r') := by
  induction passes generalizing w with
  | zero => exact throw .unfinished
  | succ passes ih =>
    intro s s' hs
    have hr := h w le_rfl s s' hs
    generalize hx : r (s.at p) = x at hr
    generalize hx' : r' (s'.at p') = x' at hr
    cases hr with
    | @ok w' s₁ s₁' again again' hw hs₁ hagain =>
      subst hagain
      cases again with
      | true =>
        rw [Run.iterate_of_again _ hx, Run.iterate_of_again _ hx']
        exact (ih (fun w'' hw' => h w'' (hw.trans hw')) _ _ hs₁).weaken hw
      | false =>
        rw [Run.iterate_of_done _ hx, Run.iterate_of_done _ hx']
        exact .ok hw hs₁ trivial
    | error hw hs₁ he =>
      rw [Run.iterate_of_error _ hx, Run.iterate_of_error _ hx']
      exact .error hw hs₁ he
    | left hlax =>
      rw [Run.iterate_of_error _ hx]
      exact .left hlax
    | right hlax =>
      rw [Run.iterate_of_error _ hx']
      exact .right hlax

end Agree

/-! ### The steps of the machine -/

/-- Engines that do alike with what is alike. A call may be made from any places, if return
statements are alike there. -/
structure Engines (R : Simulation W) (e e' : Engine) : Prop where
  evaluate {n n' : Node} {w : W} {p p' : Place} :
    R.expression w n n' → R.Readable w p p' →
      R.Agree p p' w R.Values (e.evaluate n) (e'.evaluate n')
  execute {n n' : Node} {w : W} {p p' : Place} :
    R.statement w n n' → R.Writable w p p' → R.Agree p p' w Any (e.execute n) (e'.execute n')
  invoke {f f' : Value} {vs vs' : List Value} {w : W} {p p' : Place} :
    R.Values w f f' → List.Forall₂ (R.Values w) vs vs' → (p.callDepth = 0 ↔ p'.callDepth = 0) →
      R.Agree p p' w R.Answers (e.invoke f vs) (e'.invoke f' vs')

namespace Steady

variable (h : R.Steady)

include h

theorem readable_mono (hw : w ≤ w') (hp : R.Readable w p p') : R.Readable w' p p' :=
  ⟨(h.likeness_mono hw).chain hp.chain, hp.calls⟩

theorem writable_mono (hw : w ≤ w') (hp : R.Writable w p p') : R.Writable w' p p' :=
  ⟨h.home_mono hw hp.home, hp.calls⟩

theorem readable (hp : R.Writable w p p') : R.Readable w p p' :=
  ⟨h.chain_of_home hp.home, hp.calls⟩

theorem values_mono (hw : w ≤ w') {v v' : Value} (hv : R.Values w v v') : R.Values w' v v' :=
  hv.mono (h.likeness_mono hw)

theorem answers_mono (hw : w ≤ w') {as as' : List Answer}
    (has : List.Forall₂ (R.Answers w) as as') : List.Forall₂ (R.Answers w') as as' :=
  has.imp fun _ _ ha => ha.mono (h.likeness_mono hw)

theorem fail {c : Cause} {t t' : Option Token} (hc : c.isFallback = false)
    (hnaming : c.isNaming = false) (ht : Option.Rel R.blame t t') :
    R.Agree p p' w Q (Run.fail c t) (Run.fail c t') :=
  .fail (h.cause_self hc hnaming) ht

theorem newIdentity :
    R.Agree p p' w (fun w i i' => R.identity w i i') Run.newIdentity Run.newIdentity := by
  intro s s' hs
  obtain ⟨w', hw, hs', hi⟩ := h.identify hs
  exact .ok hw hs' hi

/-- A number that is not a number is made anew on both sides. -/
theorem computed {v v' : Value} (hv : R.Values w v v') :
    R.Agree p p' w R.Values (Run.computed v) (Run.computed v') := by
  cases hv with
  | number x ho =>
    simp only [Run.computed]
    split
    · exact h.newIdentity.map fun _ _ _ hi => .number x (.computed hi)
    · exact .pure (.number x ho)
  | nil => exact .pure .nil
  | bool b => exact .pure (.bool b)
  | string s => exact .pure (.string s)
  | function hf => exact .pure (.function hf)
  | native index => exact .pure (.native index)

theorem lookup {t t' : Token} (ht : R.Names t t') (hp : R.Readable w p p') :
    R.Agree p p' w R.Values (Run.lookup t) (Run.lookup t') := by
  intro s s' hs
  have hget := h.get? hs hp.chain ht.spelling
  rw [Store.lookup_at, Store.lookup_at]
  generalize s.scopes.get? p.scope t.lexeme = o at hget ⊢
  generalize s'.scopes.get? p'.scope t'.lexeme = o' at hget ⊢
  cases hget with
  | some hv => exact .ok le_rfl hs hv
  | none =>
    exact .error le_rfl hs (.failed ⟨h.cause_undefined ht.spelling, .some ht.blame⟩)

theorem assignment {t t' : Token} (ht : R.Names t t') {v v' : Value} (hv : R.Values w v v')
    (hp : R.Readable w p p') : R.Agree p p' w Any (Run.assign t v) (Run.assign t' v') := by
  intro s s' hs
  have howner := h.assign hs hp.chain ht.spelling hv
  rw [Store.assign_at, Store.assign_at]
  generalize s.scopes.owner? p.scope t.lexeme = o at howner ⊢
  generalize s'.scopes.owner? p'.scope t'.lexeme = o' at howner ⊢
  cases howner with
  | some hs' => exact .ok le_rfl hs' trivial
  | none =>
    exact .error le_rfl hs (.failed ⟨h.cause_undefined ht.spelling, .some ht.blame⟩)

theorem definition {a a' : String} (ha : R.spelling a a') {v v' : Value}
    (hv : R.Values w v v') (hp : R.Writable w p p') :
    R.Agree p p' w Any (Run.define a v) (Run.define a' v') :=
  fun _ _ hs => .ok le_rfl (h.define hs hp.home ha hv) trivial

theorem newScope {c c' : Chain} (hc : R.chain w c c') {t t' : Table} (ht : R.Tables w t t') :
    R.Agree p p' w (fun w c c' => R.home w c c') (Run.newScope c t) (Run.newScope c' t') := by
  intro s s' hs
  obtain ⟨w', hw, hs', hhome⟩ := h.push hs hc ht
  exact .ok hw hs' hhome

theorem print {v v' : Value} (hv : R.Values w v v') :
    R.Agree p p' w Any (Run.printLine v.text) (Run.printLine v'.text) := by
  intro s s' hs
  rw [hv.text_eq]
  exact .ok le_rfl (h.printLine v'.text hs) trivial

/-! ### Host functions -/

theorem offered {as as' : List Answer} (has : List.Forall₂ (R.Answers w) as as')
    (offer : Offer) :
    R.Agree p p' w R.Answers (Engine.offered as offer) (Engine.offered as' offer) := by
  cases offer with
  | given index =>
    have ha := Likeness.getElem?_rel has index
    simp only [Engine.offered]
    generalize as[index]? = o at ha ⊢
    generalize as'[index]? = o' at ha ⊢
    cases ha with
    | none => exact .throw (.broken _)
    | some ha => exact .pure ha
  | number x => exact (h.computed (.ofData rfl)).map fun _ _ _ hv => .value hv
  | nil => exact .pure (.value .nil)
  | bool b => exact .pure (.value (.bool b))
  | string s => exact .pure (.value (.string s))
  | nothing => exact .pure .nothing
  | foreign typeName => exact .pure (.foreign typeName)

theorem passed {as as' : List Answer} (has : List.Forall₂ (R.Answers w) as as') (offer : Offer) :
    R.Agree p p' w R.Values (Engine.passed as offer) (Engine.passed as' offer) := by
  refine (h.offered has offer).bind fun w₁ a a' _ ha => ?_
  cases ha with
  | value hv => exact .pure hv
  | nothing => exact .throw (.broken _)
  | foreign typeName => exact .throw (.broken _)

theorem passedAll {as as' : List Answer} (has : List.Forall₂ (R.Answers w) as as')
    (offers : List Offer) :
    R.Agree p p' w (fun w => List.Forall₂ (R.Values w)) (Engine.passedAll as offers)
      (Engine.passedAll as' offers) := by
  induction offers generalizing w with
  | nil => exact .pure .nil
  | cons offer offers ih =>
    refine (h.passed has offer).bind fun w₁ v v' hw₁ hv => ?_
    refine (ih (h.answers_mono hw₁ has)).bind fun w₂ vs vs' hw₂ hvs => ?_
    exact .pure (.cons (h.values_mono hw₂ hv) hvs)

/-- Nothing that a host function is given corresponds to two things. -/
theorem compared {as as' : List Answer} (has : List.Forall₂ (R.Answers w) as as')
    (left right : Nat) :
    R.Agree p p' w (fun _ same same' => same = same') (Engine.compared as left right)
      (Engine.compared as' left right) := by
  have hleft := Likeness.getElem?_rel has left
  have hright := Likeness.getElem?_rel has right
  unfold Engine.compared
  generalize as[left]? = l, as[right]? = r at hleft hright ⊢
  generalize as'[left]? = l', as'[right]? = r' at hleft hright ⊢
  cases hleft with
  | none => exact .throw (.broken _)
  | some ha =>
    cases hright with
    | none => exact .throw (.broken _)
    | some hb => exact .pure (ha.equal_eq h.faithful hb)

theorem noted (entry : View) : R.Agree p p' w Any (Run.note entry) (Run.note entry) :=
  fun _ _ hs => .ok le_rfl (h.note entry hs) trivial

/-- The notes are the same on both sides. -/
theorem consulted :
    R.Agree p p' w (fun _ (m m' : Machine) => m.notes = m'.notes) get get :=
  fun _ _ hs => .ok le_rfl hs (h.notes_eq hs)

variable {host : Host} {e e' : Engine} (he : R.Engines e e')

include he

/-- A host function does alike on both sides, since it sees of its arguments, and of what its
calls answer, nothing that differs. -/
theorem act {as as' : List Answer} (has : List.Forall₂ (R.Answers w) as as') {action : Action}
    (haction : action.Blames fun t => R.blame t t) (hcalls : p.callDepth = 0 ↔ p'.callDepth = 0) :
    R.Agree p p' w R.Answers (Engine.act e as action) (Engine.act e' as' action) := by
  induction action generalizing as as' w with
  | done offer => exact h.offered has offer
  | fail kind message token =>
    refine h.fail rfl rfl ?_
    cases token with
    | none => exact .none
    | some t => exact .some (haction t rfl)
  | crash fault => exact .throw (.broken fault)
  | invoke callee arguments next ih =>
    refine (h.passed has (.given callee)).bind fun w₁ f f' hw₁ hf => ?_
    have has₁ := h.answers_mono hw₁ has
    refine (h.passedAll has₁ arguments).bind fun w₂ vs vs' hw₂ hvs => ?_
    have has₂ := h.answers_mono hw₂ has₁
    refine (he.invoke (h.values_mono hw₂ hf) hvs hcalls).bind fun w₃ a a' hw₃ ha => ?_
    rw [ha.view_eq]
    exact ih _ (List.rel_append (h.answers_mono hw₃ has₂) (.cons ha .nil)) (haction _)
  | compare left right next ih =>
    refine (h.compared has left right).bind fun w₁ same same' hw₁ hsame => ?_
    exact hsame ▸ ih same (h.answers_mono hw₁ has) (haction same)
  | note entry next ih =>
    exact (h.noted entry).bind fun w₁ _ _ hw₁ _ => ih (h.answers_mono hw₁ has) haction
  | consult next ih =>
    refine h.consulted.bind fun w₁ m m' hw₁ hnotes => ?_
    exact hnotes ▸ ih m.notes (h.answers_mono hw₁ has) (haction m.notes)

/-! ### Expressions -/

theorem evaluateAll {ns ns' : List Node} (hns : List.Forall₂ (R.expression w) ns ns')
    (hp : R.Readable w p p') :
    R.Agree p p' w (fun w => List.Forall₂ (R.Values w)) (Engine.evaluateAll e ns)
      (Engine.evaluateAll e' ns') := by
  induction ns generalizing w ns' with
  | nil =>
    cases hns
    exact .pure .nil
  | cons n ns ih =>
    cases hns with
    | @cons _ n' _ ns' hn hns =>
      refine (he.evaluate hn hp).bind fun w₁ v v' hw₁ hv => ?_
      have hns₁ := hns.imp fun _ _ => (h.likeness_mono hw₁).expression
      refine (ih hns₁ (h.readable_mono hw₁ hp)).bind fun w₂ vs vs' hw₂ hvs => ?_
      exact .pure (.cons (h.values_mono hw₂ hv) hvs)

/-- Calls are alike wherever they are made from. -/
theorem call {f f' : Value} {vs vs' : List Value} {paren paren' : Token} (hf : R.Values w f f')
    (hvs : List.Forall₂ (R.Values w) vs vs') (hparen : R.blame paren paren') :
    R.Agree p p' w R.Values (Engine.call host e f vs paren)
      (Engine.call host e' f' vs' paren') := by
  simp only [Engine.call, ← hf.arity_eq host, ← hvs.length_eq]
  split
  · exact h.fail rfl rfl (.some hparen)
  · refine .counted (.adopting hparen ((he.invoke hf hvs (by simp)).bind ?_))
    intro w₁ a a' _ ha
    cases ha with
    | value hv => exact .pure hv
    | nothing => exact .pure .nil
    | foreign typeName => exact h.fail rfl rfl .none

omit he in
theorem result {r r' : Except Failure Value} (hr : R.Outcomes w r r') :
    R.Agree p p' w R.Values (do Run.computed (← Run.ofExcept r))
      (do Run.computed (← Run.ofExcept r')) :=
  (Agree.ofOutcomes hr).bind fun _ _ _ _ hv => h.computed hv

theorem evaluateNode {n n' : Node} (hn : R.expression w n n') (hp : R.Readable w p p') :
    R.Agree p p' w R.Values (Engine.evaluateNode host e n) (Engine.evaluateNode host e' n') := by
  cases h.expressions hn with
  | literal hl => exact .ofOutcomes hl
  | grouping hinner => exact he.evaluate hinner hp
  | unary hop hcause hoperand =>
    exact (he.evaluate hoperand hp).bind fun _ _ _ _ hv => h.result (hv.applyUnary hop hcause)
  | binary hl hop hcause hr =>
    refine (he.evaluate hl hp).bind fun w₁ l l' hw₁ hvl => ?_
    have hr' := (h.likeness_mono hw₁).expression hr
    refine (he.evaluate hr' (h.readable_mono hw₁ hp)).bind fun w₂ r r' hw₂ hvr => ?_
    have hvl' := h.values_mono hw₂ hvl
    exact h.result (hvl'.applyBinary h.faithful hop hcause hvr)
  | logical hl hop hr =>
    refine (he.evaluate hl hp).bind fun w₁ l l' hw₁ hvl => ?_
    have hright := he.evaluate ((h.likeness_mono hw₁).expression hr) (h.readable_mono hw₁ hp)
    simp only [← hop, ← hvl.truthy_eq]
    split
    · split
      · exact .pure hvl
      · exact hright
    · split
      · exact hright
      · exact .pure hvl
  | ternary hc ht helse =>
    refine (he.evaluate hc hp).bind fun w₁ c c' hw₁ hv => ?_
    have hw := h.likeness_mono hw₁
    simp only [← hv.truthy_eq]
    split
    · exact he.evaluate (hw.expression ht) (h.readable_mono hw₁ hp)
    · exact he.evaluate (hw.expression helse) (h.readable_mono hw₁ hp)
  | reference hname => exact h.lookup hname hp
  | assign hname hvalue =>
    refine (he.evaluate hvalue hp).bind fun w₁ v v' hw₁ hv => ?_
    refine (h.assignment hname hv (h.readable_mono hw₁ hp)).bind fun w₂ _ _ hw₂ _ => ?_
    exact .pure (h.values_mono hw₂ hv)
  | call hcallee hparen harguments =>
    refine (he.evaluate hcallee hp).bind fun w₁ f f' hw₁ hf => ?_
    have hw := h.likeness_mono hw₁
    simp only [← hf.isCallable_eq]
    split
    · have harguments' := harguments.imp fun _ _ => hw.expression
      have hp₁ := h.readable_mono hw₁ hp
      refine (h.evaluateAll he harguments' hp₁).bind fun w₂ vs vs' hw₂ hvs => ?_
      exact h.call he (h.values_mono hw₂ hf) hvs hparen
    · exact h.fail rfl rfl (.some hparen)
  | other hn hn' hcause =>
    rw [Engine.evaluateNode_of_not_isEvaluable hn, Engine.evaluateNode_of_not_isEvaluable hn']
    exact .fail hcause .none

/-! ### Statements and calls -/

theorem executeAll {ns ns' : List Node} (hns : List.Forall₂ (R.statement w) ns ns')
    (hp : R.Writable w p p') :
    R.Agree p p' w Any (Engine.executeAll e ns) (Engine.executeAll e' ns') := by
  induction ns generalizing w ns' with
  | nil =>
    cases hns
    exact .pure trivial
  | cons n ns ih =>
    cases hns with
    | @cons _ n' _ ns' hn hns =>
      refine (he.execute hn hp).bind fun w₁ _ _ hw₁ _ => ?_
      have hns₁ := hns.imp fun _ _ => (h.likeness_mono hw₁).statement
      exact ih hns₁ (h.writable_mono hw₁ hp)

omit h he in
theorem pass {c c' n n' : Node} (hc : R.Agree p p' w R.Values (e.evaluate c) (e'.evaluate c'))
    (hn : ∀ w₁, w ≤ w₁ → R.Agree p p' w₁ Any (e.execute n) (e'.execute n')) :
    R.Agree p p' w (fun _ b b' => b = b') (Engine.pass e c n) (Engine.pass e' c' n') := by
  refine hc.bind fun w₁ v v' hw₁ hv => ?_
  simp only [← hv.truthy_eq]
  split
  · exact (hn w₁ hw₁).bind fun _ _ _ _ _ => .pure rfl
  · exact .pure rfl

omit h in
theorem givenBack {n n' : Option Node} (hn : Option.Rel (R.expression w) n n')
    (hp : R.Readable w p p') :
    R.Agree p p' w R.Values (Engine.givenBack e n) (Engine.givenBack e' n') := by
  cases hn with
  | none => exact .pure .nil
  | some hn => exact he.evaluate hn hp

omit h he in
/-- A return statement is allowed on both sides or on none. -/
theorem returning {r r' : Run Value} {keyword keyword' : Token}
    (hcause : R.cause .returnOutsideFunction .returnOutsideFunction)
    (hkeyword : R.blame keyword keyword') (hp : p.callDepth = 0 ↔ p'.callDepth = 0)
    (hr : R.Agree p p' w R.Values r r') :
    R.Agree p p' w Any (Run.returning keyword r) (Run.returning keyword' r') := by
  intro s s' hs
  by_cases hzero : p.callDepth = 0
  · have hleft : Run.returning keyword r (s.at p) = _ := Run.returning_of_zero keyword r hzero
    have hright : Run.returning keyword' r' (s'.at p') = _ :=
      Run.returning_of_zero keyword' r' (hp.mp hzero)
    rw [hleft, hright]
    exact .error le_rfl hs (.failed ⟨hcause, .some hkeyword⟩)
  · have hright : (s'.at p').callDepth ≠ 0 := fun hzero' => hzero (hp.mpr hzero')
    have hends := hr s s' hs
    generalize hx : r (s.at p) = x at hends
    generalize hx' : r' (s'.at p') = x' at hends
    cases hends with
    | ok hw hs₁ hv =>
      rw [Run.returning_of_ok keyword hzero hx, Run.returning_of_ok keyword' hright hx']
      exact .error hw hs₁ (.returned hv)
    | error hw hs₁ hi =>
      rw [Run.returning_of_error keyword hzero hx, Run.returning_of_error keyword' hright hx']
      exact .error hw hs₁ hi
    | left hlax =>
      rw [Run.returning_of_error keyword hzero hx]
      exact .left hlax
    | right hlax =>
      rw [Run.returning_of_error keyword' hright hx']
      exact .right hlax

/-- A block makes a scope of its own, so that nothing is defined in the scope around it. -/
theorem block (passes : Nat) {ns ns' : List Node}
    (hns : List.Forall₂ (R.statement w) ns ns') (hp : R.Readable w p p') :
    R.Agree p p' w Any (Engine.executeNode passes e (.block ns))
      (Engine.executeNode passes e' (.block ns')) := by
  refine Agree.get.bind fun w₁ m m' hw₁ hm => ?_
  have hchain := (h.readable_mono hw₁ hp).chain_of_place hm
  refine (h.newScope hchain .nil).bind fun w₂ c c' hw₂ hc => ?_
  have hns₂ := hns.imp fun _ _ => (h.likeness_mono (hw₁.trans hw₂)).statement
  exact .within (h.executeAll he hns₂ ⟨hc, hp.calls⟩)

/-- A statement does alike where names are looked up alike, provided that the definitions it makes
and the statements it executes in place do. -/
theorem executeNode_of_readable {n n' : Node} (hn : R.statement w n n') (hp : R.Readable w p p')
    (hdefine : n.isDefinition → ∀ {w₁ a a' v v'}, w ≤ w₁ → R.spelling a a' → R.Values w₁ v v' →
      R.Agree p p' w₁ Any (Run.define a v) (Run.define a' v'))
    (hinPlace : ∀ k ∈ n.inPlace, ∀ {w₁ k'}, w ≤ w₁ → R.statement w₁ k k' →
      R.Agree p p' w₁ Any (e.execute k) (e'.execute k')) :
    R.Agree p p' w Any (Engine.executeNode host.passes e n)
      (Engine.executeNode host.passes e' n') := by
  cases h.statements hn with
  | expression hinner => exact (he.evaluate hinner hp).bind fun _ _ _ _ _ => .pure trivial
  | print hinner => exact (he.evaluate hinner hp).bind fun _ _ _ _ hv => h.print hv
  | declare hname hinitializer =>
    cases hinitializer with
    | none => exact hdefine rfl le_rfl hname.spelling .nil
    | some hinitializer =>
      exact (he.evaluate hinitializer hp).bind fun w₁ v v' hw₁ hv =>
        hdefine rfl hw₁ hname.spelling hv
  | block hns => exact h.block he host.passes hns hp
  | branch hc ht helse =>
    refine (he.evaluate hc hp).bind fun w₁ v v' hw₁ hv => ?_
    have hw := h.likeness_mono hw₁
    simp only [← hv.truthy_eq]
    split
    · exact hinPlace _ (by simp [Node.inPlace]) hw₁ (hw.statement ht)
    · cases helse with
      | none => exact .pure trivial
      | some helse => exact hinPlace _ (by simp [Node.inPlace]) hw₁ (hw.statement helse)
  | loop hc hbody =>
    refine .iterate host.passes fun w₁ hw₁ => ?_
    have hw := h.likeness_mono hw₁
    refine pass (he.evaluate (hw.expression hc) (h.readable_mono hw₁ hp)) fun w₂ hw₂ => ?_
    have hbody₂ := (h.likeness_mono hw₂).statement (hw.statement hbody)
    exact hinPlace _ (by simp [Node.inPlace]) (hw₁.trans hw₂) hbody₂
  | function hname htext hparams hbody =>
    refine h.newIdentity.bind fun w₁ i i' hw₁ hi => ?_
    refine Agree.get.bind fun w₂ m m' hw₂ hm => ?_
    have hw := h.likeness_mono (hw₁.trans hw₂)
    have hchain := (h.readable_mono (hw₁.trans hw₂) hp).chain_of_place hm
    refine hdefine rfl (hw₁.trans hw₂) hname.spelling (.function ?_)
    exact ⟨(h.likeness_mono hw₂).identity hi, htext, hname.blame, hparams,
      hbody.imp fun _ _ => hw.statement, hchain⟩
  | returning hkeyword hvalue =>
    exact returning (h.cause_self rfl rfl) hkeyword hp.calls (givenBack he hvalue hp)
  | other hn hn' hcause =>
    rw [Engine.executeNode_of_not_isExecutable hn, Engine.executeNode_of_not_isExecutable hn']
    exact .fail hcause .none

theorem executeNode {n n' : Node} (hn : R.statement w n n') (hp : R.Writable w p p') :
    R.Agree p p' w Any (Engine.executeNode host.passes e n)
      (Engine.executeNode host.passes e' n') :=
  h.executeNode_of_readable he hn (h.readable hp)
    (fun _ _ _ _ _ _ hw ha hv => h.definition ha hv (h.writable_mono hw hp))
    fun _ _ _ _ hw hk => he.execute hk (h.writable_mono hw hp)

theorem enter {f f' : Closure} (hf : R.Closures w f f') {vs vs' : List Value}
    (hvs : List.Forall₂ (R.Values w) vs vs') (hcalls : p.callDepth = 0 ↔ p'.callDepth = 0) :
    R.Agree p p' w R.Values (Engine.enter e f vs) (Engine.enter e' f' vs') := by
  have htables := Likeness.Tables.bindings h.faithful hf hvs
  refine (h.newScope hf.scope htables).bind fun w₁ c c' hw₁ hc => ?_
  have hbody := hf.body.imp fun _ _ => (h.likeness_mono hw₁).statement
  exact .catchingReturn (.within (h.executeAll he hbody ⟨hc, hcalls⟩))

variable (hhost : host.Blames fun t => R.blame t t)

include hhost

theorem perform {f f' : Value} (hf : R.Values w f f') {vs vs' : List Value}
    (hvs : List.Forall₂ (R.Values w) vs vs') (hcalls : p.callDepth = 0 ↔ p'.callDepth = 0) :
    R.Agree p p' w R.Answers (Engine.perform host e f vs) (Engine.perform host e' f' vs') := by
  cases hf with
  | function hf => exact (h.enter he hf hvs hcalls).map fun _ _ _ hv => .value hv
  | native index =>
    simp only [Engine.perform]
    split
    · rename_i n hn
      rw [Likeness.map_view_eq hvs]
      refine h.act he ?_ (hhost n (List.mem_of_getElem? hn) _) hcalls
      exact List.rel_map (fun _ _ hv => .value hv) hvs
    · exact .throw (.broken _)
  | _ => exact .throw (.broken _)

/-- One level of the engine makes alike of alike if the level below does. -/
theorem above : R.Engines (Engine.above host e) (Engine.above host e') :=
  ⟨h.evaluateNode he, h.executeNode he, fun hf hvs hcalls => h.perform he hhost hf hvs hcalls⟩

omit he in
/-- Every level of the engine makes alike of alike, and so do two levels if nothing is said of
overflows. -/
theorem ofDepth {depth depth' : Nat} (hdepth : R.lax ∨ depth = depth') :
    R.Engines (Engine.ofDepth host depth) (Engine.ofDepth host depth') := by
  have overflowing_left (hlax : R.lax) (e : Engine) : R.Engines Engine.overflowing e :=
    ⟨fun _ _ _ _ _ => .left hlax, fun _ _ _ _ _ => .left hlax, fun _ _ _ _ _ _ => .left hlax⟩
  have overflowing_right (hlax : R.lax) (e : Engine) : R.Engines e Engine.overflowing :=
    ⟨fun _ _ _ _ _ => .right hlax, fun _ _ _ _ _ => .right hlax, fun _ _ _ _ _ _ => .right hlax⟩
  induction depth generalizing depth' with
  | zero =>
    obtain hlax | rfl := hdepth
    · exact overflowing_left hlax _
    · exact ⟨fun _ _ => .throw .overflow, fun _ _ => .throw .overflow,
        fun _ _ _ => .throw .overflow⟩
  | succ depth ih =>
    cases depth' with
    | zero => exact overflowing_right (hdepth.resolve_right (by simp)) _
    | succ depth' => exact h.above (ih (hdepth.imp_right Nat.succ.inj)) hhost

end Steady

namespace Lawful

variable (h : R.Lawful)

include h

theorem ofDepth (host : Host) {depth depth' : Nat} (hdepth : R.lax ∨ depth = depth') :
    R.Engines (Engine.ofDepth host depth) (Engine.ofDepth host depth') :=
  h.toSteady.ofDepth (host.blames_of_forall h.blame_self) hdepth

/-- A statement that defines no name in place does alike wherever names are looked up alike. -/
theorem execute_of_definesNothing (host : Host) {depth depth' : Nat}
    (hdepth : R.lax ∨ depth = depth') {n n' : Node} (hnothing : n.DefinesNothing)
    (hn : R.statement w n n') (hp : R.Readable w p p') :
    R.Agree p p' w Any ((Engine.ofDepth host depth).execute n)
      ((Engine.ofDepth host depth').execute n') := by
  induction hnothing generalizing w n' depth depth' with
  | @intro n hdefinition _ ih =>
    cases depth with
    | zero =>
      obtain hlax | rfl := hdepth
      · exact fun _ _ _ => .left hlax
      · exact .throw .overflow
    | succ depth =>
      cases depth' with
      | zero => exact fun _ _ _ => .right (hdepth.resolve_right (by simp))
      | succ depth' =>
        have hbelow := hdepth.imp_right Nat.succ.inj
        refine h.executeNode_of_readable (h.ofDepth host hbelow) hn hp ?_ fun k hk _ _ hw hk' => ?_
        · exact fun hdefines => absurd (hdefinition.symm.trans hdefines) Bool.false_ne_true
        · exact ih k hk hbelow hk' (h.readable_mono hw hp)

end Lawful

end Simulation

end Lox
