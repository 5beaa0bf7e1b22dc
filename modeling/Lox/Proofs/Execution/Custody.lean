import Lox.Proofs.Execution.Chronology
import Lox.Proofs.Execution.Likeness

/-!
# What is in custody at every point of a run

A property of machines, of the chains that are in effect and of the functions that are held, passed
and given back, is kept by a run if it is kept where something is made or written: where a block or
a function makes a scope, where a declaration is executed, and where a variable is assigned to.
Whether it is kept there may depend on the point of the run; everything else the constructs of the
language do is settled here once.

## Main definitions

* `Custody`: a property of machines, chains and functions.
* `Custody.Kept`: looking up agrees with it.
* `Custody.Admits`: so does what a task makes or writes.

## Main results

* `Custody.Kept.ends_above`: what a level does keeps the property if the level below does.
* `Custody.Kept.performs`: the property holds at all points of a run if what is made there agrees
  with it, and `Custody.Kept.occurs`: likewise for a life.
-/

namespace Lox

/-! ### Values that are held in scopes -/

theorem Table.mem_of_get?_eq_some {t : Table} {a : String} {v : Value} (h : t.get? a = some v) :
    (a, v) ∈ t := by
  induction t with
  | nil => cases h
  | cons b t ih =>
    obtain ⟨n, u⟩ := b
    by_cases hn : a = n
    · rw [get?, hn, List.lookup_cons_self] at h
      cases h
      exact hn ▸ List.mem_cons_self
    · rw [get?, List.lookup_cons, beq_false_of_ne hn] at h
      exact List.mem_cons_of_mem _ (ih h)

theorem Table.snd_of_mem_set {t : Table} {a : String} {v : Value} {b : String × Value}
    (h : b ∈ t.set a v) : b.2 = v ∨ b ∈ t := by
  fun_induction Table.set t a v <;> grind

/-- All values that are held in scopes have a property. -/
def Scopes.All (P : Value → Prop) (s : Scopes) : Prop := ∀ id, ∀ b ∈ s.table id, P b.2

namespace Scopes.All

variable {P Q : Value → Prop} {s : Scopes}

theorem mono (hs : s.All P) (h : ∀ v, P v → Q v) : s.All Q := fun id b hb => h b.2 (hs id b hb)

theorem get? (hs : s.All P) {c : Chain} {a : String} {v : Value} (h : s.get? c a = some v) :
    P v := by
  obtain ⟨id, -, hv⟩ := List.exists_of_findSome?_eq_some h
  exact hs id _ (Table.mem_of_get?_eq_some hv)

theorem define (hs : s.All P) (id : ScopeId) (a : String) {v : Value} (hv : P v) :
    (s.define id a v).All P := by
  intro id' b hb
  rw [table_define] at hb
  split at hb
  · obtain rfl | hb := Table.snd_of_mem_set hb
    · exact hv
    · exact hs id b hb
  · exact hs id' b hb

theorem push (hs : s.All P) {t : Table} (ht : ∀ b ∈ t, P b.2) : (s.push t).All P := by
  intro id b hb
  rw [table_push] at hb
  split at hb
  · exact ht b hb
  · exact hs id b hb

end Scopes.All

/-- A call's own scope holds nothing but arguments. -/
theorem Closure.snd_of_mem_bindings {f : Closure} {vs : List Value} {b : String × Value}
    (h : b ∈ f.bindings vs) : b.2 ∈ vs := by
  rw [bindings] at h
  have hfold (ps : List (Token × Value)) (t : Table)
      (hmem : b ∈ ps.foldl (fun t p => t.set p.1.lexeme p.2) t) :
      b ∈ t ∨ b.2 ∈ ps.map Prod.snd := by
    induction ps generalizing t with
    | nil => exact .inl hmem
    | cons p ps ih =>
      obtain hset | hrest := ih _ hmem
      · obtain hv | ht := Table.snd_of_mem_set hset
        · exact .inr (hv ▸ List.mem_cons_self)
        · exact .inl ht
      · exact .inr (List.mem_cons_of_mem _ hrest)
  obtain hmem | hmem := hfold _ [] h
  · cases hmem
  · obtain ⟨p, hp, hv⟩ := List.mem_map.mp hmem
    exact hv ▸ (List.of_mem_zip hp).2

/-! ### Custody -/

/-- A property of machines, of the chains that are in effect in them, and of the functions that are
held by scopes, passed as arguments and given back. -/
structure Custody where
  machine : Machine → Prop
  chain : Machine → Chain → Prop
  closure : Machine → Closure → Prop

namespace Custody

variable (K : Custody)

/-- A value that is no function, or one with the property. -/
def Value (m : Machine) : Value → Prop
  | .function f => K.closure m f
  | _ => True

/-- An answer that is no function, or one with the property. -/
def Answer (m : Machine) : Answer → Prop
  | .value v => K.Value m v
  | _ => True

/-- An interrupt that gives back no other functions. -/
def Interrupt (m : Machine) : Interrupt → Prop
  | .returned v => K.Value m v
  | _ => True

/-- A machine that has the property, in a scope that has it. -/
structure Holds (m : Machine) : Prop where
  machine : K.machine m
  chain : K.chain m m.scope

/-- A task that is about no other values. -/
def Task (m : Machine) : Task → Prop
  | .invoke f vs => K.Value m f ∧ ∀ v ∈ vs, K.Value m v
  | _ => True

/-- Looking up agrees with the property, which is not lost. -/
structure Kept : Prop where
  chain {m m' : Machine} {c : Chain} : m.Precedes m' → K.chain m c → K.chain m' c
  closure {m m' : Machine} {f : Closure} : m.Precedes m' → K.closure m f → K.closure m' f
  congr {m m' : Machine} :
    m'.scopes = m.scopes → m.nextIdentity ≤ m'.nextIdentity → K.machine m → K.machine m'
  get? {m : Machine} {c : Chain} {a : String} {v : Lox.Value} :
    K.machine m → K.chain m c → m.scopes.get? c a = some v → K.Value m v

/-- What a task makes or writes in terms of the level below has the property. -/
def Admits (below : Engine) (m : Machine) : Lox.Task → Prop
  | .evaluate (.assign name value) => ∀ v m' id, below.evaluate value m = .ok v m' →
    m'.scopes.owner? m.scope name.lexeme = some id → K.Holds m' → K.Value m' v →
    K.machine { m' with scopes := m'.scopes.define id name.lexeme v }
  | .execute (.declare name initializer) => ∀ v m', below.givenBack initializer m = .ok v m' →
    K.Holds m' → K.Value m' v →
    K.machine { m' with scopes := m'.scopes.define m.scope.here name.lexeme v }
  | .execute (.function name params body) => K.Holds m →
    K.machine { m with
      nextIdentity := m.nextIdentity + 1
      scopes := m.scopes.define m.scope.here name.lexeme
        (.function ⟨m.nextIdentity, name, params, body, m.scope⟩) }
  | .execute (.block _) => K.Holds m → K.Holds (m.inScope m.scope [])
  | .invoke (.function f) vs => K.Holds m → K.closure m f → (∀ v ∈ vs, K.Value m v) →
    K.Holds (m.inScope f.scope (f.bindings vs))
  | _ => True

/-- A step that ends with a machine that has the property, and with a value as wanted or an
interrupt that has it. -/
inductive Ends {α : Type} (Q : Machine → α → Prop) : EStateM.Result Lox.Interrupt Machine α → Prop
  | ok {m : Machine} {a : α} : K.Holds m → Q m a → Ends Q (.ok a m)
  | error {m : Machine} {e : Lox.Interrupt} : K.Holds m → K.Interrupt m e → Ends Q (.error e m)

/-- Any value. -/
abbrev Any {α : Type} : Machine → α → Prop := fun _ _ => True

/-- A task that an engine performs with such an end. -/
def TaskEnds (e : Engine) (m : Machine) : Lox.Task → Prop
  | .evaluate n => K.Ends K.Value (e.evaluate n m)
  | .execute n => K.Ends Any (e.execute n m)
  | .invoke f vs => K.Ends K.Answer (e.invoke f vs m)

variable {K}

/-! ### Values and ends -/

theorem task_of_isOuter {m : Machine} {t : Lox.Task} (h : t.IsOuter) : K.Task m t := by
  cases t with
  | invoke f vs => exact h.elim
  | _ => trivial

theorem value_of_isData {m : Machine} {v : Lox.Value} (h : v.isData = true) : K.Value m v := by
  cases v with
  | function f => cases h
  | _ => trivial

section Ends

variable {α β : Type} {m m' : Machine} {P Q : Machine → α → Prop}

theorem Ends.bind {p : Run α} {q : α → Run β} {R : Machine → β → Prop}
    (hp : K.Ends P (p m)) (hq : ∀ a m', p m = .ok a m' → K.Holds m' → P m' a → K.Ends R (q a m')) :
    K.Ends R ((p >>= q) m) := by
  cases h : p m with
  | ok a m' =>
    rw [h] at hp
    cases hp with
    | ok hm ha => exact Run.bind_of_ok h ▸ hq a m' h hm ha
  | error e m' =>
    rw [h] at hp
    cases hp with
    | error hm he => exact Run.bind_of_error h ▸ .error hm he

theorem Ends.holds {r : EStateM.Result Lox.Interrupt Machine α} (h : K.Ends P r) :
    K.Holds (endState r) := by
  cases h with
  | ok hm _ => exact hm
  | error hm _ => exact hm

theorem Ends.of_ok {r : EStateM.Result Lox.Interrupt Machine α} {a : α} (h : K.Ends P r)
    (hr : r = .ok a m) : K.Holds m ∧ P m a := by
  subst hr
  cases h with
  | ok hm ha => exact ⟨hm, ha⟩

theorem Holds.fail (h : K.Holds m) (cause : Cause) (token : Option Token) :
    K.Ends P ((Run.fail cause token : Run α) m) :=
  .error h trivial

theorem Holds.ofExcept {r : Except Failure α} (h : K.Holds m) (hr : ∀ a, r = .ok a → P m a) :
    K.Ends P (Run.ofExcept r m) := by
  cases r with
  | ok a => exact .ok h (hr a rfl)
  | error f => exact .error h trivial

end Ends

namespace Kept

variable (hK : K.Kept)

include hK

section

variable {m m' : Machine}

theorem value {v : Lox.Value} (h : m.Precedes m') (hv : K.Value m v) : K.Value m' v := by
  cases v with
  | function f => exact hK.closure h hv
  | _ => trivial

theorem answer {a : Lox.Answer} (h : m.Precedes m') (ha : K.Answer m a) : K.Answer m' a := by
  cases a with
  | value v => exact hK.value h ha
  | _ => trivial

theorem interrupt {e : Lox.Interrupt} (h : m.Precedes m') (he : K.Interrupt m e) :
    K.Interrupt m' e := by
  cases e with
  | returned v => exact hK.value h he
  | _ => trivial

/-- Where a machine stands, what it has printed, and the identities it has given out make no
difference. -/
theorem holds (h : K.Holds m) (hscopes : m'.scopes = m.scopes)
    (hidentity : m.nextIdentity ≤ m'.nextIdentity) (hchain : K.chain m m'.scope) : K.Holds m' := by
  have hprecedes : m.Precedes m' :=
    ⟨Nat.le_of_eq (by rw [hscopes]), hidentity, by rw [hscopes]; exact .refl _⟩
  exact ⟨hK.congr hscopes hidentity h.machine, hK.chain hprecedes hchain⟩

end

/-! ### Steps of the machine -/

section Steps

variable {α : Type} {m : Machine} {Q : Machine → α → Prop}

theorem within {r : Run α} {c : Chain} (hQ : ∀ {m m' a}, m.Precedes m' → Q m a → Q m' a)
    (hr : K.Ends Q (r { m with scope := c })) (hprogress : Run.Progresses r)
    (hchain : K.chain m m.scope) : K.Ends Q (Run.within c r m) := by
  have hm := hprogress { m with scope := c }
  rw [Run.within]
  cases h : r { m with scope := c } with
  | ok a m' =>
    rw [h] at hr hm
    cases hr with
    | ok hholds ha =>
      have hover : m.Precedes m' := ⟨hm.scopes, hm.identities, hm.names⟩
      have hend := hK.chain hover hchain
      have hplace : m'.Precedes { m' with scope := m.scope } := .ofEq rfl rfl
      exact .ok (hK.holds hholds rfl (Nat.le_refl _) hend) (hQ hplace ha)
  | error e m' =>
    rw [h] at hr hm
    cases hr with
    | error hholds he =>
      have hover : m.Precedes m' := ⟨hm.scopes, hm.identities, hm.names⟩
      have hend := hK.chain hover hchain
      have hplace : m'.Precedes { m' with scope := m.scope } := .ofEq rfl rfl
      exact .error (hK.holds hholds rfl (Nat.le_refl _) hend) (hK.interrupt hplace he)

theorem counted {r : Run α} (hQ : ∀ {m m' a}, m.Precedes m' → Q m a → Q m' a)
    (hr : K.Ends Q (r m.inCall)) : K.Ends Q (Run.counted r m) := by
  change K.Ends Q (r { m with callDepth := m.callDepth + 1 }) at hr
  rw [Run.counted]
  cases h : r { m with callDepth := m.callDepth + 1 } with
  | ok a m' =>
    rw [h] at hr
    cases hr with
    | ok hm ha =>
      have hplace : m'.Precedes { m' with callDepth := m'.callDepth - 1 } := .ofEq rfl rfl
      exact .ok (hK.holds hm rfl (Nat.le_refl _) hm.chain) (hQ hplace ha)
  | error e m' =>
    rw [h] at hr
    cases hr with
    | error hm he =>
      have hplace : m'.Precedes { m' with callDepth := m'.callDepth - 1 } := .ofEq rfl rfl
      exact .error (hK.holds hm rfl (Nat.le_refl _) hm.chain) (hK.interrupt hplace he)

omit hK in
theorem adopting {r : Run α} (t : Token) (hr : K.Ends Q (r m)) :
    K.Ends Q (Run.adopting t r m) := by
  rw [Run.adopting]
  split
  · rename_i h
    rw [h] at hr
    cases hr with
    | error hm _ => exact .error hm trivial
  · exact hr

omit hK in
/-- What a function gives back has the property. -/
theorem catchingReturn {r : Run Unit} (hr : K.Ends Any (r m)) :
    K.Ends K.Value (Run.catchingReturn r m) := by
  rw [Run.catchingReturn]
  cases h : r m with
  | ok a m' =>
    rw [h] at hr
    cases hr with
    | ok hm _ => exact .ok hm trivial
  | error e m' =>
    rw [h] at hr
    cases hr with
    | error hm he =>
      cases e with
      | returned v => exact .ok hm he
      | _ => exact .error hm trivial

theorem ends_newIdentity (hm : K.Holds m) : K.Ends Any (Run.newIdentity m) :=
  .ok (hK.holds hm rfl (Nat.le_succ _) hm.chain) trivial

theorem ends_note (hm : K.Holds m) (entry : View) : K.Ends Any (Run.note entry m) :=
  .ok (hK.holds hm rfl (Nat.le_refl _) hm.chain) trivial

theorem ends_printLine (hm : K.Holds m) (text : String) : K.Ends Any (Run.printLine text m) :=
  .ok (hK.holds hm rfl (Nat.le_refl _) hm.chain) trivial

theorem ends_computed (hm : K.Holds m) {v : Lox.Value} (hv : K.Value m v) :
    K.Ends K.Value (Run.computed v m) := by
  cases v with
  | number n =>
    simp only [Run.computed]
    split
    · exact (hK.ends_newIdentity hm).bind fun _ _ _ hm' _ => .ok hm' trivial
    · exact .ok hm trivial
  | _ => exact .ok hm hv

theorem ends_lookup (hm : K.Holds m) (name : Token) : K.Ends K.Value (Run.lookup name m) := by
  rw [Run.lookup]
  split
  · rename_i v hv
    exact .ok hm (hK.get? hm.machine hm.chain hv)
  · exact .error hm trivial

theorem ends_assign (hm : K.Holds m) (name : Token) {v : Lox.Value}
    (h : ∀ id, m.scopes.owner? m.scope name.lexeme = some id →
      K.machine { m with scopes := m.scopes.define id name.lexeme v }) :
    K.Ends Any (Run.assign name v m) := by
  rw [Run.assign]
  split
  · rename_i id hid
    exact .ok ⟨h id hid, hK.chain (.define m id _ v) hm.chain⟩ trivial
  · exact .error hm trivial

end Steps

/-! ### One level -/

section Level

variable {host : Host} {below : Engine} {m : Machine} (hb : below.Has Run.Progresses Run.Progresses)

include hb

theorem evaluateAll {ns : List Node} (hm : K.Holds m)
    (h : ∀ before n after vs m', ns = before ++ n :: after →
      Engine.evaluateAll below before m = .ok vs m' → K.Holds m' →
      K.Ends K.Value (below.evaluate n m')) :
    K.Ends (fun m vs => ∀ v ∈ vs, K.Value m v) (Engine.evaluateAll below ns m) := by
  induction ns generalizing m with
  | nil => exact .ok hm (List.forall_mem_nil _)
  | cons n ns ih =>
    refine (h [] n ns [] m rfl rfl hm).bind fun v m₁ hv hm₁ hvalue => ?_
    refine (ih hm₁ ?_).bind fun vs m₂ hvs hm₂ hvalues => ?_
    · rintro before n' after vs m' rfl hbefore
      refine h (n :: before) n' after (v :: vs) m' rfl ?_
      exact (Run.bind_of_ok hv).trans ((Run.bind_of_ok hbefore).trans rfl)
    · have hover := (Run.handedOn_progresses.evaluateAll hb ns).of_ok hvs
      exact .ok hm₂ (List.forall_mem_cons.mpr ⟨hK.value hover hvalue, hvalues⟩)

omit hb hK in
theorem executeAll {ns : List Node} (hm : K.Holds m)
    (h : ∀ before n after m', ns = before ++ n :: after →
      Engine.executeAll below before m = .ok () m' → K.Holds m' →
      K.Ends Any (below.execute n m')) :
    K.Ends Any (Engine.executeAll below ns m) := by
  induction ns generalizing m with
  | nil => exact .ok hm trivial
  | cons n ns ih =>
    refine (h [] n ns m rfl rfl hm).bind fun _ m₁ hn hm₁ _ => ih hm₁ ?_
    rintro before n' after m' rfl hbefore
    exact h (n :: before) n' after m' rfl ((Run.bind_of_ok hn).trans hbefore)

omit hb hK in
theorem iterate {pass : Run Bool} {passes : Nat} (hm : K.Holds m)
    (h : ∀ k m', Passed pass k m m' → k < passes → K.Holds m' → K.Ends Any (pass m')) :
    K.Ends Any (Run.iterate passes pass m) := by
  induction passes generalizing m with
  | zero => exact .error hm trivial
  | succ passes ih =>
    have hpass := h 0 m (.none m) (Nat.succ_pos _) hm
    cases hp : pass m with
    | ok again m' =>
      rw [hp] at hpass
      cases hpass with
      | ok hm' _ =>
        cases again with
        | true =>
          rw [Run.iterate_of_again passes hp]
          exact ih hm' fun k m'' hk hlt => h (k + 1) m'' (.cons hp hk) (Nat.succ_lt_succ hlt)
        | false =>
          rw [Run.iterate_of_done passes hp]
          exact .ok hm' trivial
    | error e m' =>
      rw [hp] at hpass
      cases hpass with
      | error hm' he =>
        rw [Run.iterate_of_error passes hp]
        exact .error hm' he

omit hb in
theorem offered {given : List Lox.Answer} (hm : K.Holds m) (hgiven : ∀ a ∈ given, K.Answer m a)
    (offer : Offer) : K.Ends K.Answer (Engine.offered given offer m) := by
  cases offer with
  | given index =>
    rw [Engine.offered]
    cases hg : given[index]? with
    | none => exact .error hm trivial
    | some a => exact .ok hm (hgiven a (List.mem_of_getElem? hg))
  | number x =>
    have hdata : K.Value m (.number (.ofFloat x)) := trivial
    exact (hK.ends_computed hm hdata).bind fun v _ _ hm' hv => .ok hm' hv
  | _ => exact .ok hm trivial

omit hb in
theorem ends_passed {given : List Lox.Answer} (hm : K.Holds m) (hgiven : ∀ a ∈ given, K.Answer m a)
    (offer : Offer) : K.Ends K.Value (Engine.passed given offer m) := by
  refine (hK.offered hm hgiven offer).bind fun a m' _ hm' ha => ?_
  cases a with
  | value v => exact .ok hm' ha
  | nothing | foreign => exact .error hm' trivial

omit hb in
theorem ends_passedAll {given : List Lox.Answer} (hm : K.Holds m) (hgiven : ∀ a ∈ given, K.Answer m a)
    (offers : List Offer) :
    K.Ends (fun m vs => ∀ v ∈ vs, K.Value m v) (Engine.passedAll given offers m) := by
  induction offers generalizing m with
  | nil => exact .ok hm (List.forall_mem_nil _)
  | cons offer offers ih =>
    refine (hK.ends_passed hm hgiven offer).bind fun v m₁ hv hm₁ hvalue => ?_
    have hover₁ := (Run.handedOn_progresses.passed given offer).of_ok hv
    refine (ih hm₁ fun a ha => hK.answer hover₁ (hgiven a ha)).bind fun vs m₂ hvs hm₂ hvalues => ?_
    have hover₂ := (Run.handedOn_progresses.passedAll given offers).of_ok hvs
    exact .ok hm₂ (List.forall_mem_cons.mpr ⟨hK.value hover₂ hvalue, hvalues⟩)

omit hb hK in
theorem ends_compared (given : List Lox.Answer) (hm : K.Holds m) (left right : Nat) :
    K.Ends Any (Engine.compared given left right m) := by
  rw [Engine.compared]
  cases given[left]? with
  | none => exact .error hm trivial
  | some a =>
    cases given[right]? with
    | none => exact .error hm trivial
    | some b => exact .ok hm trivial

omit hb in
/-- What a host function calls, and what it passes on. -/
theorem called {given : List Lox.Answer} {callee : Nat} {arguments : List Offer} {f : Lox.Value}
    {vs : List Lox.Value} {m₁ m₂ : Machine} (hm : K.Holds m) (hgiven : ∀ a ∈ given, K.Answer m a)
    (hf : Engine.passed given (.given callee) m = .ok f m₁)
    (hvs : Engine.passedAll given arguments m₁ = .ok vs m₂) :
    K.Holds m₂ ∧ (∀ a ∈ given, K.Answer m₂ a) ∧ K.Task m₂ (.invoke f vs) := by
  have hover₁ := (Run.handedOn_progresses.passed _ _).of_ok hf
  have hover₂ := (Run.handedOn_progresses.passedAll _ _).of_ok hvs
  obtain ⟨hm₁, hfvalue⟩ := (hK.ends_passed hm hgiven _).of_ok hf
  obtain ⟨hm₂, hvalues⟩ :=
    (hK.ends_passedAll hm₁ (fun a ha => hK.answer hover₁ (hgiven a ha)) arguments).of_ok hvs
  exact ⟨hm₂, fun a ha => hK.answer (hover₁.trans hover₂) (hgiven a ha),
    hK.value hover₂ hfvalue, hvalues⟩

omit hb in
/-- What a host function has been given after the answer to a call. -/
theorem answered {given : List Lox.Answer} {a : Lox.Answer} {m' : Machine} (hover : m.Precedes m')
    (hgiven : ∀ b ∈ given, K.Answer m b) (ha : K.Answer m' a) :
    ∀ b ∈ given ++ [a], K.Answer m' b := by
  intro b hb
  obtain hb | hb := List.mem_append.mp hb
  · exact hK.answer hover (hgiven b hb)
  · obtain rfl := List.mem_singleton.mp hb
    exact ha

/-- What a host function answers, and what it calls. -/
theorem act {given : List Lox.Answer} {action : Action} (hm : K.Holds m)
    (hgiven : ∀ a ∈ given, K.Answer m a)
    (h : ∀ f vs m', Engine.CallsBack below given action m f vs m' → K.Holds m' →
      K.Task m' (.invoke f vs) → K.Ends K.Answer (below.invoke f vs m')) :
    K.Ends K.Answer (Engine.act below given action m) := by
  induction action generalizing given m with
  | done offer => exact hK.offered hm hgiven offer
  | fail kind message token => exact .error hm trivial
  | crash fault => exact .error hm trivial
  | invoke callee arguments next ih =>
    refine (hK.ends_passed hm hgiven _).bind fun f m₁ hf hm₁ _ => ?_
    have hover := (Run.handedOn_progresses.passed _ _).of_ok hf
    have hgiven₁ (a : Lox.Answer) (ha : a ∈ given) := hK.answer hover (hgiven a ha)
    refine (hK.ends_passedAll hm₁ hgiven₁ arguments).bind fun vs m₂ hvs hm₂ _ => ?_
    obtain ⟨-, hgiven₂, htask⟩ := hK.called hm hgiven hf hvs
    refine (h f vs m₂ (.now hf hvs) hm₂ htask).bind fun a m₃ ha hm₃ hanswer => ?_
    refine ih _ hm₃ (hK.answered ((hb.invoke f vs).of_ok ha) hgiven₂ hanswer) ?_
    exact fun g ws m' hcall => h g ws m' (.later hf hvs ha hcall)
  | compare left right next ih =>
    refine (ends_compared given hm left right).bind fun same m₁ hsame hm₁ _ => ?_
    have hover := (Run.handedOn_progresses.compared given left right).of_ok hsame
    refine ih same hm₁ (fun a ha => hK.answer hover (hgiven a ha)) ?_
    exact fun g ws m' hcall => h g ws m' (.compared hsame hcall)
  | note entry next ih =>
    refine (hK.ends_note hm entry).bind fun _ m₁ hnote hm₁ _ => ?_
    have hover := (Run.handedOn_progresses.note entry).of_ok hnote
    refine ih hm₁ (fun a ha => hK.answer hover (hgiven a ha)) ?_
    exact fun g ws m' hcall => h g ws m' (.noted hnote hcall)
  | consult next ih =>
    exact ih m.notes hm hgiven fun g ws m' hcall => h g ws m' (.consulted hcall)

theorem callsBack {given : List Lox.Answer} {action : Action} {f : Lox.Value}
    {vs : List Lox.Value} {m' : Machine} (hcall : Engine.CallsBack below given action m f vs m')
    (hm : K.Holds m) (hgiven : ∀ a ∈ given, K.Answer m a)
    (h : ∀ f vs m', Engine.CallsBack below given action m f vs m' → K.Holds m' →
      K.Task m' (.invoke f vs) → K.Ends K.Answer (below.invoke f vs m')) :
    K.Holds m' ∧ K.Task m' (.invoke f vs) := by
  induction hcall with
  | now hf hvs =>
    obtain ⟨hm₂, -, htask⟩ := hK.called hm hgiven hf hvs
    exact ⟨hm₂, htask⟩
  | @later given callee arguments next f g vs ws a m m₁ m₂ m₃ m' hf hvs ha hcall ih =>
    obtain ⟨hm₂, hgiven₂, htask⟩ := hK.called hm hgiven hf hvs
    obtain ⟨hm₃, hanswer⟩ := (h f vs m₂ (.now hf hvs) hm₂ htask).of_ok ha
    refine ih hm₃ (hK.answered ((hb.invoke f vs).of_ok ha) hgiven₂ hanswer) ?_
    exact fun g ws m' hcall => h g ws m' (.later hf hvs ha hcall)
  | compared hsame _ ih =>
    have hover := (Run.handedOn_progresses.compared _ _ _).of_ok hsame
    refine ih ((ends_compared _ hm _ _).of_ok hsame).1 (fun a ha => hK.answer hover (hgiven a ha)) ?_
    exact fun g ws m' hcall => h g ws m' (.compared hsame hcall)
  | noted hnote _ ih =>
    have hover := (Run.handedOn_progresses.note _).of_ok hnote
    refine ih ((hK.ends_note hm _).of_ok hnote).1 (fun a ha => hK.answer hover (hgiven a ha)) ?_
    exact fun g ws m' hcall => h g ws m' (.noted hnote hcall)
  | consulted _ ih => exact ih hm hgiven fun g ws m' hcall => h g ws m' (.consulted hcall)

theorem evaluateNode (hplaces : below.Has Run.Restores Run.Restores) {n : Node} (hm : K.Holds m)
    (hadmits : K.Admits below m (.evaluate n))
    (h : ∀ t' m', Engine.Starts host below (.evaluate n) m t' m' → K.Holds m' → K.Task m' t' →
      K.TaskEnds below m' t') :
    K.Ends K.Value (Engine.evaluateNode host below n m) := by
  have hdata {m : Machine} {v : Lox.Value} (hv : v.isData = true) : K.Value m v :=
    value_of_isData hv
  cases n with
  | literal value =>
    refine hm.ofExcept fun v hv => ?_
    cases value <;> cases hv <;> trivial
  | grouping inner => exact h _ _ .grouping hm trivial
  | unary operator operand =>
    refine (h _ _ .operand hm trivial).bind fun v m₁ _ hm₁ _ => ?_
    refine (hm₁.ofExcept fun w hw => ?_).bind fun w m₂ _ hm₂ hw => hK.ends_computed hm₂ hw
    exact hdata (Value.isData_of_applyUnary hw)
  | binary left operator right =>
    refine (h _ _ .left hm trivial).bind fun l m₁ hl hm₁ _ => ?_
    refine (h _ _ (.right hl) hm₁ trivial).bind fun r m₂ _ hm₂ _ => ?_
    refine (hm₂.ofExcept fun w hw => ?_).bind fun w m₃ _ hm₃ hw => hK.ends_computed hm₃ hw
    exact hdata (Value.isData_of_applyBinary hw)
  | logical left operator right =>
    refine (h _ _ .logicalLeft hm trivial).bind fun l m₁ hl hm₁ hvalue => ?_
    split
    · split
      · exact .ok hm₁ hvalue
      · exact h _ _ (.logicalRight hl (by simp_all)) hm₁ trivial
    · split
      · exact h _ _ (.logicalRight hl (by simp_all)) hm₁ trivial
      · exact .ok hm₁ hvalue
  | ternary condition question thenBranch elseBranch =>
    refine (h _ _ .choice hm trivial).bind fun v m₁ hv hm₁ _ => ?_
    have hchosen := h _ _ (.chosen hv) hm₁ trivial
    split <;> simpa [*, TaskEnds] using hchosen
  | reference name => exact hK.ends_lookup hm name
  | assign name value =>
    refine (h _ _ .assigned hm trivial).bind fun v m₁ hv hm₁ hvalue => ?_
    have hwrite (id : ScopeId) (hid : m₁.scopes.owner? m₁.scope name.lexeme = some id) :=
      hadmits v m₁ id hv ((hplaces.evaluate value).scope_eq hv ▸ hid) hm₁ hvalue
    refine (hK.ends_assign hm₁ name hwrite).bind fun _ m₂ hassign hm₂ _ => ?_
    have hover := (Run.handedOn_progresses.assign name v).of_ok hassign
    exact .ok hm₂ (hK.value hover hvalue)
  | call callee paren arguments =>
    refine (h _ _ .callee hm trivial).bind fun f m₁ hf hm₁ hfvalue => ?_
    split
    · rename_i hcallable
      refine (hK.evaluateAll hb hm₁ ?_).bind fun vs m₂ hvs hm₂ hvalues => ?_
      · rintro before n after vs m' rfl hbefore hm'
        exact h _ _ (.argument before hf hcallable hbefore) hm' trivial
      · unfold Engine.call
        split
        · exact hm₂.fail _ _
        · rename_i hlength
          have hover := (Run.handedOn_progresses.evaluateAll hb arguments).of_ok hvs
          have hcall : K.Holds m₂.inCall := hK.holds hm₂ rfl (Nat.le_refl _) hm₂.chain
          have hplace : m₂.Precedes m₂.inCall := .ofEq rfl rfl
          have htask : K.Task m₂.inCall (.invoke f vs) :=
            ⟨hK.value (hover.trans hplace) hfvalue, fun v hv => hK.value hplace (hvalues v hv)⟩
          refine hK.counted hK.value (adopting paren ?_)
          refine (h _ _ (.call hf hcallable hvs (Decidable.not_not.mp hlength)) hcall htask).bind
            fun a m₃ _ hm₃ ha => hm₃.ofExcept fun v hv => ?_
          cases a <;> cases hv
          · exact ha
          · trivial
    · exact hm₁.fail _ _
  | _ => exact hm.fail _ _

theorem executeNode (hplaces : below.Has Run.Restores Run.Restores) {n : Node} (hm : K.Holds m)
    (hadmits : K.Admits below m (.execute n))
    (h : ∀ t' m', Engine.Starts host below (.execute n) m t' m' → K.Holds m' → K.Task m' t' →
      K.TaskEnds below m' t') :
    K.Ends Any (Engine.executeNode host.passes below n m) := by
  cases n with
  | expression inner =>
    exact (h _ _ .expression hm trivial).bind fun _ m₁ _ hm₁ _ => .ok hm₁ trivial
  | print inner =>
    exact (h _ _ .print hm trivial).bind fun v m₁ _ hm₁ _ => hK.ends_printLine hm₁ v.text
  | declare name initializer =>
    have hdefine {m' : Machine} {v : Lox.Value}
        (hv : below.givenBack initializer m = .ok v m') (hscope : m'.scope = m.scope)
        (hm' : K.Holds m') (hvalue : K.Value m' v) : K.Ends Any (Run.define name.lexeme v m') := by
      have hmachine := hadmits v m' hv hm' hvalue
      rw [← hscope] at hmachine
      exact .ok ⟨hmachine, hK.chain (.define m' _ _ v) hm'.chain⟩ trivial
    cases initializer with
    | none => exact hdefine rfl rfl hm trivial
    | some e =>
      refine (h _ _ .initializer hm trivial).bind fun v m₁ hv hm₁ hvalue => ?_
      exact hdefine hv ((hplaces.evaluate e).scope_eq hv) hm₁ hvalue
  | block statements =>
    have hchain : K.chain { m with scopes := m.scopes.push [] } m.scope :=
      hK.chain (.push m []) hm.chain
    have hall := Run.handedOn_progresses.executeAll hb statements
    refine hK.within (fun _ _ => trivial) (executeAll (hadmits hm) ?_) hall hchain
    rintro before n after m' rfl hbefore hm'
    exact h _ _ (.inBlock before hbefore) hm' trivial
  | branch condition thenBranch elseBranch =>
    refine (h _ _ .condition hm trivial).bind fun v m₁ hv hm₁ _ => ?_
    split
    · exact h _ _ (.thenBranch hv ‹_›) hm₁ trivial
    · cases elseBranch with
      | none => exact .ok hm₁ trivial
      | some e => exact h _ _ (.elseBranch hv (by simp_all)) hm₁ trivial
  | loop condition body =>
    refine iterate hm fun k m' hk hlt hm' => ?_
    refine (h _ _ (.loopCondition hk hlt) hm' trivial).bind fun v m₁ hv hm₁ _ => ?_
    split
    · refine (h _ _ (.loopBody hk hlt hv ‹_›) hm₁ trivial).bind fun _ m₂ _ hm₂ _ => ?_
      exact .ok hm₂ trivial
    · exact .ok hm₁ trivial
  | function name params body =>
    have hidentity := Machine.Precedes.identify m
    have hdefine := Machine.Precedes.define { m with nextIdentity := m.nextIdentity + 1 }
      m.scope.here name.lexeme (.function ⟨m.nextIdentity, name, params, body, m.scope⟩)
    exact .ok ⟨hadmits hm, hK.chain (hidentity.trans hdefine) hm.chain⟩ trivial
  | returning keyword value =>
    by_cases hcount : m.callDepth = 0
    · rw [Engine.executeNode, Run.returning_of_zero keyword _ hcount]
      exact .error hm trivial
    · have hgiven : K.Ends K.Value (Engine.givenBack below value m) := by
        cases value with
        | none => exact .ok hm trivial
        | some e => exact h _ _ (.givenBack hcount) hm trivial
      rw [Engine.executeNode]
      cases hv : Engine.givenBack below value m with
      | ok v m₁ =>
        rw [Run.returning_of_ok keyword hcount hv]
        obtain ⟨hm₁, hvalue⟩ := hgiven.of_ok hv
        exact .error hm₁ hvalue
      | error e m₁ =>
        rw [Run.returning_of_error keyword hcount hv]
        rw [hv] at hgiven
        cases hgiven with
        | error hm₁ he => exact .error hm₁ he
  | _ => exact hm.fail _ _

theorem perform {callee : Lox.Value} {arguments : List Lox.Value} (hm : K.Holds m)
    (hvalues : K.Task m (.invoke callee arguments))
    (hadmits : K.Admits below m (.invoke callee arguments))
    (h : ∀ t' m', Engine.Starts host below (.invoke callee arguments) m t' m' → K.Holds m' →
      K.Task m' t' → K.TaskEnds below m' t') :
    K.Ends K.Answer (Engine.perform host below callee arguments m) := by
  cases callee with
  | function f =>
    have hchain : K.chain { m with scopes := m.scopes.push (f.bindings arguments) } m.scope :=
      hK.chain (.push m _) hm.chain
    have hall := Run.handedOn_progresses.executeAll hb f.body
    have henter : K.Ends K.Value (Engine.enter below f arguments m) := by
      refine catchingReturn (hK.within (fun _ _ => trivial) (executeAll ?_ ?_) hall hchain)
      · exact hadmits hm hvalues.1 hvalues.2
      · intro before n after m' hf hbefore hm'
        exact h _ _ (.body before hf hbefore) hm' trivial
    exact henter.bind fun v m₁ _ hm₁ hv => .ok hm₁ hv
  | native index =>
    cases hindex : host.natives[index]? with
    | none =>
      simp only [Engine.perform, hindex]
      exact .error hm trivial
    | some native =>
      simp only [Engine.perform, hindex]
      refine hK.act hb hm ?_ fun f vs m' hcall hm' ht => h _ _ (.callback hindex hcall) hm' ht
      intro a ha
      obtain ⟨v, hv, rfl⟩ := List.mem_map.mp ha
      exact hvalues.2 v hv
  | _ => exact .error hm trivial

/-- What a level does with a task keeps the property, if what the task makes agrees with it and the
level below keeps it. -/
theorem ends_above (hplaces : below.Has Run.Restores Run.Restores) {t : Lox.Task} (hm : K.Holds m)
    (ht : K.Task m t) (hadmits : K.Admits below m t)
    (h : ∀ t' m', Engine.Starts host below t m t' m' → K.Holds m' → K.Task m' t' →
      K.TaskEnds below m' t') :
    K.TaskEnds (Engine.above host below) m t := by
  cases t with
  | evaluate n => exact hK.evaluateNode hb hplaces hm hadmits h
  | execute n => exact hK.executeNode hb hplaces hm hadmits h
  | invoke callee arguments => exact hK.perform hb hm ht hadmits h

/-! ### The points of a run -/

omit hb hK in
theorem passed {pass : Run Bool} {k passes : Nat} {m' : Machine} (hp : Passed pass k m m')
    (hk : k ≤ passes) (hm : K.Holds m)
    (h : ∀ k m', Passed pass k m m' → k < passes → K.Holds m' → K.Ends Any (pass m')) :
    K.Holds m' := by
  induction hp with
  | none => exact hm
  | another hp hpass ih =>
    have hm' := ih (Nat.le_of_succ_le hk) hm h
    exact ((h _ _ hp hk hm').of_ok hpass).1

omit hb hK in
theorem pass {c body : Node} {k : Nat} {m' : Machine}
    (hp : Passed (Engine.pass below c body) k m m') (hk : k < host.passes) (hm' : K.Holds m')
    (h : ∀ t' m', Engine.Starts host below (.execute (.loop c body)) m t' m' → K.Holds m' →
      K.Task m' t' → K.TaskEnds below m' t') : K.Ends Any (Engine.pass below c body m') := by
  refine (h _ _ (.loopCondition hp hk) hm' trivial).bind fun v m₁ hv hm₁ _ => ?_
  split
  · refine (h _ _ (.loopBody hp hk hv ‹_›) hm₁ trivial).bind fun _ m₂ _ hm₂ _ => ?_
    exact .ok hm₂ trivial
  · exact .ok hm₁ trivial

/-- A task that is started finds the property. -/
theorem starts {t t' : Lox.Task} {m' : Machine} (hm : K.Holds m) (ht : K.Task m t)
    (hadmits : K.Admits below m t)
    (h : ∀ t' m', Engine.Starts host below t m t' m' → K.Holds m' → K.Task m' t' →
      K.TaskEnds below m' t')
    (hstarts : Engine.Starts host below t m t' m') : K.Holds m' ∧ K.Task m' t' := by
  cases hstarts with
  | grouping | operand | left | logicalLeft | choice | assigned | callee | expression | print
  | initializer | condition | givenBack => exact ⟨hm, trivial⟩
  | right hl => exact ⟨((h _ _ .left hm trivial).of_ok hl).1, trivial⟩
  | logicalRight hl => exact ⟨((h _ _ .logicalLeft hm trivial).of_ok hl).1, trivial⟩
  | chosen hc => exact ⟨((h _ _ .choice hm trivial).of_ok hc).1, trivial⟩
  | thenBranch hc | elseBranch hc => exact ⟨((h _ _ .condition hm trivial).of_ok hc).1, trivial⟩
  | argument before hc hf ha =>
    have hm₁ := ((h _ _ .callee hm trivial).of_ok hc).1
    refine ⟨((hK.evaluateAll hb hm₁ ?_).of_ok ha).1, trivial⟩
    rintro front n after vs m₂ rfl hfront hm₂
    refine h (.evaluate n) _ ?_ hm₂ trivial
    rw [List.append_assoc]
    exact .argument front hc hf hfront
  | @call c paren arguments f vs _ m₁ m₂ hc hf ha hlength =>
    obtain ⟨hm₁, hfvalue⟩ := (h _ _ .callee hm trivial).of_ok hc
    have harguments : K.Ends (fun m vs => ∀ v ∈ vs, K.Value m v)
        (Engine.evaluateAll below arguments m₁) := by
      refine hK.evaluateAll hb hm₁ ?_
      rintro before n after vs m' rfl hbefore hm'
      exact h (.evaluate n) _ (.argument before hc hf hbefore) hm' trivial
    obtain ⟨hm₂, hvalues⟩ := harguments.of_ok ha
    have hover := (Run.handedOn_progresses.evaluateAll hb arguments).of_ok ha
    have hplace : m₂.Precedes m₂.inCall := .ofEq rfl rfl
    exact ⟨hK.holds hm₂ rfl (Nat.le_refl _) hm₂.chain, hK.value (hover.trans hplace) hfvalue,
      fun v hv => hK.value hplace (hvalues v hv)⟩
  | inBlock before hbefore =>
    refine ⟨((executeAll (hadmits hm) ?_).of_ok hbefore).1, trivial⟩
    rintro front n after m₂ rfl hfront hm₂
    refine h (.execute n) _ ?_ hm₂ trivial
    rw [List.append_assoc]
    exact .inBlock front hfront
  | loopCondition hp hk =>
    exact ⟨passed hp (Nat.le_of_lt hk) hm fun k m' hp hk hm' => pass hp hk hm' h, trivial⟩
  | loopBody hp hk hc =>
    have hm₁ := passed hp (Nat.le_of_lt hk) hm fun k m' hp hk hm' => pass hp hk hm' h
    exact ⟨((h _ _ (.loopCondition hp hk) hm₁ trivial).of_ok hc).1, trivial⟩
  | body before hf hbefore =>
    refine ⟨((executeAll (hadmits hm ht.1 ht.2) ?_).of_ok hbefore).1, trivial⟩
    rintro front n after m₂ rfl hfront hm₂
    refine h (.execute n) _ ?_ hm₂ trivial
    exact .body front (by rw [hf, List.append_assoc]; rfl) hfront
  | callback hindex hcall =>
    refine hK.callsBack hb hcall hm ?_ fun f vs m' hcall hm' ht =>
      h _ _ (.callback hindex hcall) hm' ht
    intro a ha
    obtain ⟨v, hv, rfl⟩ := List.mem_map.mp ha
    exact ht.2 v hv

end Level

variable {host : Host}

/-- A task keeps the property if what is made at the points of its performance agrees with it. -/
theorem ends {depth : Nat} {t : Lox.Task} {m : Machine}
    (hadmits : ∀ d t' m' frames, Performs host depth t m (d + 1) t' m' frames →
      K.Admits (.ofDepth host d) m' t')
    (hm : K.Holds m) (ht : K.Task m t) : K.TaskEnds (Engine.ofDepth host depth) m t := by
  induction depth generalizing t m with
  | zero => cases t <;> exact .error hm trivial
  | succ depth ih =>
    refine hK.ends_above (Engine.ofDepth_progresses host depth) (Engine.ofDepth_restores host depth)
      hm ht (hadmits _ _ _ _ .self) fun t' m' hstarts hm' ht' => ih ?_ hm' ht'
    intro d t'' m'' frames hperforms
    exact hadmits d t'' m'' _ ((Performs.self.inside hstarts).trans hperforms)

/-- Then the property holds at all of these points. -/
theorem performs {depth depth' : Nat} {t t' : Lox.Task} {m m' : Machine} {frames : List Frame}
    (hadmits : ∀ d t' m' frames, Performs host depth t m (d + 1) t' m' frames →
      K.Admits (.ofDepth host d) m' t')
    (hm : K.Holds m) (ht : K.Task m t) (h : Performs host depth t m depth' t' m' frames) :
    K.Holds m' ∧ K.Task m' t' := by
  induction h with
  | self => exact ⟨hm, ht⟩
  | @inside d t₁ t₂ m₁ m₂ fs h hstarts ih =>
    obtain ⟨hm₁, ht₁⟩ := ih
    refine hK.starts (Engine.ofDepth_progresses host d) hm₁ ht₁ (hadmits _ _ _ _ h) ?_ hstarts
    intro t₃ m₃ hstarts hm₃ ht₃
    refine hK.ends (fun d' t' m' frames hperforms => ?_) hm₃ ht₃
    exact hadmits d' t' m' _ ((h.inside hstarts).trans hperforms)

/-- So it does when one of the tasks that are performed is over. -/
theorem performs_ends {depth depth' : Nat} {t t' : Lox.Task} {m m' : Machine}
    {frames : List Frame}
    (hadmits : ∀ d t' m' frames, Performs host depth t m (d + 1) t' m' frames →
      K.Admits (.ofDepth host d) m' t')
    (hm : K.Holds m) (ht : K.Task m t) (h : Performs host depth t m depth' t' m' frames) :
    K.TaskEnds (Engine.ofDepth host depth') m' t' := by
  obtain ⟨hm', ht'⟩ := hK.performs hadmits hm ht h
  exact hK.ends (fun d t'' m'' frames' h' => hadmits d t'' m'' _ (h.trans h')) hm' ht'

omit hK in
/-- A machine that a task leaves behind has the property. -/
theorem after {depth : Nat} {t : Lox.Task} {m : Machine}
    (h : K.TaskEnds (Engine.ofDepth host depth) m t) :
    K.Holds ((Engine.ofDepth host depth).after t m) := by
  cases t <;> exact h.holds

/-! ### The points of a life -/

section Life

variable {m₀ : Machine} {ts : List Lox.Task}
  (hadmits : ∀ d t m frames, Occurs host m₀ ts (d + 1) t m frames → K.Admits (.ofDepth host d) m t)
  (hm₀ : K.Holds m₀) (hts : ∀ t ∈ ts, t.IsOuter)

include hadmits hm₀ hts

theorem afterAll : K.Holds (host.engine.afterAll ts m₀) := by
  induction ts generalizing m₀ with
  | nil => exact hm₀
  | cons t ts ih =>
    refine ih (fun d t' m frames h => hadmits d t' m frames h.cons) ?_ fun t ht =>
      hts t (List.mem_cons_of_mem _ ht)
    have houter := hts t List.mem_cons_self
    refine after (hK.ends (fun d t' m frames h => ?_) hm₀ (task_of_isOuter houter))
    exact hadmits d t' m frames ⟨[], t, ts, rfl, h⟩

/-- In a life the property holds at every point, if what is made there agrees with it. -/
theorem occurs {depth : Nat} {t : Lox.Task} {m : Machine} {frames : List Frame}
    (h : Occurs host m₀ ts depth t m frames) : K.Holds m ∧ K.Task m t := by
  obtain ⟨before, t₀, after, rfl, hperforms⟩ := h
  have hbefore : K.Holds (host.engine.afterAll before m₀) :=
    hK.afterAll (fun d t m frames h => hadmits d t m frames (h.append _)) hm₀ fun t ht =>
      hts t (List.mem_append_left _ ht)
  have houter := hts t₀ (by simp)
  refine hK.performs (fun d t' m' frames h => ?_) hbefore (task_of_isOuter houter) hperforms
  exact hadmits d t' m' frames ⟨before, t₀, after, rfl, h⟩

/-- So it does when a task is over that is performed in a life. -/
theorem occurs_ends {depth : Nat} {t : Lox.Task} {m : Machine} {frames : List Frame}
    (h : Occurs host m₀ ts depth t m frames) :
    K.TaskEnds (Engine.ofDepth host depth) m t := by
  obtain ⟨hm, ht⟩ := hK.occurs hadmits hm₀ hts h
  exact hK.ends (fun d t' m' frames' h' => hadmits d t' m' _ (h.trans h')) hm ht

end Life

end Kept

end Custody

end Lox
