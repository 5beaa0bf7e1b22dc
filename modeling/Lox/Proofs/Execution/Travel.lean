import Lox.Proofs.Execution.Entry
import Lox.Proofs.Execution.Equality

/-!
# Values that travel

A value is computed once and then passed on: into variables and out of them, as an argument and as
what a function gives back, through groupings, ternaries and logical operators, and through
statements that a return statement breaks off. Where a value goes is said here by the control flow
alone, without a word about which value it is. Nothing on the way touches it: what arrives is what
has set out, with its origin or its identity. So whatever has come from one place is equal, and be
it not a number.

## Main definitions

* `Engine.Gives`: the value that comes of a task.
* `Station`: a place where a value is found in a run.
* `Hands`: a task that gives the value of one it starts.
* `Hop`, `Travels`: from one station to the next, and from one to another.

## Main results

* `Hands.gives`: the value that is handed on is the same.
* `Travels.holds`: so is the one that arrives.
* `equality_of_travellers`: equality is an equivalence, and holds between whatever has come from one
  place.
-/

namespace Lox

/-! ### Where values are found -/

/-- The value that comes of a task: an expression has it, a statement gives it back to the function
it stands in, a call answers with it. -/
def Engine.Gives (e : Engine) (v : Value) : Task → Machine → Prop
  | .evaluate n, m => ∃ m', e.evaluate n m = .ok v m'
  | .execute n, m => ∃ m', e.execute n m = .error (.returned v) m'
  | .invoke f vs, m => ∃ m', e.invoke f vs m = .ok (.value v) m'

/-- A place where a value is found in a run: it comes of a task, it is an argument of a call, or a
variable holds it. -/
inductive Station
  | outcome (depth : Nat) (t : Task) (m : Machine)
  | argument (callee : Value) (arguments : List Value) (m : Machine) (place : Nat)
  | entry (m : Machine) (id : ScopeId) (name : String)

/-- The value that is found there. -/
def Station.Holds (host : Host) (v : Value) : Station → Prop
  | outcome depth t m => (Engine.ofDepth host depth).Gives v t m
  | argument _ vs _ i => vs[i]? = some v
  | entry m id a => m.scopes.local? id a = some v

theorem Engine.Gives.unique {e : Engine} {v w : Value} {t : Task} {m : Machine}
    (h : e.Gives v t m) (h' : e.Gives w t m) : v = w := by
  cases t <;>
    · obtain ⟨m', hv⟩ := h
      obtain ⟨m'', hw⟩ := h'
      cases hv.symm.trans hw
      rfl

/-- It is one value. -/
theorem Station.Holds.unique {host : Host} {s : Station} {v w : Value} (h : s.Holds host v)
    (h' : s.Holds host w) : v = w := by
  cases s with
  | outcome => exact Engine.Gives.unique h h'
  | argument | entry => exact Option.some.inj (h.symm.trans h')

/-! ### Where values go -/

/-- A task with the machine it finds, and one that it starts on the level below and whose value it
gives: what is in parentheses, the branch of a ternary that is chosen, the operand that decides on a
logical operator, what is assigned, a call, and on the way back from a return statement the
statements and the function around it. -/
inductive Hands (host : Host) (depth : Nat) : Task → Machine → Task → Machine → Prop
  | grouping {inner : Node} {m : Machine} :
      Hands host depth (.evaluate (.grouping inner)) m (.evaluate inner) m
  | chosen {c t e : Node} {question : Token} {a : Value} {m m' : Machine} :
      (Engine.ofDepth host depth).evaluate c m = .ok a m' →
      Hands host depth (.evaluate (.ternary c question t e)) m
        (.evaluate (if a.truthy then t else e)) m'
  | settled {l r : Node} {operator : Token} {a : Value} {m m' : Machine} :
      (Engine.ofDepth host depth).evaluate l m = .ok a m' →
      (a.truthy = true ↔ operator.kind = .kwOr) →
      Hands host depth (.evaluate (.logical l operator r)) m (.evaluate l) m
  | unsettled {l r : Node} {operator : Token} {a : Value} {m m' : Machine} :
      (Engine.ofDepth host depth).evaluate l m = .ok a m' →
      (a.truthy = true ↔ operator.kind ≠ .kwOr) →
      Hands host depth (.evaluate (.logical l operator r)) m (.evaluate r) m'
  | assigned {name : Token} {value : Node} {m : Machine} {a : String} {id : ScopeId} :
      Resolves host depth (.evaluate (.assign name value)) m a id →
      Hands host depth (.evaluate (.assign name value)) m (.evaluate value) m
  | call {c : Node} {paren : Token} {ns : List Node} {f : Value} {vs : List Value}
      {m m' : Machine} :
      Engine.Starts host (.ofDepth host depth) (.evaluate (.call c paren ns)) m (.invoke f vs) m' →
      Hands host depth (.evaluate (.call c paren ns)) m (.invoke f vs) m'
  | givenBack {keyword : Token} {n : Node} {m : Machine} :
      m.callDepth ≠ 0 →
      Hands host depth (.execute (.returning keyword (some n))) m (.evaluate n) m
  | statement {n n' : Node} {m m' : Machine} :
      Engine.Starts host (.ofDepth host depth) (.execute n) m (.execute n') m' →
      Hands host depth (.execute n) m (.execute n') m'
  | body {f : Closure} {vs : List Value} {n : Node} {m m' : Machine} :
      Engine.Starts host (.ofDepth host depth) (.invoke (.function f) vs) m (.execute n) m' →
      Hands host depth (.invoke (.function f) vs) m (.execute n) m'

/-- From one station to the next. A task hands on the value of another; a variable is written, goes
on to hold what it holds, and is read; an argument of a call becomes a parameter. -/
inductive Hop (host : Host) : Station → Station → Prop
  | hand {depth : Nat} {t t' : Task} {m m' : Machine} :
      Hands host depth t m t' m' →
      Hop host (.outcome depth t' m') (.outcome (depth + 1) t m)
  | assign {depth : Nat} {name : Token} {value : Node} {m : Machine} {a : String} {id : ScopeId} :
      Resolves host depth (.evaluate (.assign name value)) m a id →
      Hop host (.outcome depth (.evaluate value) m)
        (.entry ((Engine.ofDepth host (depth + 1)).after (.evaluate (.assign name value)) m) id a)
  | declare {depth : Nat} {name : Token} {n : Node} {m : Machine} :
      m.scope.here < m.scopes.next →
      Hop host (.outcome depth (.evaluate n) m)
        (.entry ((Engine.ofDepth host (depth + 1)).after (.execute (.declare name (some n))) m)
          m.scope.here name.lexeme)
  | keep {m m' : Machine} {a : String} {id : ScopeId} :
      Meanwhile host a id m m' → Hop host (.entry m id a) (.entry m' id a)
  | read {depth : Nat} {name : Token} {m : Machine} {a : String} {id : ScopeId} :
      Resolves host depth (.evaluate (.reference name)) m a id →
      Hop host (.entry m id a) (.outcome (depth + 1) (.evaluate (.reference name)) m)
  | pass {depth : Nat} (before : List Node) {c n : Node} {paren : Token} {after : List Node}
      {f g : Value} {us vs : List Value} {m m₁ m₂ m₃ : Machine} :
      (Engine.ofDepth host depth).evaluate c m = .ok g m₁ →
      Engine.evaluateAll (.ofDepth host depth) before m₁ = .ok us m₂ →
      Engine.Starts host (.ofDepth host depth) (.evaluate (.call c paren (before ++ n :: after))) m
        (.invoke f vs) m₃ →
      Hop host (.outcome depth (.evaluate n) m₂) (.argument f vs m₃ before.length)
  | bind {f : Closure} {vs : List Value} {m : Machine} {i : Nat} {p : Token} :
      f.params[i]? = some p →
      (∀ j q, i < j → f.params[j]? = some q → q.lexeme ≠ p.lexeme) →
      Hop host (.argument (.function f) vs m i)
        (.entry (m.inScope f.scope (f.bindings vs)) m.scopes.next p.lexeme)

/-- From one station to another in any number of hops. -/
abbrev Travels (host : Host) : Station → Station → Prop := Relation.ReflTransGen (Hop host)

/-! ### Values on the way -/

namespace Engine

variable {host : Host} {below : Engine} {m m' m'' : Machine} {v : Value}

/-- The value of an expression stands where the expression does. -/
theorem getElem?_of_evaluateAll {before after : List Node} {n : Node} {us vs : List Value}
    (hbefore : evaluateAll below before m = .ok us m')
    (hall : evaluateAll below (before ++ n :: after) m = .ok vs m'')
    (hn : below.Gives v (.evaluate n) m') : vs[before.length]? = some v := by
  induction before generalizing m us vs with
  | nil =>
    cases hbefore
    obtain ⟨m₁, hv⟩ := hn
    obtain ⟨ws, m₂, -, hws⟩ := Run.exists_of_bind ((Run.bind_of_ok hv).symm.trans hall)
    cases hws
    rfl
  | cons b before ih =>
    obtain ⟨u, m₁, hu, hrest⟩ := Run.exists_of_bind hbefore
    obtain ⟨us', m₂, hus, hend⟩ := Run.exists_of_bind hrest
    cases hend
    obtain ⟨ws, m₃, hws, hend⟩ := Run.exists_of_bind ((Run.bind_of_ok hu).symm.trans hall)
    cases hend
    exact ih hus hws

/-- The answer of what is called is the value of the call. -/
theorem Starts.gives_call {c : Node} {paren : Token} {ns : List Node} {f : Value}
    {vs : List Value} (h : Starts host below (.evaluate (.call c paren ns)) m (.invoke f vs) m')
    (hv : below.Gives v (.invoke f vs) m') :
    (above host below).Gives v (.evaluate (.call c paren ns)) m := by
  obtain ⟨m'', hv⟩ := hv
  cases h with
  | @call _ _ _ _ _ _ m₁ m₂ hc hf ha hlength =>
    have hanswer : (do let answer ← below.invoke f vs; Run.ofExcept answer.ensure : Run Value)
        m₂.inCall = .ok v m'' := Run.bind_of_ok hv
    have hadopted : Run.adopting paren
        (do let answer ← below.invoke f vs; Run.ofExcept answer.ensure) m₂.inCall = .ok v m'' := by
      rw [Run.adopting, hanswer]
    have hcall : Engine.call host below f vs paren m₂
        = .ok v { m'' with callDepth := m''.callDepth - 1 } := by
      rw [Engine.call]
      rw [if_neg (not_not_intro hlength), Run.counted]
      simp only [Machine.inCall] at hadopted
      rw [hadopted]
    refine ⟨{ m'' with callDepth := m''.callDepth - 1 }, ?_⟩
    refine (Run.bind_of_ok hc).trans ?_
    rw [if_pos hf]
    exact (Run.bind_of_ok ha).trans hcall

end Engine

section Travels

variable {host : Host} {depth : Nat} {t t' : Task} {m m' : Machine} {v w : Value}
  {s s' s'' : Station}

theorem evaluate_assign {name : Token} {value : Node} {a : String} {id : ScopeId}
    (h : Resolves host depth (.evaluate (.assign name value)) m a id)
    (hv : (Engine.ofDepth host depth).Gives v (.evaluate value) m) :
    ∃ m' : Machine, id < m'.scopes.next ∧
      (Engine.ofDepth host (depth + 1)).evaluate (.assign name value) m
        = .ok v { m' with scopes := m'.scopes.define id a v } := by
  obtain ⟨m', hv⟩ := hv
  cases h with
  | assign hw howner =>
    cases hv.symm.trans hw
    have hscope := ((Engine.ofDepth_restores host depth).evaluate value).scope_eq hv
    have hassign : Run.assign name v m'
        = .ok () { m' with scopes := m'.scopes.define id name.lexeme v } := by
      rw [Run.assign, hscope, howner]
    have hsome := List.find?_some (p := fun id => (m'.scopes.local? id name.lexeme).isSome) howner
    obtain ⟨u, hu⟩ := Option.isSome_iff_exists.mp hsome
    refine ⟨m', Scopes.lt_next_of_local? hu, ?_⟩
    exact (Run.bind_of_ok hv).trans ((Run.bind_of_ok hassign).trans rfl)

/-- What a task hands on is the value of the task it has started. -/
theorem Hands.gives (h : Hands host depth t m t' m')
    (hv : (Engine.ofDepth host depth).Gives v t' m') :
    (Engine.ofDepth host (depth + 1)).Gives v t m := by
  have hplaces := Engine.ofDepth_restores host depth
  cases h with
  | grouping => exact hv
  | @chosen _ _ _ _ a _ _ hc =>
    obtain ⟨m'', hv⟩ := hv
    refine ⟨m'', (Run.bind_of_ok hc).trans ?_⟩
    by_cases ha : a.truthy = true
    · rwa [if_pos ha] at hv ⊢
    · rwa [if_neg ha] at hv ⊢
  | @settled _ _ operator a _ m₁ hl ha =>
    obtain ⟨m'', hv⟩ := hv
    cases hl.symm.trans hv
    refine ⟨m₁, (Run.bind_of_ok hl).trans ?_⟩
    by_cases hor : operator.kind = .kwOr
    · rw [if_pos hor, if_pos (ha.mpr hor)]
      rfl
    · rw [if_neg hor, if_neg fun h => hor (ha.mp h)]
      rfl
  | @unsettled _ _ operator a _ _ hl ha =>
    obtain ⟨m'', hv⟩ := hv
    refine ⟨m'', (Run.bind_of_ok hl).trans ?_⟩
    by_cases hor : operator.kind = .kwOr
    · rw [if_pos hor, if_neg fun h => ha.mp h hor]
      exact hv
    · rw [if_neg hor, if_pos (ha.mpr hor)]
      exact hv
  | assigned hres =>
    obtain ⟨m'', -, hassign⟩ := evaluate_assign hres hv
    exact ⟨_, hassign⟩
  | call hstarts => exact hstarts.gives_call hv
  | givenBack hm =>
    obtain ⟨m'', hv⟩ := hv
    exact ⟨m'', Run.returning_of_ok _ hm hv⟩
  | statement hstarts =>
    obtain ⟨m'', hv⟩ := hv
    exact ⟨_, hstarts.returned hplaces hv⟩
  | body hstarts =>
    obtain ⟨m'', hv⟩ := hv
    exact ⟨_, hstarts.answer hv⟩

/-- What arrives at the next station is what has set out. -/
theorem Hop.holds (h : Hop host s s') (hv : s.Holds host v) : s'.Holds host v := by
  cases h with
  | hand hhands => exact hhands.gives hv
  | assign hres =>
    obtain ⟨m', hid, hassign⟩ := evaluate_assign hres hv
    rw [Station.Holds, Engine.after, hassign]
    exact (Scopes.local?_define hid _ _ _ _).trans (if_pos ⟨rfl, rfl⟩)
  | declare hid =>
    obtain ⟨m', hv⟩ := hv
    have hnext := (((Engine.ofDepth_progresses host _).evaluate _).of_ok hv).scopes
    rw [Station.Holds, Engine.after, Engine.execute_declare _ hv]
    exact (Scopes.local?_define (Nat.lt_of_lt_of_le hid hnext) _ _ _ _).trans (if_pos ⟨rfl, rfl⟩)
  | keep hmeanwhile => exact hmeanwhile.local?_eq_some hv
  | @read _ name m _ _ hres =>
    cases hres with
    | lookup howner =>
      have hget : m.scopes.get? m.scope name.lexeme = some v := by
        rw [Scopes.get?_eq_bind_owner?, howner]
        exact hv
      refine ⟨m, ?_⟩
      change Run.lookup name m = .ok v m
      rw [Run.lookup, hget]
  | pass before hc hbefore hstarts =>
    generalize hns : before ++ _ :: _ = ns at hstarts
    cases hstarts with
    | call hc' _ ha =>
      subst hns
      cases hc.symm.trans hc'
      exact Engine.getElem?_of_evaluateAll hbefore ha hv
  | bind hp hlater =>
    have hbound := Closure.get?_bindings hp hlater hv
    rw [Station.Holds, Machine.inScope, Scopes.local?, Scopes.table_push_next]
    exact hbound

/-- What arrives is what has set out. -/
theorem Travels.holds (h : Travels host s s') (hv : s.Holds host v) : s'.Holds host v := by
  induction h with
  | refl => exact hv
  | tail _ hhop ih => exact hhop.holds ih

/-- Whatever has come from one place is equal. -/
theorem Travels.equal (h : Travels host s s') (h' : Travels host s s'') (hv : s.Holds host v)
    {w w' : Value} (hw : s'.Holds host w) (hw' : s''.Holds host w') : w.equal w' = true := by
  obtain rfl := (h.holds hv).unique hw
  obtain rfl := (h'.holds hv).unique hw'
  exact Value.equivalence_equal.refl v

end Travels

/-! ### Comparisons in a program -/

section Comparisons

variable {host : Host} {depth : Nat} {l r : Node} {op : Token} {v w : Value} {m m₁ m₂ : Machine}

/-- Two values can always be compared. -/
theorem Value.applyBinary_equality (op : Token) (v w : Value) :
    (op.kind = .equalEqual → v.applyBinary op w = .ok (.bool (v.equal w))) ∧
    (op.kind = .bangEqual → v.applyBinary op w = .ok (.bool (!v.equal w))) := by
  constructor <;>
    · intro hop
      rw [applyBinary, hop]
      rfl

/-- So a comparison ends as its operands have ended. -/
theorem Engine.evaluate_equality (hl : (ofDepth host depth).evaluate l m = .ok v m₁)
    (hr : (ofDepth host depth).evaluate r m₁ = .ok w m₂) :
    (op.kind = .equalEqual → (ofDepth host (depth + 1)).evaluate (.binary l op r) m
      = .ok (.bool (v.equal w)) m₂) ∧
    (op.kind = .bangEqual → (ofDepth host (depth + 1)).evaluate (.binary l op r) m
      = .ok (.bool (!v.equal w)) m₂) := by
  have hbinary : (ofDepth host (depth + 1)).evaluate (.binary l op r) m
      = (do Run.computed (← Run.ofExcept (v.applyBinary op w)) : Run Value) m₂ :=
    (Run.bind_of_ok hl).trans (Run.bind_of_ok hr)
  obtain ⟨heq, hne⟩ := Value.applyBinary_equality op v w
  exact ⟨fun hop => by rw [hbinary, heq hop]; rfl, fun hop => by rw [hbinary, hne hop]; rfl⟩

end Comparisons

/-- Equality is an equivalence of the values of a program. Values of different sorts are never
equal; numbers are if they are one and the same or equal as doubles, so that what is not a number is
equal to itself only. Values can be compared whatever they are, and inequality is the opposite of
equality. Whichever way a value takes, through variables, parameters, returns, groupings, ternaries
and logical operators, it arrives as it has set out: any two values that have come from one place
are equal, and so says a program that compares them. -/
theorem equality_of_travellers (host : Host) :
    (Equivalence fun v w : Value => v.equal w = true) ∧
    (∀ v w : Value, v.ctorIdx ≠ w.ctorIdx → v.equal w = false) ∧
    (∀ a b : Number,
      ((Value.number a).equal (.number b) = true ↔ a = b ∨ (a.value == b.value) = true) ∧
      (a.value.isNaN = true → ((Value.number a).equal (.number b) = true ↔ a = b))) ∧
    (∀ op v w,
      (op.kind = .equalEqual → Value.applyBinary op v w = .ok (.bool (v.equal w))) ∧
      (op.kind = .bangEqual → Value.applyBinary op v w = .ok (.bool (!v.equal w)))) ∧
    (∀ depth l op r v w m m₁ m₂,
      (Engine.ofDepth host depth).evaluate l m = .ok v m₁ →
      (Engine.ofDepth host depth).evaluate r m₁ = .ok w m₂ →
      (op.kind = .equalEqual → (Engine.ofDepth host (depth + 1)).evaluate (.binary l op r) m
        = .ok (.bool (v.equal w)) m₂) ∧
      (op.kind = .bangEqual → (Engine.ofDepth host (depth + 1)).evaluate (.binary l op r) m
        = .ok (.bool (!v.equal w)) m₂)) ∧
    (∀ s s' v, Travels host s s' → s.Holds host v → s'.Holds host v) ∧
    (∀ s s' s'' v w w', Travels host s s' → Travels host s s'' → s.Holds host v →
      s'.Holds host w → s''.Holds host w' → w.equal w' = true) ∧
    (∀ s depth l op r m v, s.Holds host v →
      Travels host s (.outcome depth (.evaluate l) m) →
      Travels host s
        (.outcome depth (.evaluate r) ((Engine.ofDepth host depth).after (.evaluate l) m)) →
      (op.kind = .equalEqual →
        (Engine.ofDepth host (depth + 1)).Gives (.bool true) (.evaluate (.binary l op r)) m) ∧
      (op.kind = .bangEqual →
        (Engine.ofDepth host (depth + 1)).Gives (.bool false) (.evaluate (.binary l op r)) m)) := by
  refine ⟨Value.equivalence_equal, ?_, ?_, Value.applyBinary_equality,
    fun _ _ _ _ _ _ _ _ _ => Engine.evaluate_equality, fun _ _ _ => Travels.holds,
    fun _ _ _ _ _ _ h h' hv hw hw' => h.equal h' hv hw hw', ?_⟩
  · intro v w hsort
    exact Bool.eq_false_iff.mpr fun h => hsort (Value.equal_iff.mp h).ctorIdx_eq
  · exact fun a b => ⟨Number.equal_iff, Number.equal_iff_eq_of_isNaN⟩
  · intro s depth l op r m v hv hl hr
    obtain ⟨m₁, hleft⟩ := hl.holds hv
    rw [Engine.after, hleft] at hr
    obtain ⟨m₂, hright⟩ := hr.holds hv
    obtain ⟨heq, hne⟩ := Engine.evaluate_equality hleft hright
    have hrefl : v.equal v = true := Value.equivalence_equal.refl v
    rw [hrefl] at heq hne
    exact ⟨fun hop => ⟨m₂, heq hop⟩, fun hop => ⟨m₂, hne hop⟩⟩

namespace HandedBack

/-- A host without functions of its own. -/
def host : Host := ⟨[], 12, 5⟩

def word (kind : Kind) (lexeme : String) : Token := ⟨kind, lexeme, .nil, 1⟩

/-- What is not a number, from a literal. -/
def nan : Number := ⟨0 / 0, .literal 0⟩

theorem isNaN_nan : nan.value.isNaN = true := by decide +kernel

/-- The expressions `x` and `y`. -/
def x : Node := .reference (word .identifier "x")

def y : Node := .reference (word .identifier "y")

/-- The expression `y or nil`. -/
def choice : Node := .logical y (word .kwOr "or") (.literal .nil)

/-- The expression `true ? (y or nil) : nil`. -/
def branches : Node :=
  .ternary (.literal (.bool true)) (word .question "?") (.grouping choice) (.literal .nil)

/-- The statement that gives it back. -/
def giveBack : Node := .returning (word .kwReturn "return") (some branches)

/-- The declaration of a function `keep` that gives back its argument. -/
def declaration : Node :=
  .function (word .identifier "keep") [word .identifier "y"] [giveBack]

/-- The expression `keep(x)`. -/
def use : Node := .call (.reference (word .identifier "keep")) (word .rightParen ")") [x]

/-- The declaration of the variable `x`. -/
def definition : Node := .declare (word .identifier "x") (some (.literal (.number nan)))

/-- The machine with the variable, and with the function as well. -/
def defined : Machine := (Engine.ofDepth host 12).after (.execute definition) (.fresh [])

def declared : Machine := (Engine.ofDepth host 12).after (.execute declaration) defined

/-- The place where the value is made. -/
def origin : Station := .outcome 11 (.evaluate (.literal (.number nan))) (.fresh [])

theorem travels_variable : Travels host origin (.entry declared 0 "x") := by
  have hdefine : Hop host origin (.entry defined 0 "x") := Hop.declare (by decide)
  have hkeep : Meanwhile host "x" 0 defined declared :=
    .perform (Spares.function (by decide) _ _)
  exact .tail (.single hdefine) (.keep hkeep)

theorem travels_read (depth : Nat) :
    Travels host origin (.outcome (depth + 1) (.evaluate x) declared) :=
  travels_variable.tail (.read (.lookup rfl))

/-- The function that is called. -/
def keep : Closure :=
  ⟨0, word .identifier "keep", [word .identifier "y"], [giveBack], Machine.globalScope⟩

/-- The machine in which its body is executed. -/
def inside : Machine := declared.inCall.inScope keep.scope (keep.bindings [.number nan])

theorem starts_keep : Engine.Starts host (.ofDepth host 10) (.evaluate use) declared
    (.invoke (.function keep) [.number nan]) declared.inCall :=
  .call rfl rfl rfl rfl

theorem travels_parameter : Travels host origin (.entry inside 1 "y") := by
  have hpass : Hop host (.outcome 10 (.evaluate x) declared)
      (.argument (.function keep) [.number nan] declared.inCall 0) := .pass [] rfl rfl starts_keep
  have hlater (j : Nat) (q : Token) (hj : 0 < j) (hq : keep.params[j]? = some q) :
      q.lexeme ≠ (word .identifier "y").lexeme := by
    obtain ⟨k, rfl⟩ := Nat.exists_eq_succ_of_ne_zero (Nat.ne_of_gt hj)
    cases hq
  have hbind : Hop host (.argument (.function keep) [.number nan] declared.inCall 0)
      (.entry inside declared.inCall.scopes.next "y") :=
    .bind (p := word .identifier "y") rfl hlater
  have hnext : declared.inCall.scopes.next = 1 := rfl
  rw [hnext] at hbind
  exact ((travels_read 9).tail hpass).tail hbind

theorem travels_call : Travels host origin (.outcome 11 (.evaluate use) declared) := by
  have hread : Hop host (.entry inside 1 "y") (.outcome 5 (.evaluate y) inside) :=
    .read (.lookup rfl)
  have hleft : (Engine.ofDepth host 5).evaluate y inside = .ok (.number nan) inside := rfl
  have hsettled : Hands host 5 (.evaluate choice) inside (.evaluate y) inside :=
    .settled hleft (by decide)
  have hcondition : (Engine.ofDepth host 7).evaluate (.literal (.bool true)) inside
      = .ok (.bool true) inside := rfl
  have hchosen : Hands host 7 (.evaluate branches) inside (.evaluate (.grouping choice)) inside :=
    .chosen hcondition
  have hback : Hands host 8 (.execute giveBack) inside (.evaluate branches) inside :=
    .givenBack (by decide)
  have hbody : Hands host 9 (.invoke (.function keep) [.number nan]) declared.inCall
      (.execute giveBack) inside := .body (.body [] rfl rfl)
  have hlogical := (travels_parameter.tail hread).tail (.hand hsettled)
  have hreturn := ((hlogical.tail (.hand .grouping)).tail (.hand hchosen)).tail (.hand hback)
  exact (hreturn.tail (.hand hbody)).tail (.hand (.call starts_keep))

/-- What the function gives back is equal to the variable, though it is not a number. It is not
equal to what has another origin, nor to a value of another sort. -/
theorem equality_of_travellers_handedBack :
    nan.value.isNaN = true ∧ (Value.number nan).equal (.number ⟨nan.value, .literal 1⟩) = false ∧
    (Value.number nan).ctorIdx ≠ Value.nil.ctorIdx ∧ (Value.number nan).equal .nil = false ∧
    origin.Holds host (.number nan) ∧
    Travels host origin (.outcome 11 (.evaluate x) declared) ∧
    Travels host origin (.outcome 11 (.evaluate use) declared) ∧
    (Engine.ofDepth host 12).Gives (.bool true)
      (.evaluate (.binary x (word .equalEqual "==") use)) declared := by
  obtain ⟨-, hsorts, hnumbers, -, -, -, -, hcompare⟩ := equality_of_travellers host
  have hother : (Value.number nan).equal (.number ⟨nan.value, .literal 1⟩) = false := by
    rw [Bool.eq_false_iff, ne_eq, (hnumbers nan _).2 isNaN_nan]
    intro h
    cases congrArg Number.origin h
  have hsort : (Value.number nan).ctorIdx ≠ Value.nil.ctorIdx := by decide
  have hholds : origin.Holds host (.number nan) := ⟨_, rfl⟩
  have hreading : (Engine.ofDepth host 11).after (.evaluate x) declared = declared :=
    Engine.after_reference host 10 (word .identifier "x") declared
  have hcall := travels_call
  rw [← hreading] at hcall
  have hequal := (hcompare origin 11 x (word .equalEqual "==") use declared (.number nan) hholds
    (travels_read 10) hcall).1 rfl
  exact ⟨isNaN_nan, hother, hsort, hsorts _ _ hsort, hholds, travels_read 10, travels_call, hequal⟩

end HandedBack

end Lox
