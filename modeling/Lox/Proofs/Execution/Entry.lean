import Lox.Proofs.Execution.Binding

/-!
# What a variable holds

A variable is an entry in a scope. It is set by a declaration that is executed in this scope and by
an assignment that finds it there, and by nothing else. As long as none of these is performed, it
holds the value that it held before, whatever else is done: in a whole task, and on the way to a
task that is performed for it. The entries of a call's own scope hold the arguments.

## Main definitions

* `Sets`: a task that sets an entry itself.
* `Spares`: a task for which none is performed that sets the entry.
* `Meanwhile`: what is done between two machines without setting the entry.

## Main results

* `Spares.local?_eq`, `Spares.local?_after`: a task that spares an entry leaves it alone.
* `Closure.get?_bindings`: a parameter holds its argument.
-/

namespace Lox

/-! ### Entries elsewhere -/

namespace Scopes

variable {s : Scopes} {id id' : ScopeId} {a b : String}

theorem local?_define_of_ne (h : ¬ (id = id' ∧ a = b)) (v : Value) :
    (s.define id' b v).local? id a = s.local? id a := by
  rw [local?, local?, table_define]
  split
  · rename_i hid
    rw [Table.get?_set, if_neg fun hab => h ⟨hid.1, hab⟩, hid.1]
  · rfl

theorem local?_push (h : id < s.next) (t : Table) : (s.push t).local? id a = s.local? id a := by
  rw [local?, table_push_of_ne (Nat.ne_of_lt h), local?]

theorem lt_next_of_local? {v : Value} (h : s.local? id a = some v) : id < s.next := by
  by_contra hid
  rw [local?, table_of_next_le (Nat.le_of_not_lt hid)] at h
  cases h

end Scopes

/-! ### Tasks that set an entry -/

/-- A task that sets an entry itself: an assignment that finds the variable there, or a declaration
that is executed in its scope. -/
inductive Sets (host : Host) (depth : Nat) : Task → Machine → String → ScopeId → Prop
  | assign {name : Token} {value : Node} {m : Machine} {a : String} {id : ScopeId} :
      Resolves host depth (.evaluate (.assign name value)) m a id →
      Sets host depth (.evaluate (.assign name value)) m a id
  | declare {n : Node} {m m' : Machine} {a : String} :
      n.declaredName = some a → (Engine.ofDepth host (depth + 1)).execute n m = .ok () m' →
      Sets host depth (.execute n) m a m.scope.here

/-- A task for which none is performed that sets the entry. -/
def Spares (host : Host) (depth : Nat) (t : Task) (m : Machine) (a : String) (id : ScopeId) :
    Prop :=
  ∀ d t' m' frames, Performs host depth t m (d + 1) t' m' frames → ¬ Sets host d t' m' a id

/-- What is done between two machines without setting the entry: tasks are performed that spare it,
other entries are set, scopes are made, and whatever does not touch the scopes. -/
inductive Meanwhile (host : Host) (a : String) (id : ScopeId) : Machine → Machine → Prop
  | aside {m m' : Machine} : m'.scopes = m.scopes → Meanwhile host a id m m'
  | make {m m' : Machine} {t : Table} :
      m'.scopes = m.scopes.push t → Meanwhile host a id m m'
  | set {m m' : Machine} {id' : ScopeId} {b : String} {v : Value} :
      m'.scopes = m.scopes.define id' b v → ¬ (id = id' ∧ a = b) → Meanwhile host a id m m'
  | perform {depth : Nat} {t : Task} {m : Machine} :
      Spares host depth t m a id →
      Meanwhile host a id m ((Engine.ofDepth host depth).after t m)
  | enter {depth depth' : Nat} {t t' : Task} {m m' : Machine} {frames : List Frame} :
      Spares host depth t m a id → Performs host depth t m depth' t' m' frames →
      Meanwhile host a id m m'
  | trans {m m' m'' : Machine} :
      Meanwhile host a id m m' → Meanwhile host a id m' m'' → Meanwhile host a id m m''

/-- A scope is there, and holds this under some name, if anything. -/
def Custody.entry (a : String) (id : ScopeId) (o : Option Lox.Value) : Custody :=
  ofScopes fun s => id < s.next ∧ s.local? id a = o

section Spares

variable {host : Host} {depth depth' : Nat} {t t' : Lox.Task} {m m' : Machine} {a : String}
  {id : ScopeId} {frames : List Frame} {o : Option Lox.Value}

theorem Custody.entry_admits (h : ¬ Sets host depth t m a id) :
    (Custody.entry a id o).Admits (.ofDepth host depth) m t := by
  refine ofScopes_admits ?_ ?_ ?_
  · rintro c - ⟨hid, ho⟩
    exact ⟨Nat.lt_of_lt_of_le hid (by simp), (Scopes.local?_push hid _).trans ho⟩
  · rintro name value m' v id' rfl hv howner ⟨hid, ho⟩
    have hne : ¬ (id = id' ∧ a = name.lexeme) := by
      rintro ⟨rfl, rfl⟩
      exact h (.assign (.assign hv howner))
    exact ⟨by rwa [Scopes.next_define], (Scopes.local?_define_of_ne hne v).trans ho⟩
  · rintro n b m' m'' v rfl hname - hrun hdefine ⟨hid, ho⟩
    have hne : ¬ (id = m.scope.here ∧ a = b) := by
      rintro ⟨rfl, rfl⟩
      exact h (.declare hname hrun)
    rw [hdefine]
    exact ⟨by rwa [Scopes.next_define], (Scopes.local?_define_of_ne hne v).trans ho⟩

/-- On the way to a task that is performed for one that spares the entry, this is left alone. -/
theorem Spares.local?_eq (h : Spares host depth t m a id) (hid : id < m.scopes.next)
    (hperforms : Performs host depth t m depth' t' m' frames) :
    m'.scopes.local? id a = m.scopes.local? id a := by
  have hstart : (Custody.entry a id (m.scopes.local? id a)).Holds m :=
    Custody.ofScopes_holds ⟨hid, rfl⟩
  have hpoint := Custody.ofScopes_kept.performs
    (fun d t' m' frames hperforms => Custody.entry_admits (h d t' m' frames hperforms)) hstart
    (Custody.ofScopes_task m t) hperforms
  exact hpoint.1.machine.2

/-- It is left alone when the task is over. -/
theorem Spares.local?_after (h : Spares host depth t m a id) (hid : id < m.scopes.next) :
    ((Engine.ofDepth host depth).after t m).scopes.local? id a = m.scopes.local? id a := by
  have hstart : (Custody.entry a id (m.scopes.local? id a)).Holds m :=
    Custody.ofScopes_holds ⟨hid, rfl⟩
  have hends := Custody.ofScopes_kept.ends
    (fun d t' m' frames hperforms => Custody.entry_admits (h d t' m' frames hperforms)) hstart
    (Custody.ofScopes_task m t)
  exact (Custody.Kept.after hends).machine.2

/-- All that a statement can set itself is what it declares. -/
theorem Sets.declaredName_eq {n : Node} (h : Sets host depth (.execute n) m a id) :
    n.declaredName = some a := by
  cases h with
  | declare hname => exact hname

/-- The declaration of a function sets one entry, and nothing else is performed for it. -/
theorem Spares.function {name : Token} (h : name.lexeme ≠ a) (params : List Token)
    (body : List Node) : Spares host depth (.execute (.function name params body)) m a id := by
  intro d t' m' frames hperforms hsets
  obtain ⟨-, rfl, -, -⟩ | ⟨_, _, _, _, -, hstarts, -, -⟩ := hperforms.eq_or_starts
  · exact h (Option.some.inj hsets.declaredName_eq)
  · cases hstarts

/-- A variable that is read is left as it is, and all others are. -/
theorem Engine.after_reference (host : Host) (depth : Nat) (name : Token) (m : Machine) :
    (ofDepth host (depth + 1)).after (.evaluate (.reference name)) m = m := by
  change endState (Run.lookup name m) = m
  rw [Run.lookup]
  split <;> rfl

theorem Meanwhile.local?_eq_some (h : Meanwhile host a id m m') {v : Value}
    (hv : m.scopes.local? id a = some v) : m'.scopes.local? id a = some v := by
  induction h with
  | aside hscopes => rwa [hscopes]
  | make hscopes => rwa [hscopes, Scopes.local?_push (Scopes.lt_next_of_local? hv)]
  | set hscopes hne => rwa [hscopes, Scopes.local?_define_of_ne hne]
  | perform hspares => exact (hspares.local?_after (Scopes.lt_next_of_local? hv)).trans hv
  | enter hspares hperforms =>
    exact (hspares.local?_eq (Scopes.lt_next_of_local? hv) hperforms).trans hv
  | trans _ _ ih ih' => exact ih' (ih hv)

end Spares

/-! ### Parameters -/

section Bindings

variable {ps : List (Token × Value)} {p : Token} {v : Value} {i : Nat}

/-- Entries for other names make no difference. -/
theorem Table.get?_foldl_set_of_ne (t : Table) {a : String} (h : ∀ b ∈ ps, b.1.lexeme ≠ a) :
    (ps.foldl (fun t b => t.set b.1.lexeme b.2) t).get? a = t.get? a := by
  induction ps generalizing t with
  | nil => rfl
  | cons b ps ih =>
    obtain ⟨hb, hps⟩ := List.forall_mem_cons.mp h
    rw [List.foldl_cons, ih _ hps, Table.get?_set, if_neg (Ne.symm hb)]

/-- A parameter holds its argument, unless a later one has the same name. -/
theorem Closure.get?_bindings {f : Closure} {vs : List Value} (hp : f.params[i]? = some p)
    (hlater : ∀ j q, i < j → f.params[j]? = some q → q.lexeme ≠ p.lexeme)
    (hv : vs[i]? = some v) : (f.bindings vs).get? p.lexeme = some v := by
  have hpair : (f.params.zip vs)[i]? = some (p, v) := by
    rw [List.getElem?_zip_eq_some]
    exact ⟨hp, hv⟩
  obtain ⟨hi, hget⟩ := List.getElem?_eq_some_iff.mp hpair
  have hrest : ∀ b ∈ (f.params.zip vs).drop (i + 1), b.1.lexeme ≠ p.lexeme := by
    intro b hb
    obtain ⟨k, hk⟩ := List.getElem?_of_mem hb
    rw [List.getElem?_drop, List.getElem?_zip_eq_some] at hk
    exact hlater _ b.1 (by omega) hk.1
  rw [bindings, ← List.take_append_drop i (f.params.zip vs), List.drop_eq_getElem_cons hi, hget,
    List.foldl_append, List.foldl_cons, Table.get?_foldl_set_of_ne _ hrest, Table.get?_set,
    if_pos rfl]

end Bindings

end Lox
