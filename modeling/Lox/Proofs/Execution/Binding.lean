import Lox.Proofs.Execution.Frame
import Lox.Proofs.Execution.Heap

/-!
# Which variable the body of a function means

A function holds on to the scopes it has been declared in, not to the variables that its names mean
there. A name that is no name of a call's own is looked for in these scopes each time it is used. So
a name means the same throughout a call, since nothing that is executed in the call adds names to
scopes that were there; but it may mean another variable in a later call, if a declaration has added
the name in the meantime to a scope that lies further inside.

Nothing is said about names that are found in scopes of the call itself, and nothing about names
that are not found.

## Main definitions

* `Resolves`: a lookup or an assignment of a name that finds a variable.
* `Adds`: a declaration that adds a name to the scope it is executed in.
* `Refers`: in some call the body of a function means a variable by a name.
* `Moves`: between two points of a life a name has been added further inside.

## Main results

* `Performs.sameNames`: an expression or a call adds no name to a scope that was there.
* `Occurs.exists_adds_between`: a name that is in a scope only later has been declared in between.
* `binding_moves_inward`: a name means the same in all calls of a function, unless it has been
  declared further inside.
-/

namespace Lox

/-! ### Scopes along a path -/

namespace Engine

variable {host : Host} {below : Engine} {t t' : Task} {m m' : Machine}

/-- A task inside a block or a function is in the new scope. -/
theorem Starts.scope_of_opens (h : Starts host below t m t' m')
    (hb : below.Has Run.Restores Run.Restores) {c : Chain} (hopens : t.Opens m c) :
    m'.scope = c.extend m.scopes.next := by
  have hall := Run.handedOn_restores.executeAll hb
  cases hopens with
  | block ns =>
    cases h with
    | inBlock before hbefore => exact (hall before).scope_eq hbefore
  | call f vs =>
    cases h with
    | body before hf hbefore => exact (hall before).scope_eq hbefore

/-- All other tasks are where the one they are started by is. -/
theorem Starts.scope_of_not_opens (h : Starts host below t m t' m')
    (hb : below.Has Run.Restores Run.Restores) (hopens : ∀ c, ¬ t.Opens m c) :
    m'.scope = m.scope := by
  have hpass := Run.handedOn_restores.pass hb
  have harguments := Run.handedOn_restores.evaluateAll hb
  cases h with
  | right h | logicalRight h _ | chosen h | thenBranch h _ | elseBranch h _ =>
    exact (hb.evaluate _).scope_eq h
  | argument _ hc _ ha => exact ((harguments _).scope_eq ha).trans ((hb.evaluate _).scope_eq hc)
  | call hc _ ha _ => exact ((harguments _).scope_eq ha).trans ((hb.evaluate _).scope_eq hc)
  | inBlock => exact absurd (.block _) (hopens m.scope)
  | body => exact absurd (.call _ _) (hopens _)
  | loopCondition h _ => exact congrArg Place.scope (h.place_eq (hpass _ _))
  | loopBody h _ hc _ =>
    exact ((hb.evaluate _).scope_eq hc).trans (congrArg Place.scope (h.place_eq (hpass _ _)))
  | callback _ h => exact congrArg Place.scope (h.place_eq hb)
  | _ => rfl

end Engine

theorem Task.frames_eq_nil_or (t : Task) (depth : Nat) (m : Machine) :
    t.frames depth m = [] ∨
      ∃ f vs, t = .invoke (.function f) vs ∧ t.frames depth m = [⟨depth, f, vs, m⟩] := by
  cases t with
  | invoke callee vs =>
    cases callee with
    | function f => exact .inr ⟨f, vs, rfl, rfl⟩
    | _ => exact .inl rfl
  | _ => exact .inl rfl

/-- The call that a frame stands for. -/
def Frame.task (frame : Frame) : Task := .invoke (.function frame.callee) frame.arguments

namespace Performs

variable {host : Host} {depth depth' : Nat} {t t' : Task} {m m' : Machine} {frames : List Frame}
  {frame : Frame}

/-- What is performed in some active call is performed for the innermost one, with no other call
in between. -/
theorem innermost (h : Performs host depth t m depth' t' m' (frame :: frames)) :
    Performs host depth t m frame.depth frame.task frame.machine frames ∧
      Performs host frame.depth frame.task frame.machine depth' t' m' [frame] := by
  generalize hfs : frame :: frames = fs at h
  induction h with
  | self => cases hfs
  | @inside d t₁ t₂ m₁ m₂ fs h hstarts ih =>
    obtain hnil | ⟨f, vs, rfl, hcall⟩ := t₁.frames_eq_nil_or (d + 1) m₁
    · rw [hnil] at hfs
      obtain ⟨houter, hinner⟩ := ih hfs
      refine ⟨houter, ?_⟩
      have hstep := hinner.inside hstarts
      rwa [hnil] at hstep
    · rw [hcall] at hfs
      obtain ⟨rfl, rfl⟩ := List.cons.inj hfs
      exact ⟨h, Performs.self.inside hstarts⟩

/-- Outside of further calls the body of a function is executed in scopes that the call has made
inside the one the function was declared in. -/
theorem scope_eq_append
    (h : Performs host frame.depth frame.task frame.machine depth' t' m' [frame]) :
    ∃ new, m'.scope.scopes = new ++ frame.callee.scope.scopes ∧
      ∀ id ∈ new, frame.machine.scopes.next ≤ id := by
  generalize hfs : [frame] = fs at h
  induction h with
  | self => cases hfs
  | @inside d t₁ t₂ m₁ m₂ fs h hstarts ih =>
    have hrestores := Engine.ofDepth_restores host d
    obtain hnil | ⟨f, vs, rfl, hcall⟩ := t₁.frames_eq_nil_or (d + 1) m₁
    · rw [hnil] at hfs
      obtain ⟨new, hnew, hge⟩ := ih hfs
      by_cases hopens : ∃ c, t₁.Opens m₁ c
      · obtain ⟨c, hopens⟩ := hopens
        rw [hstarts.scope_of_opens hrestores hopens]
        cases hopens with
        | block ns =>
          refine ⟨m₁.scopes.next :: new, ?_, List.forall_mem_cons.mpr ⟨h.precedes.scopes, hge⟩⟩
          rw [List.cons_append, ← hnew]
          rfl
        | call f vs => cases hnil
      · rw [hstarts.scope_of_not_opens hrestores (not_exists.mp hopens)]
        exact ⟨new, hnew, hge⟩
    · rw [hcall] at hfs
      obtain ⟨rfl, rfl⟩ := List.cons.inj hfs
      rw [hstarts.scope_of_opens hrestores (.call f vs)]
      exact ⟨[m₁.scopes.next], rfl, List.forall_mem_singleton.mpr (Nat.le_refl _)⟩

/-- Whatever is executed for an expression or a call is executed in scopes that were not there. -/
theorem next_le_here (h : Performs host depth t m depth' t' m' frames)
    (ht : ∀ n, t ≠ .execute n) {n : Node} (ht' : t' = .execute n) :
    m.scopes.next ≤ m'.scope.here := by
  induction h generalizing n with
  | self => exact absurd ht' (ht n)
  | @inside d t₁ t₂ m₁ m₂ fs h hstarts ih =>
    subst ht'
    have hrestores := Engine.ofDepth_restores host d
    by_cases hopens : ∃ c, t₁.Opens m₁ c
    · obtain ⟨c, hopens⟩ := hopens
      rw [hstarts.scope_of_opens hrestores hopens]
      exact h.precedes.scopes
    · rw [hstarts.scope_of_not_opens hrestores (not_exists.mp hopens)]
      cases t₁ with
      | evaluate e => exact absurd hstarts Engine.Starts.not_execute_of_evaluate
      | execute n' => exact ih rfl
      | invoke callee vs =>
        obtain ⟨f, -, rfl, -⟩ | ⟨_, _, _, -, hinvoke⟩ := hstarts.of_invoke
        · exact absurd ⟨_, .call f vs⟩ hopens
        · cases hinvoke

end Performs

/-! ### Names along a path -/

/-- The name that a declaration declares. -/
def Node.declaredName : Node → Option String
  | declare name _ => some name.lexeme
  | function name _ _ => some name.lexeme
  | _ => none

/-- A variable is declared in the scope that was in effect when its initializer was evaluated. -/
theorem Engine.execute_declare {host : Host} {depth : Nat} (name : Token) {n : Node} {v : Value}
    {m m' : Machine} (h : (ofDepth host depth).evaluate n m = .ok v m') :
    (ofDepth host (depth + 1)).execute (.declare name (some n)) m
      = .ok () { m' with scopes := m'.scopes.define m.scope.here name.lexeme v } := by
  rw [← ((ofDepth_restores host depth).evaluate n).scope_eq h]
  exact Run.bind_of_ok h

namespace Custody

/-- A property of scopes which says nothing about the values that they hold. -/
def ofScopes (P : Scopes → Prop) : Custody where
  machine m := P m.scopes
  chain _ _ := True
  closure _ _ := True

variable {P : Scopes → Prop}

theorem ofScopes_value (m : Machine) (v : Lox.Value) : (ofScopes P).Value m v := by
  cases v <;> trivial

theorem ofScopes_task (m : Machine) (t : Lox.Task) : (ofScopes P).Task m t := by
  cases t with
  | invoke f vs => exact ⟨ofScopes_value m f, fun v _ => ofScopes_value m v⟩
  | _ => trivial

theorem ofScopes_holds {m : Machine} (h : P m.scopes) : (ofScopes P).Holds m := ⟨h, trivial⟩

theorem ofScopes_kept : (ofScopes P).Kept where
  chain _ _ := trivial
  closure _ _ := trivial
  congr := by
    intro m m' hscopes _ h
    have hm : P m.scopes := h
    rwa [← hscopes] at hm
  get? _ _ _ := ofScopes_value _ _

/-- Such a property is kept where new scopes, assignments and declared names agree with it. -/
theorem ofScopes_admits {host : Host} {depth : Nat} {m : Machine} {t : Lox.Task}
    (hopens : ∀ c, t.Opens m c → P m.scopes → P (m.scopes.push t.table))
    (hassigns : ∀ name value m' v id, t = .evaluate (.assign name value) →
      (Engine.ofDepth host depth).evaluate value m = .ok v m' →
      m'.scopes.owner? m.scope name.lexeme = some id → P m'.scopes →
      P (m'.scopes.define id name.lexeme v))
    (hdeclares : ∀ n a m' m'' v, t = .execute n → n.declaredName = some a → m.Precedes m' →
      (Engine.ofDepth host (depth + 1)).execute n m = .ok () m'' →
      m''.scopes = m'.scopes.define m.scope.here a v → P m'.scopes → P m''.scopes) :
    (ofScopes P).Admits (.ofDepth host depth) m t := by
  have hb := Engine.ofDepth_progresses host depth
  cases t with
  | evaluate n =>
    cases n with
    | assign name value =>
      exact fun v m' id hv hid hm' _ => hassigns name value m' v id rfl hv hid hm'.machine
    | _ => trivial
  | execute n =>
    cases n with
    | declare name initializer =>
      intro v m' hv hm' _
      cases initializer with
      | none =>
        cases hv
        exact hdeclares _ name.lexeme _ _ _ rfl rfl (.refl _) rfl rfl hm'.machine
      | some e =>
        have hrun := Engine.execute_declare name hv
        exact hdeclares _ name.lexeme m' _ v rfl rfl ((hb.evaluate e).of_ok hv) hrun rfl hm'.machine
    | block ns => exact fun hm => ofScopes_holds (hopens m.scope (.block ns) hm.machine)
    | function name params body =>
      exact fun hm => hdeclares _ name.lexeme m _ _ rfl rfl (.refl m) rfl rfl hm.machine
    | _ => trivial
  | invoke callee vs =>
    cases callee with
    | function f => exact fun hm _ _ => ofScopes_holds (hopens f.scope (.call f vs) hm.machine)
    | _ => trivial

end Custody

section SameNames

variable {host : Host} {depth depth' : Nat} {t t' : Lox.Task} {m m' : Machine}
  {frames : List Frame}

theorem Custody.sameNames_admits (ht : ∀ n, t ≠ .execute n)
    (h : Performs host depth t m (depth' + 1) t' m' frames) :
    (Custody.ofScopes fun s => m.scopes.next ≤ s.next ∧ m.scopes.SameNames s none).Admits
      (.ofDepth host depth') m' t' := by
  refine ofScopes_admits ?_ ?_ ?_
  · intro c _ hs
    exact ⟨(Scopes.next_push _ _).symm ▸ Nat.le_succ_of_le hs.1, hs.2.push hs.1 _⟩
  · intro name value m₂ v id _ _ hid hs
    exact ⟨(Scopes.next_define _ _ _ _).symm ▸ hs.1, hs.2.assign hid v⟩
  · intro n a m₂ m₃ v hn _ _ _ hdefine hs
    have hhere := h.next_le_here ht hn
    rw [hdefine]
    exact ⟨(Scopes.next_define _ _ _ _).symm ▸ hs.1, hs.2.define (.inl hhere) a v⟩

/-- Nothing that is performed for an expression or a call adds a name to a scope that was there. -/
theorem Performs.sameNames (h : Performs host depth t m depth' t' m' frames)
    (ht : ∀ n, t ≠ .execute n) : m.scopes.SameNames m'.scopes none := by
  have hstart := Custody.ofScopes_holds
    (P := fun s => m.scopes.next ≤ s.next ∧ m.scopes.SameNames s none) (m := m)
    ⟨Nat.le_refl _, fun _ _ _ => rfl⟩
  have hpoint := Custody.ofScopes_kept.performs
    (fun _ _ _ _ => Custody.sameNames_admits ht) hstart (Custody.ofScopes_task m t) h
  exact hpoint.1.machine.2

theorem Performs.sameNames_after (h : Performs host depth t m depth' t' m' frames)
    (ht : ∀ n, t ≠ .execute n) :
    m.scopes.SameNames ((Engine.ofDepth host depth').after t' m').scopes none := by
  have hstart := Custody.ofScopes_holds
    (P := fun s => m.scopes.next ≤ s.next ∧ m.scopes.SameNames s none) (m := m)
    ⟨Nat.le_refl _, fun _ _ _ => rfl⟩
  have hends := Custody.ofScopes_kept.performs_ends
    (fun _ _ _ _ => Custody.sameNames_admits ht) hstart (Custody.ofScopes_task m t) h
  exact (Custody.Kept.after hends).machine.2

end SameNames

/-! ### What a name is resolved to -/

/-- A lookup or an assignment of a name that finds a variable in some scope. -/
inductive Resolves (host : Host) (depth : Nat) : Task → Machine → String → ScopeId → Prop
  | lookup {name : Token} {m : Machine} {id : ScopeId} :
      m.scopes.owner? m.scope name.lexeme = some id →
      Resolves host depth (.evaluate (.reference name)) m name.lexeme id
  | assign {name : Token} {value : Node} {v : Value} {m m' : Machine} {id : ScopeId} :
      (Engine.ofDepth host depth).evaluate value m = .ok v m' →
      m'.scopes.owner? m.scope name.lexeme = some id →
      Resolves host depth (.evaluate (.assign name value)) m name.lexeme id

section Resolves

variable {host : Host} {depth : Nat} {t : Task} {m : Machine} {frame : Frame} {a : String}
  {id : ScopeId}

/-- Where new scopes lie inside a chain, a scope that is not among them is found from the chain. -/
theorem Scopes.owner?_eq_of_append {s : Scopes} {c c' : Chain} {new : List ScopeId} {bound : Nat}
    (hc : c.scopes = new ++ c'.scopes) (hnew : ∀ id ∈ new, bound ≤ id)
    (h : s.owner? c a = some id) (hid : id < bound) : s.owner? c' a = some id := by
  rw [owner?, hc, List.find?_append] at h
  cases hfind : new.find? fun id => (s.local? id a).isSome with
  | none =>
    rw [hfind] at h
    exact h
  | some id' =>
    rw [hfind] at h
    cases h
    exact absurd hid (Nat.not_lt_of_le (hnew id (List.mem_of_find?_eq_some hfind)))

/-- What the body of a function means by a name that is not one of its own is what was meant by it
when the call began. -/
theorem Performs.owner?_eq
    (h : Performs host frame.depth frame.task frame.machine (depth + 1) t m [frame])
    (hscope : ∀ id ∈ frame.callee.scope.scopes, id < frame.machine.scopes.next)
    (hres : Resolves host depth t m a id) (hid : id < frame.machine.scopes.next) :
    frame.machine.scopes.owner? frame.callee.scope a = some id := by
  obtain ⟨new, hnew, hge⟩ := h.scope_eq_append
  have htask : ∀ n, frame.task ≠ .execute n := nofun
  cases hres with
  | lookup howner =>
    rw [← (h.sameNames htask).owner?_eq hscope]
    exact Scopes.owner?_eq_of_append hnew hge howner hid
  | assign hv howner =>
    have hsame := (h.inside .assigned).sameNames_after htask
    rw [Engine.after, hv] at hsame
    rw [← hsame.owner?_eq hscope]
    exact Scopes.owner?_eq_of_append hnew hge howner hid

end Resolves

/-! ### Declarations that add a name -/

/-- A declaration after which the scope it is executed in has a name that it did not have. -/
structure Adds (host : Host) (depth : Nat) (n : Node) (m : Machine) (a : String) (id : ScopeId) :
    Prop where
  declares : n.declaredName = some a
  here : m.scope.here = id
  lacks : a ∉ (m.scopes.table id).names
  gains : a ∈ ((endState ((Engine.ofDepth host (depth + 1)).execute n m)).scopes.table id).names

namespace Adds

variable {host : Host} {depth : Nat} {n : Node} {m : Machine} {a : String} {id : ScopeId}

/-- All that a declaration starts is the evaluation of an expression, where it stands. -/
theorem starts_evaluate {t' : Task} {m' : Machine} {below : Engine} (h : Adds host depth n m a id)
    (hstarts : Engine.Starts host below (.execute n) m t' m') :
    m' = m ∧ ∀ n', t' ≠ .execute n' := by
  have hdeclares := h.declares
  cases hstarts with
  | initializer => exact ⟨rfl, nofun⟩
  | _ => cases hdeclares

end Adds

section Between

variable {host : Host} {ts : List Task} {a : String} {id : ScopeId} {depth depth' : Nat}
  {t t' : Task} {m m' : Machine} {frames frames' : List Frame}

/-- A name that is in a scope only later has been added by a declaration. -/
theorem Occurs.exists_adds {m₀ : Machine} (hts : ∀ t ∈ ts, t.IsOuter)
    (h : Occurs host m₀ ts depth t m frames) (h' : Occurs host m₀ ts depth' t' m' frames')
    (hid : id < m.scopes.next) (hlacks : a ∉ (m.scopes.table id).names)
    (hgains : a ∈ (m'.scopes.table id).names) :
    ∃ d n m₁ fs, Occurs host m₀ ts (d + 1) (.execute n) m₁ fs ∧ Adds host d n m₁ a id := by
  by_contra hnone
  have hlacks₀ : a ∉ (m₀.scopes.table id).names := fun hmem =>
    hlacks ((h.precedes.names id).subset hmem)
  have hstart := Custody.ofScopes_holds (P := fun s => a ∉ (s.table id).names) hlacks₀
  refine (Custody.ofScopes_kept.occurs (fun d t₁ m₁ fs hocc => Custody.ofScopes_admits ?_ ?_ ?_)
    hstart hts h').1.machine hgains
  · -- A new scope is either another one, or has been there when the name was not.
    intro c hopens hs hmem
    have hnew : (m₁.inScope c t₁.table).scopes = m₁.scopes.push t₁.table := rfl
    have hover {m₂ : Machine} (hm₂ : (m₁.inScope c t₁.table).Precedes m₂) :
        a ∈ (m₂.scopes.table id).names := (hm₂.names id).subset (hnew ▸ hmem)
    have hnext : id = m₁.scopes.next := by
      by_contra hne
      rw [Scopes.table_push_of_ne hne] at hmem
      exact hs hmem
    cases hocc.inside_or_apart h with
    | inside hinside =>
      obtain ⟨-, -, rfl, -⟩ | ⟨d', t₂, m₂, _, hd, hstarts, hrest, -⟩ := hinside.eq_or_starts
      · exact absurd hnext (Nat.ne_of_lt hid)
      · obtain rfl := Nat.succ.inj hd
        exact hlacks (hover ((hopens.precedes_starts hstarts).trans hrest.precedes))
    | around haround =>
      exact absurd hnext (Nat.ne_of_lt (Nat.lt_of_lt_of_le hid haround.precedes.scopes))
    | before hbefore => exact hlacks (hover (hopens.precedes_after.trans hbefore))
    | behind hbehind =>
      have hm := (Engine.ofDepth_progresses host depth).precedes_after t m
      exact absurd hnext (Nat.ne_of_lt (Nat.lt_of_lt_of_le hid (hm.trans hbehind).scopes))
  · intro name value m₂ v id' _ _ howner hs
    rwa [Scopes.names_assign howner]
  · rintro n b m₂ m₃ v rfl hname hm₂ hend hdefine hs hmem
    rw [hdefine] at hmem
    by_cases hhere : id = m₁.scope.here
    · obtain rfl : a = b := by
        rw [Scopes.table_define] at hmem
        split at hmem
        · exact (Table.mem_names_set.mp hmem).resolve_right (hhere ▸ hs)
        · exact absurd hmem hs
      have hlacks₁ : a ∉ (m₁.scopes.table id).names := fun hmem =>
        hs ((hm₂.names id).subset hmem)
      have hgains₁ : a ∈ ((endState ((Engine.ofDepth host (d + 1)).execute n m₁)).scopes.table
          id).names := by
        rw [hend, endState, hdefine]
        exact hmem
      exact hnone ⟨d, n, m₁, fs, hocc, hname, hhere.symm, hlacks₁, hgains₁⟩
    · rw [Scopes.table_define_of_ne hhere] at hmem
      exact hs hmem

/-- If it is missing when one call begins and there when another one does, it has been added in
between. -/
theorem Occurs.exists_adds_between (hts : ∀ t ∈ ts, t.IsOuter)
    (h : Occurs host (.fresh host.natives) ts depth t m frames)
    (h' : Occurs host (.fresh host.natives) ts depth' t' m' frames')
    (ht : ∀ n, t ≠ .execute n) (ht' : ∀ n, t' ≠ .execute n)
    (hid : id < m.scopes.next) (hid' : id < m'.scopes.next)
    (hlacks : a ∉ (m.scopes.table id).names) (hgains : a ∈ (m'.scopes.table id).names) :
    ∃ d n m₁ fs, Occurs host (.fresh host.natives) ts (d + 1) (.execute n) m₁ fs ∧
      Adds host d n m₁ a id ∧
      m.Precedes (endState ((Engine.ofDepth host (d + 1)).execute n m₁)) ∧
      (endState ((Engine.ofDepth host (d + 1)).execute n m₁)).Precedes m' := by
  obtain ⟨d, n, m₁, fs, hocc, hadds⟩ := h.exists_adds hts h' hid hlacks hgains
  have hover (depth : Nat) (t : Task) (m : Machine) :
      m.Precedes ((Engine.ofDepth host depth).after t m) :=
    (Engine.ofDepth_progresses host depth).precedes_after t m
  refine ⟨d, n, m₁, fs, hocc, hadds, ?_, ?_⟩
  · cases h.inside_or_apart hocc with
    | inside hinside =>
      have hge := hinside.next_le_here ht rfl
      exact absurd (hadds.here ▸ hge) (Nat.not_le_of_lt hid)
    | around haround => exact (hover depth t m).trans haround.precedes_after
    | before hbefore =>
      exact (hover depth t m).trans (hbefore.trans (hover (d + 1) (.execute n) m₁))
    | behind hbehind => exact absurd ((hbehind.names id).subset hadds.gains) hlacks
  · cases h'.inside_or_apart hocc with
    | inside hinside =>
      have hge := hinside.next_le_here ht' rfl
      exact absurd (hadds.here ▸ hge) (Nat.not_le_of_lt hid')
    | around haround =>
      obtain ⟨-, hn, -, -⟩ | ⟨d', t₂, m₂, _, hd, hstarts, hrest, -⟩ := haround.eq_or_starts
      · exact absurd hn.symm (ht' n)
      · -- The expression whose value the variable gets adds no name to a scope that was there.
        obtain ⟨rfl, ht₂⟩ := hadds.starts_evaluate hstarts
        obtain ⟨parent, declared, hrecords⟩ := Records.exists host (.fresh host.natives) ts
        have hhere := (hrecords.occurs hts hocc).1.chain.lt
        have hsame := hrest.sameNames ht₂ id (hadds.here ▸ hhere) nofun
        exact absurd (hsame ▸ hgains) hadds.lacks
    | before hbefore =>
      exact absurd ((((hover depth' t' m').trans hbefore).names id).subset hgains) hadds.lacks
    | behind hbehind => exact hbehind

end Between

/-! ### Calls of one function -/

/-- In a call the body of a function looks up or assigns a name and finds it in a scope that was
there when the call began. -/
def Refers (host : Host) (ts : List Task) (frame : Frame) (a : String) (id : ScopeId) : Prop :=
  ∃ depth t m frames, Occurs host (.fresh host.natives) ts (depth + 1) t m (frame :: frames) ∧
    Resolves host depth t m a id ∧ id < frame.machine.scopes.next

/-- Between two points of a life a name has been added by a declaration to a scope of a chain that
lies inside another one. -/
structure Moves (host : Host) (ts : List Task) (a : String) (c : Chain) (m m' : Machine)
    (id id' : ScopeId) : Prop where
  lt : id < id'
  mem : id' ∈ c.scopes
  adds : ∃ d n m₁ frames, Occurs host (.fresh host.natives) ts (d + 1) (.execute n) m₁ frames ∧
    Adds host d n m₁ a id' ∧
    m.Precedes (endState ((Engine.ofDepth host (d + 1)).execute n m₁)) ∧
    (endState ((Engine.ofDepth host (d + 1)).execute n m₁)).Precedes m'

section Calls

variable {host : Host} {ts : List Task} {frame frame' : Frame} {a : String} {id id' : ScopeId}

theorem Occurs.innermost {m₀ : Machine} {depth : Nat} {t : Task} {m : Machine}
    {frames : List Frame} (h : Occurs host m₀ ts depth t m (frame :: frames)) :
    Occurs host m₀ ts frame.depth frame.task frame.machine frames ∧
      Performs host frame.depth frame.task frame.machine depth t m [frame] := by
  obtain ⟨before, t₀, after, hts, hperforms⟩ := h
  obtain ⟨houter, hinner⟩ := hperforms.innermost
  exact ⟨⟨before, t₀, after, hts, houter⟩, hinner⟩

/-- A function that is called has been declared in scopes that were there, the inner ones made
later than the outer ones. -/
theorem Occurs.scopes_of_call (hts : ∀ t ∈ ts, t.IsOuter) {frames : List Frame}
    (h : Occurs host (.fresh host.natives) ts frame.depth frame.task frame.machine frames) :
    (∀ id ∈ frame.callee.scope.scopes, id < frame.machine.scopes.next) ∧
      frame.callee.scope.scopes.Pairwise (· > ·) := by
  obtain ⟨parent, declared, hrecords⟩ := Records.exists host (.fresh host.natives) ts
  have hlt := hrecords.parent_lt hts
  have hrooted : frame.callee.scope.Rooted parent frame.machine :=
    (hrecords.occurs hts h).2.1.rooted
  refine ⟨fun id hid => ?_, hrooted.follows.pairwise hlt⟩
  exact Nat.lt_of_le_of_lt (hrooted.follows.le_here hlt id hid) hrooted.lt

theorem Refers.owner?_eq (hts : ∀ t ∈ ts, t.IsOuter) (h : Refers host ts frame a id) :
    frame.machine.scopes.owner? frame.callee.scope a = some id := by
  obtain ⟨depth, t, m, frames, hocc, hres, hid⟩ := h
  obtain ⟨hcall, hbody⟩ := hocc.innermost
  exact hbody.owner?_eq (hcall.scopes_of_call hts).1 hres hid

/-- What a name means moves to a scope further inside, or stays where it is. -/
theorem Refers.eq_or_moves (hts : ∀ t ∈ ts, t.IsOuter) (h : Refers host ts frame a id)
    (h' : Refers host ts frame' a id') (hcallee : frame'.callee = frame.callee)
    (hover : frame.machine.Precedes frame'.machine) :
    id' = id ∨
      Moves host ts a frame.callee.scope frame.machine frame'.machine id id' := by
  have howner := h.owner?_eq hts
  have howner' := h'.owner?_eq hts
  rw [hcallee] at howner'
  obtain ⟨depth, t, m, frames, hocc, -, hid⟩ := h
  obtain ⟨depth', t', m', frames', hocc', -, hid'⟩ := h'
  obtain ⟨hcall, -⟩ := hocc.innermost
  obtain ⟨hcall', -⟩ := hocc'.innermost
  obtain ⟨hbound, hdecreasing⟩ := hcall.scopes_of_call hts
  have hgains := Scopes.owner?_eq_some howner'
  obtain ⟨-, front, back, hscopes, hfront⟩ := List.find?_eq_some_iff_append.mp howner
  obtain ⟨-, front', back', hscopes', hfront'⟩ := List.find?_eq_some_iff_append.mp howner'
  obtain ⟨-, rfl⟩ | ⟨rest, rfl⟩ | ⟨rest, rfl⟩ :=
    eq_or_append_of_append_eq (hscopes.symm.trans hscopes')
  · exact .inl rfl
  · -- The scope that the name was found in has not lost it.
    have hstill := (hover.names id).subset (Scopes.owner?_eq_some howner)
    have hnot := hfront' id (by simp)
    rw [Bool.not_eq_true', ← Bool.not_eq_true] at hnot
    exact absurd (Table.isSome_get?_iff.mpr hstill) hnot
  · refine .inr ⟨?_, by rw [hscopes']; simp, ?_⟩
    · rw [hscopes] at hdecreasing
      exact (List.pairwise_append.mp hdecreasing).2.2 id' (by simp) id (by simp)
    · have hnot := hfront id' (by simp)
      rw [Bool.not_eq_true', ← Bool.not_eq_true] at hnot
      have hmem : id' ∈ frame.callee.scope.scopes := by rw [hscopes']; simp
      have hlacks : a ∉ (frame.machine.scopes.table id').names := fun hmem =>
        hnot (Table.isSome_get?_iff.mpr hmem)
      exact hcall.exists_adds_between hts hcall' nofun nofun (hbound id' hmem) hid' hlacks hgains

end Calls

/-- What is meant by a name in the body of a function that is no name of the call's own. It is what
was meant by it, from where the function has been declared, when the call began: this holds for all
lookups and assignments of the call that find a variable, whatever is executed in between. In two
calls of one function the same variable is meant, unless between the beginnings of the calls a
declaration has added the name to a scope that the function was declared in, further inside than the
variable; in the later call the variable of that scope is meant. -/
theorem binding_moves_inward (host : Host) (ts : List Task) (hts : ∀ t ∈ ts, t.IsOuter) :
    (∀ frame a id, Refers host ts frame a id →
      frame.machine.scopes.owner? frame.callee.scope a = some id) ∧
    ∀ frame frame' a id id', Refers host ts frame a id → Refers host ts frame' a id' →
      frame'.callee = frame.callee →
      id' = id ∨ Moves host ts a frame.callee.scope frame.machine frame'.machine id id' ∨
        Moves host ts a frame.callee.scope frame'.machine frame.machine id' id := by
  refine ⟨fun frame a id h => h.owner?_eq hts, fun frame frame' a id id' h h' hcallee => ?_⟩
  have hahead (hover : frame.machine.Precedes frame'.machine) :
      id' = id ∨ Moves host ts a frame.callee.scope frame.machine frame'.machine id id' ∨
        Moves host ts a frame.callee.scope frame'.machine frame.machine id' id :=
    (h.eq_or_moves hts h' hcallee hover).imp_right Or.inl
  have hbehind (hover : frame'.machine.Precedes frame.machine) :
      id' = id ∨ Moves host ts a frame.callee.scope frame.machine frame'.machine id id' ∨
        Moves host ts a frame.callee.scope frame'.machine frame.machine id' id := by
    have hmoves := h'.eq_or_moves hts h hcallee.symm hover
    rw [hcallee] at hmoves
    exact hmoves.imp Eq.symm Or.inr
  obtain ⟨depth, t, m, frames, hocc, -, -⟩ := h
  obtain ⟨depth', t', m', frames', hocc', -, -⟩ := h'
  have hprogress (depth : Nat) (t : Task) (m : Machine) :=
    (Engine.ofDepth_progresses host depth).precedes_after t m
  cases hocc.innermost.1.inside_or_apart hocc'.innermost.1 with
  | inside hinside => exact hahead hinside.precedes
  | around haround => exact hbehind haround.precedes
  | before hover => exact hahead ((hprogress _ _ _).trans hover)
  | behind hover => exact hbehind ((hprogress _ _ _).trans hover)

namespace Redeclared

/-- A function is called before and after a variable is declared beside it that has the name of a
global one. -/
def source : String :=
  "var a = \"global\"; \x7b fun f() \x7b print a; \x7d f(); var a = \"block\"; f(); \x7d"

/-- A host without functions of its own. -/
def host : Host := ⟨[], 12, 5⟩

def word (kind : Kind) (lexeme : String) : Token := ⟨kind, lexeme, .nil, 1⟩

/-- The statement `var a = text;`. -/
def definition (text : String) : Node :=
  .declare (word .identifier "a") (some (.literal (.string text)))

/-- The declaration of a function that prints the variable. -/
def declaration : Node :=
  .function (word .identifier "f") [] [.print (.reference (word .identifier "a"))]

/-- The statement `f();`. -/
def use : Node :=
  .expression (.call (.reference (word .identifier "f")) (word .rightParen ")") [])

/-- The block of the text. -/
def scene : Node := .block [declaration, use, definition "block", use]

/-- What is executed when the text is run. -/
def life : List Task := [.execute (definition "global"), .execute scene]

theorem isOuter_of_life : ∀ t ∈ life, t.IsOuter := by simp [life, Task.IsOuter]

/-- The machine in which the block is executed. -/
def machine : Machine := host.engine.after (.execute (definition "global")) (.fresh host.natives)

/-- The first call prints the global variable, the second one the variable of the block. -/
theorem refers_of_life :
    ∃ frame frame', Refers host life frame "a" 0 ∧ Refers host life frame' "a" 1 ∧
      frame'.callee = frame.callee := by
  have hfirst : Performs host 12 (.execute scene) machine 11 (.execute use) _ [] :=
    Performs.self.inside (.inBlock [declaration] rfl)
  have hsecond : Performs host 12 (.execute scene) machine 11 (.execute use) _ [] :=
    Performs.self.inside (.inBlock [declaration, use, definition "block"] rfl)
  have hcall := (hfirst.inside .expression).inside (.call rfl rfl rfl rfl)
  have hcall' := (hsecond.inside .expression).inside (.call rfl rfl rfl rfl)
  have hprint := (hcall.inside (.body [] rfl rfl)).inside .print
  have hprint' := (hcall'.inside (.body [] rfl rfl)).inside .print
  have hscene : life = [.execute (definition "global")] ++ .execute scene :: [] := rfl
  refine ⟨_, _, ⟨_, _, _, _, ⟨_, _, _, hscene, hprint⟩, .lookup rfl, by decide⟩,
    ⟨_, _, _, _, ⟨_, _, _, hscene, hprint'⟩, .lookup rfl, by decide⟩, rfl⟩

/-- So what the function means by the name is not the same in all of its calls, as its output shows
when the text is run. -/
theorem not_binding_stable :
    (Session.obey host [.program source] (.fresh host .quiet .unset)).machine.output
        = "global\nblock\n" ∧
      ¬ ∀ frame frame' a id id', Refers host life frame a id → Refers host life frame' a id' →
        frame'.callee = frame.callee → id' = id := by
  refine ⟨by decide +kernel, fun hstable => ?_⟩
  obtain ⟨frame, frame', h, h', hcallee⟩ := refers_of_life
  exact absurd (hstable frame frame' "a" 0 1 h h' hcallee) Nat.one_ne_zero

/-- The declaration in the block has moved it. -/
theorem binding_moves_inward_redeclared :
    (∀ t ∈ life, t.IsOuter) ∧ ∃ frame frame', Refers host life frame "a" 0 ∧
      Refers host life frame' "a" 1 ∧
      Moves host life "a" frame.callee.scope frame.machine frame'.machine 0 1 := by
  obtain ⟨frame, frame', h, h', hcallee⟩ := refers_of_life
  refine ⟨isOuter_of_life, frame, frame', h, h', ?_⟩
  obtain heq | hmoves | hmoves :=
    (binding_moves_inward host life isOuter_of_life).2 frame frame' "a" 0 1 h h' hcallee
  · exact absurd heq Nat.one_ne_zero
  · exact hmoves
  · exact absurd hmoves.lt (Nat.not_lt_zero 1)

end Redeclared

end Lox
