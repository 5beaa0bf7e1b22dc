import Lox.Proofs.Execution.Simulation
import Mathlib.Logic.Relator

/-!
# Two runs with other numbers

Scopes are numbered in the order of creation, and identities are given out in turn. Neither number
is seen by a program, so that two runs may differ in them. A renaming says which scopes and
identities of the one run are those of the other; it grows as both runs make new ones. Scopes that
it does not mention are not touched by either run.

A literal of a tree may carry the identity of a number that has been computed before. Such trees are
not read from texts, but they can be executed as well, provided the identity is that of the same
number on both sides.

## Main definitions

* `Renaming`: which scopes and identities correspond.
* `Renaming.Stores`: stores that are alike by a renaming.
* `Renaming.Since`: what two runs have done to their stores.

## Main results

* `Renaming.lawful`: the steps of the machine keep stores alike, print the same, and leave all
  other scopes as they are.
-/

namespace Lox

/-! ### Computed numbers in trees -/

namespace Node

mutual

/-- The identities of computed numbers that the literals of a tree carry. -/
def stamps : Node → List Nat
  | literal (.number ⟨_, .computed stamp⟩) => [stamp]
  | literal _ | reference _ | declare _ none | returning _ none | stray _ | absent => []
  | grouping n | unary _ n | assign _ n | expression n | print n | declare _ (some n)
  | returning _ (some n) => stamps n
  | binary l _ r | logical l _ r => stamps l ++ stamps r
  | ternary c _ t e => stamps c ++ (stamps t ++ stamps e)
  | call c _ ns => stamps c ++ stampsAll ns
  | block ns | function _ _ ns => stampsAll ns
  | branch c t none => stamps c ++ stamps t
  | branch c t (some e) => stamps c ++ (stamps t ++ stamps e)
  | loop c n => stamps c ++ stamps n

/-- The identities that the literals of some trees carry. -/
def stampsAll : List Node → List Nat
  | [] => []
  | n :: ns => stamps n ++ stampsAll ns

end

theorem mem_stampsAll {ns : List Node} {stamp : Nat} :
    stamp ∈ stampsAll ns ↔ ∃ n ∈ ns, stamp ∈ n.stamps := by
  induction ns with
  | nil => simp [stampsAll]
  | cons n ns ih => simp [stampsAll, ih]

end Node

/-! ### Renamings -/

/-- Which scopes and which identities of two runs correspond; none corresponds to two. -/
structure Renaming where
  scopes : ScopeId → ScopeId → Prop
  identities : Nat → Nat → Prop
  scopes_unique : Relator.BiUnique scopes
  identities_unique : Relator.BiUnique identities

namespace Renaming

instance : Preorder Renaming where
  le ρ ρ' := (∀ id id', ρ.scopes id id' → ρ'.scopes id id') ∧
    ∀ i i', ρ.identities i i' → ρ'.identities i i'
  le_refl _ := ⟨fun _ _ => id, fun _ _ => id⟩
  le_trans _ _ _ h h' :=
    ⟨fun _ _ hid => h'.1 _ _ (h.1 _ _ hid), fun _ _ hi => h'.2 _ _ (h.2 _ _ hi)⟩

/-- A relation with one further pair. -/
def WithPair (R : Nat → Nat → Prop) (i i' j j' : Nat) : Prop := R j j' ∨ j = i ∧ j' = i'

theorem biUnique_withPair {R : Nat → Nat → Prop} (h : Relator.BiUnique R) {i i' : Nat}
    (hfresh : ∀ {j j'}, R j j' → j ≠ i ∧ j' ≠ i') : Relator.BiUnique (WithPair R i i') := by
  constructor
  · rintro j k l (hj | ⟨rfl, rfl⟩) (hk | ⟨hk, hl⟩)
    · exact h.1 hj hk
    · exact absurd hl (hfresh hj).2
    · exact absurd rfl (hfresh hk).2
    · exact hk.symm
  · rintro j k l (hk | ⟨rfl, rfl⟩) (hl | ⟨hj, hl⟩)
    · exact h.2 hk hl
    · exact absurd hj (hfresh hk).1
    · exact absurd rfl (hfresh hl).1
    · exact hl.symm

/-- Everything corresponds that is the same but for the numbers of scopes and identities. -/
def likeness : Likeness Renaming where
  chain ρ c c' := List.Forall₂ ρ.scopes c.scopes c'.scopes
  identity ρ := ρ.identities
  spelling := Eq
  blame := Eq
  cause := Eq
  expression ρ n n' := n = n' ∧ ∀ stamp ∈ n.stamps, ρ.identities stamp stamp
  statement ρ n n' := n = n' ∧ ∀ stamp ∈ n.stamps, ρ.identities stamp stamp

theorem eq_iff_eq {R : Nat → Nat → Prop} (h : Relator.BiUnique R) {i i' j j' : Nat} (hi : R i i')
    (hj : R j j') : i = j ↔ i' = j' := by
  constructor
  · rintro rfl
    exact h.2 hi hj
  · rintro rfl
    exact h.1 hi hj

theorem likeness_faithful : likeness.Faithful where
  spelling ha hb := by rw [show _ = _ from ha, show _ = _ from hb]
  identity {ρ _ _ _ _} hi hj := eq_iff_eq ρ.identities_unique hi hj

theorem likeness_mono {ρ ρ' : Renaming} (h : ρ ≤ ρ') : likeness.Extends ρ ρ' where
  chain hc := hc.imp h.1
  identity hi := h.2 _ _ hi
  expression hn := ⟨hn.1, fun stamp hstamp => h.2 _ _ (hn.2 stamp hstamp)⟩
  statement hn := ⟨hn.1, fun stamp hstamp => h.2 _ _ (hn.2 stamp hstamp)⟩

/-! ### Trees -/

section Trees

variable {ρ : Renaming}

theorem forall₂_same {ns : List Node} (h : ∀ stamp ∈ Node.stampsAll ns, ρ.identities stamp stamp) :
    List.Forall₂ (likeness.statement ρ) ns ns :=
  List.forall₂_same.mpr fun _ hn =>
    ⟨rfl, fun _ hstamp => h _ (Node.mem_stampsAll.mpr ⟨_, hn, hstamp⟩)⟩

/-- A tree corresponds to itself if the identities it carries do. -/
theorem expressions {n : Node} (h : ∀ stamp ∈ n.stamps, ρ.identities stamp stamp) :
    likeness.Expressions ρ n n := by
  have hpart {m : Node} (hm : m.stamps ⊆ n.stamps) : likeness.expression ρ m m :=
    ⟨rfl, fun stamp hstamp => h stamp (hm hstamp)⟩
  cases n with
  | literal l =>
    refine .literal (.literal (fun x stamp hl => ?_) fun _ => rfl)
    exact h stamp (by simp [hl, Node.stamps])
  | grouping inner => exact .grouping (hpart (by simp [Node.stamps]))
  | unary op operand =>
    exact .unary ⟨rfl, rfl, rfl⟩ (fun _ _ _ => rfl) (hpart (by simp [Node.stamps]))
  | binary l op r =>
    exact .binary (hpart (by simp [Node.stamps])) ⟨rfl, rfl, rfl⟩ (fun _ _ _ _ => rfl)
      (hpart (by simp [Node.stamps]))
  | logical l op r =>
    exact .logical (hpart (by simp [Node.stamps])) rfl (hpart (by simp [Node.stamps]))
  | ternary c question t e =>
    refine .ternary (hpart ?_) (hpart ?_) (hpart ?_) <;> intro stamp <;> simp_all [Node.stamps]
  | reference name => exact .reference ⟨rfl, rfl⟩
  | assign name value => exact .assign ⟨rfl, rfl⟩ (hpart (by simp [Node.stamps]))
  | call callee paren ns =>
    refine .call (hpart (by simp [Node.stamps])) rfl (forall₂_same fun stamp hstamp => ?_)
    exact h stamp (by simp [Node.stamps, hstamp])
  | _ => exact .other rfl rfl rfl

theorem statements {n : Node} (h : ∀ stamp ∈ n.stamps, ρ.identities stamp stamp) :
    likeness.Statements ρ n n := by
  have hpart {m : Node} (hm : m.stamps ⊆ n.stamps) : likeness.statement ρ m m :=
    ⟨rfl, fun stamp hstamp => h stamp (hm hstamp)⟩
  cases n with
  | expression inner => exact .expression (hpart (by simp [Node.stamps]))
  | print inner => exact .print (hpart (by simp [Node.stamps]))
  | declare name initializer =>
    cases initializer with
    | none => exact .declare ⟨rfl, rfl⟩ .none
    | some e => exact .declare ⟨rfl, rfl⟩ (.some (hpart (by simp [Node.stamps])))
  | block ns => exact .block (forall₂_same (by simpa only [Node.stamps] using h))
  | branch c t e =>
    cases e with
    | none =>
      exact .branch (hpart (by simp [Node.stamps])) (hpart (by simp [Node.stamps])) .none
    | some e =>
      refine .branch (hpart ?_) (hpart ?_) (.some (hpart ?_)) <;> intro stamp <;>
        simp_all [Node.stamps]
  | loop c body => exact .loop (hpart (by simp [Node.stamps])) (hpart (by simp [Node.stamps]))
  | function name params body =>
    exact .function ⟨rfl, rfl⟩ rfl (List.forall₂_same.mpr fun _ _ => ⟨rfl, rfl⟩)
      (forall₂_same (by simpa only [Node.stamps] using h))
  | returning keyword value =>
    cases value with
    | none => exact .returning rfl .none
    | some e => exact .returning rfl (.some (hpart (by simp [Node.stamps])))
  | _ => exact .other rfl rfl rfl

end Trees

/-! ### Stores -/

/-- Stores that are alike by a renaming: it mentions no scopes and identities that are yet to be
made, scopes that correspond hold what corresponds, and the same has been noted. -/
structure Stores (ρ : Renaming) (s s' : Store) : Prop where
  scopes_lt {id id' : ScopeId} :
    ρ.scopes id id' → id < s.scopes.next ∧ id' < s'.scopes.next
  identities_lt {i i' : Nat} : ρ.identities i i' → i < s.nextIdentity ∧ i' < s'.nextIdentity
  tables {id id' : ScopeId} :
    ρ.scopes id id' → likeness.Tables ρ (s.scopes.table id) (s'.scopes.table id')
  notes : s.notes = s'.notes

namespace Stores

variable {ρ : Renaming} {s s' : Store}

theorem local? (h : ρ.Stores s s') {id id' : ScopeId} (hid : ρ.scopes id id') (a : String) :
    Option.Rel (likeness.Values ρ) (s.scopes.local? id a) (s'.scopes.local? id' a) :=
  (h.tables hid).get? likeness_faithful rfl

/-- A name is found in corresponding scopes of two chains. -/
theorem owner? (h : ρ.Stores s s') {c c' : Chain} (hc : List.Forall₂ ρ.scopes c.scopes c'.scopes)
    (a : String) : Option.Rel ρ.scopes (s.scopes.owner? c a) (s'.scopes.owner? c' a) :=
  Scopes.owner?_rel (fun hid => h.local? hid a) hc

theorem get? (h : ρ.Stores s s') {c c' : Chain} (hc : List.Forall₂ ρ.scopes c.scopes c'.scopes)
    (a : String) :
    Option.Rel (likeness.Values ρ) (s.scopes.get? c a) (s'.scopes.get? c' a) :=
  Scopes.get?_rel (fun hid => h.local? hid a) hc

theorem define (h : ρ.Stores s s') {id id' : ScopeId} (hid : ρ.scopes id id') (a : String)
    {v v' : Value} (hv : likeness.Values ρ v v') :
    ρ.Stores (s.define id a v) (s'.define id' a v') where
  scopes_lt hj := by
    simpa only [Store.define, Scopes.next_define] using h.scopes_lt hj
  identities_lt hi := h.identities_lt hi
  tables {j j'} hj := by
    have hlt := h.scopes_lt hid
    have hsame : j = id ↔ j' = id' := eq_iff_eq ρ.scopes_unique hj hid
    simp only [Store.define, Scopes.table_define, hlt.1, hlt.2, and_true, hsame]
    split
    · exact (h.tables hid).set likeness_faithful rfl hv
    · exact h.tables hj
  notes := h.notes

end Stores

/-- The renaming with a further pair of scopes, the next ones of two stores. -/
def withScope (ρ : Renaming) {s s' : Store} (h : ρ.Stores s s') : Renaming where
  scopes := WithPair ρ.scopes s.scopes.next s'.scopes.next
  identities := ρ.identities
  scopes_unique := biUnique_withPair ρ.scopes_unique fun hj =>
    ⟨Nat.ne_of_lt (h.scopes_lt hj).1, Nat.ne_of_lt (h.scopes_lt hj).2⟩
  identities_unique := ρ.identities_unique

/-- The renaming with a further pair of identities, the next ones of two stores. -/
def withIdentity (ρ : Renaming) {s s' : Store} (h : ρ.Stores s s') : Renaming where
  scopes := ρ.scopes
  identities := WithPair ρ.identities s.nextIdentity s'.nextIdentity
  scopes_unique := ρ.scopes_unique
  identities_unique := biUnique_withPair ρ.identities_unique fun hi =>
    ⟨Nat.ne_of_lt (h.identities_lt hi).1, Nat.ne_of_lt (h.identities_lt hi).2⟩

section Further

variable {ρ : Renaming} {s s' : Store} (h : ρ.Stores s s')

theorem le_withScope : ρ ≤ ρ.withScope h := ⟨fun _ _ => .inl, fun _ _ => id⟩

theorem le_withIdentity : ρ ≤ ρ.withIdentity h := ⟨fun _ _ => id, fun _ _ => .inl⟩

theorem tables_mono {ρ' : Renaming} (hρ : ρ ≤ ρ') {t t' : Table} (ht : likeness.Tables ρ t t') :
    likeness.Tables ρ' t t' :=
  ht.imp fun _ _ hb => ⟨hb.1, hb.2.mono (likeness_mono hρ)⟩

theorem Stores.push {t t' : Table} (ht : likeness.Tables ρ t t') :
    (ρ.withScope h).Stores (s.push t) (s'.push t') where
  scopes_lt := by
    simp only [Store.push, Scopes.next_push]
    rintro id id' (hid | ⟨rfl, rfl⟩)
    · exact (h.scopes_lt hid).imp Nat.lt_succ_of_lt Nat.lt_succ_of_lt
    · exact ⟨Nat.lt_succ_self _, Nat.lt_succ_self _⟩
  identities_lt hi := h.identities_lt hi
  tables := by
    simp only [Store.push]
    rintro id id' (hid | ⟨rfl, rfl⟩)
    · have hlt := h.scopes_lt hid
      rw [Scopes.table_push_of_ne (Nat.ne_of_lt hlt.1),
        Scopes.table_push_of_ne (Nat.ne_of_lt hlt.2)]
      exact tables_mono (le_withScope h) (h.tables hid)
    · rw [Scopes.table_push_next, Scopes.table_push_next]
      exact tables_mono (le_withScope h) ht
  notes := h.notes

theorem Stores.identify : (ρ.withIdentity h).Stores s.identify s'.identify where
  scopes_lt hid := h.scopes_lt hid
  identities_lt := by
    rintro i i' (hi | ⟨rfl, rfl⟩)
    · exact (h.identities_lt hi).imp Nat.lt_succ_of_lt Nat.lt_succ_of_lt
    · exact ⟨Nat.lt_succ_self _, Nat.lt_succ_self _⟩
  tables hid := tables_mono (le_withIdentity h) (h.tables hid)
  notes := h.notes

end Further

/-! ### The other way round -/

/-- The renaming from the second run to the first. -/
def swap (ρ : Renaming) : Renaming where
  scopes id id' := ρ.scopes id' id
  identities i i' := ρ.identities i' i
  scopes_unique :=
    ⟨fun _ _ _ h h' => ρ.scopes_unique.2 h h', fun _ _ _ h h' => ρ.scopes_unique.1 h h'⟩
  identities_unique :=
    ⟨fun _ _ _ h h' => ρ.identities_unique.2 h h', fun _ _ _ h h' => ρ.identities_unique.1 h h'⟩

section Swap

variable {ρ : Renaming}

theorem values_swap {v v' : Value} (h : likeness.Values ρ v v') : likeness.Values ρ.swap v' v := by
  cases h with
  | nil => exact .nil
  | bool b => exact .bool b
  | number x ho =>
    cases ho with
    | plain => exact .number x .plain
    | literal index => exact .number x (.literal index)
    | computed hi => exact .number x (.computed hi)
  | string s => exact .string s
  | native index => exact .native index
  | function hf =>
    refine .function ⟨hf.identity, hf.text.symm, hf.name.symm, ?_, ?_, hf.scope.flip⟩
    · exact (hf.params.imp fun t t' ht => ⟨ht.spelling.symm, ht.blame.symm⟩).flip
    · refine (hf.body.imp fun n n' hn => ?_).flip
      obtain ⟨rfl, hstamps⟩ := hn
      exact ⟨rfl, hstamps⟩

theorem tables_swap {t t' : Table} (h : likeness.Tables ρ t t') : likeness.Tables ρ.swap t' t :=
  List.Forall₂.flip (h.imp fun _ _ hb => ⟨hb.1.symm, values_swap hb.2⟩)

theorem Stores.swap {s s' : Store} (h : ρ.Stores s s') : ρ.swap.Stores s' s where
  scopes_lt hid := (h.scopes_lt hid).symm
  identities_lt hi := (h.identities_lt hi).symm
  tables hid := tables_swap (h.tables hid)
  notes := h.notes.symm

end Swap

/-! ### What two runs have done -/

/-- What two runs, begun in stores that are alike by one renaming, have done to their stores when
another renaming has been reached: it goes on from the first with new scopes and identities on both
sides, the same has been printed, and the scopes that were there but are not mentioned hold what
they held. -/
structure Since (ρ₀ : Renaming) (s₀ s₀' : Store) (ρ : Renaming) (s s' : Store) : Prop where
  le : ρ₀ ≤ ρ
  scopes_new {id id' : ScopeId} :
    ρ.scopes id id' → ρ₀.scopes id id' ∨ s₀.scopes.next ≤ id ∧ s₀'.scopes.next ≤ id'
  identities_new {i i' : Nat} :
    ρ.identities i i' → ρ₀.identities i i' ∨ s₀.nextIdentity ≤ i ∧ s₀'.nextIdentity ≤ i'
  next_le : s₀.scopes.next ≤ s.scopes.next ∧ s₀'.scopes.next ≤ s'.scopes.next
  nextIdentity_le : s₀.nextIdentity ≤ s.nextIdentity ∧ s₀'.nextIdentity ≤ s'.nextIdentity
  output : ∃ text, s.output = s₀.output ++ text ∧ s'.output = s₀'.output ++ text
  kept_left {id : ScopeId} : id < s₀.scopes.next → (∀ id', ¬ ρ₀.scopes id id') →
    s.scopes.table id = s₀.scopes.table id
  kept_right {id' : ScopeId} : id' < s₀'.scopes.next → (∀ id, ¬ ρ₀.scopes id id') →
    s'.scopes.table id' = s₀'.scopes.table id'

namespace Since

variable {ρ₀ ρ : Renaming} {s₀ s₀' s s' : Store}

theorem refl (ρ : Renaming) (s s' : Store) : ρ.Since s s' ρ s s' where
  le := le_rfl
  scopes_new := .inl
  identities_new := .inl
  next_le := ⟨Nat.le_refl _, Nat.le_refl _⟩
  nextIdentity_le := ⟨Nat.le_refl _, Nat.le_refl _⟩
  output := ⟨"", by simp⟩
  kept_left _ _ := rfl
  kept_right _ _ := rfl

/-- Names are defined in scopes that are mentioned. -/
theorem define (h : ρ₀.Since s₀ s₀' ρ s s') {id id' : ScopeId} (hid : ρ.scopes id id') (a : String)
    (v v' : Value) : ρ₀.Since s₀ s₀' ρ (s.define id a v) (s'.define id' a v') where
  le := h.le
  scopes_new := h.scopes_new
  identities_new := h.identities_new
  next_le := by simpa only [Store.define, Scopes.next_define] using h.next_le
  nextIdentity_le := h.nextIdentity_le
  output := h.output
  kept_left {j} hj hnot := by
    have hne : j ≠ id := by
      rintro rfl
      exact (h.scopes_new hid).elim (hnot _) fun hle => Nat.not_le_of_lt hj hle.1
    exact (Scopes.table_define_of_ne hne _ _ _).trans (h.kept_left hj hnot)
  kept_right {j} hj hnot := by
    have hne : j ≠ id' := by
      rintro rfl
      exact (h.scopes_new hid).elim (hnot _) fun hle => Nat.not_le_of_lt hj hle.2
    exact (Scopes.table_define_of_ne hne _ _ _).trans (h.kept_right hj hnot)

theorem push (h : ρ₀.Since s₀ s₀' ρ s s') (hs : ρ.Stores s s') (t t' : Table) :
    ρ₀.Since s₀ s₀' (ρ.withScope hs) (s.push t) (s'.push t') where
  le := h.le.trans (le_withScope hs)
  scopes_new := by
    rintro id id' (hid | ⟨rfl, rfl⟩)
    · exact h.scopes_new hid
    · exact .inr h.next_le
  identities_new := h.identities_new
  next_le := by
    simp only [Store.push, Scopes.next_push]
    exact h.next_le.imp Nat.le_succ_of_le Nat.le_succ_of_le
  nextIdentity_le := h.nextIdentity_le
  output := h.output
  kept_left {j} hj hnot := by
    have hne : j ≠ s.scopes.next := Nat.ne_of_lt (Nat.lt_of_lt_of_le hj h.next_le.1)
    exact (Scopes.table_push_of_ne hne t).trans (h.kept_left hj hnot)
  kept_right {j} hj hnot := by
    have hne : j ≠ s'.scopes.next := Nat.ne_of_lt (Nat.lt_of_lt_of_le hj h.next_le.2)
    exact (Scopes.table_push_of_ne hne t').trans (h.kept_right hj hnot)

theorem identify (h : ρ₀.Since s₀ s₀' ρ s s') (hs : ρ.Stores s s') :
    ρ₀.Since s₀ s₀' (ρ.withIdentity hs) s.identify s'.identify where
  le := h.le.trans (le_withIdentity hs)
  scopes_new := h.scopes_new
  identities_new := by
    rintro i i' (hi | ⟨rfl, rfl⟩)
    · exact h.identities_new hi
    · exact .inr h.nextIdentity_le
  next_le := h.next_le
  nextIdentity_le := h.nextIdentity_le.imp Nat.le_succ_of_le Nat.le_succ_of_le
  output := h.output
  kept_left := h.kept_left
  kept_right := h.kept_right

theorem printLine (h : ρ₀.Since s₀ s₀' ρ s s') (line : String) :
    ρ₀.Since s₀ s₀' ρ (s.printLine line) (s'.printLine line) where
  le := h.le
  scopes_new := h.scopes_new
  identities_new := h.identities_new
  next_le := h.next_le
  nextIdentity_le := h.nextIdentity_le
  output := by
    obtain ⟨text, hs, hs'⟩ := h.output
    refine ⟨text ++ line ++ "\n", ?_, ?_⟩
    · simp only [Store.printLine, hs, String.append_assoc]
    · simp only [Store.printLine, hs', String.append_assoc]
  kept_left := h.kept_left
  kept_right := h.kept_right

theorem note (h : ρ₀.Since s₀ s₀' ρ s s') (entry : View) :
    ρ₀.Since s₀ s₀' ρ (s.note entry) (s'.note entry) :=
  ⟨h.le, h.scopes_new, h.identities_new, h.next_le, h.nextIdentity_le, h.output, h.kept_left,
    h.kept_right⟩

end Since

/-- The comparison of two runs that begin in stores that are alike by a renaming. -/
def simulation (ρ₀ : Renaming) (s₀ s₀' : Store) : Simulation Renaming where
  toLikeness := likeness
  home := likeness.chain
  store ρ s s' := ρ.Stores s s' ∧ ρ₀.Since s₀ s₀' ρ s s'
  lax := False

/-- The steps of the machine keep stores alike. -/
theorem lawful (ρ₀ : Renaming) (s₀ s₀' : Store) : (simulation ρ₀ s₀ s₀').Lawful where
  faithful := likeness_faithful
  likeness_mono := likeness_mono
  home_mono hρ hc := (likeness_mono hρ).chain hc
  chain_of_home hc := hc
  expressions := by
    rintro ρ n _ ⟨rfl, hn⟩
    exact expressions hn
  statements := by
    rintro ρ n _ ⟨rfl, hn⟩
    exact statements hn
  blame_self _ := rfl
  cause_self _ _ := rfl
  cause_undefined ha := congrArg _ ha
  get? := by
    rintro ρ s s' c c' a _ hs hc rfl
    exact hs.1.get? hc a
  assign := by
    rintro ρ s s' c c' a _ v v' hs hc rfl hv
    have howner := hs.1.owner? hc a
    generalize s.scopes.owner? c a = o at howner ⊢
    generalize s'.scopes.owner? c' a = o' at howner ⊢
    cases howner with
    | some hid => exact .some ⟨hs.1.define hid a hv, hs.2.define hid a v v'⟩
    | none => exact .none
  define := by
    rintro ρ s s' c c' a _ v v' hs hc rfl hv
    have hhere : ρ.scopes c.here c'.here := (List.forall₂_cons.mp hc).1
    exact ⟨hs.1.define hhere a hv, hs.2.define hhere a v v'⟩
  push {ρ s s' c c' t t'} hs hc ht := by
    refine ⟨ρ.withScope hs.1, le_withScope hs.1, ⟨hs.1.push ht, hs.2.push hs.1 t t'⟩, ?_⟩
    exact .cons (.inr ⟨rfl, rfl⟩) (hc.imp fun _ _ => .inl)
  printLine text hs :=
    ⟨⟨hs.1.scopes_lt, hs.1.identities_lt, hs.1.tables, hs.1.notes⟩, hs.2.printLine text⟩
  note entry hs :=
    ⟨⟨hs.1.scopes_lt, hs.1.identities_lt, hs.1.tables, congrArg (· ++ [entry]) hs.1.notes⟩,
      hs.2.note entry⟩
  notes_eq hs := hs.1.notes
  identify {ρ s s'} hs :=
    ⟨ρ.withIdentity hs.1, le_withIdentity hs.1, ⟨hs.1.identify, hs.2.identify hs.1⟩,
      .inr ⟨rfl, rfl⟩⟩

end Renaming

end Lox
