import Lox.Proofs.Grammar.Totality

/-!
# Reading without a report

A reader reads a value cleanly if it ends with that value and reports nothing. For each of the
steps that productions are made of it is said here what it reads cleanly and what it leaves, so
that productions can be followed from the first token to the last, in both directions.

## Main definitions

* `Parse.Reads`: a reader reads a value from the front of a list of tokens and reports nothing.
* `StartsIn`, `StartsOutside`: a list that starts with a token of one of some kinds, or of none.

## Main results

* `Parse.reads_bind`, `Parse.reads_accept`, `Parse.reads_expect` and the like: what the steps
  read.
-/

namespace Lox

/-- A list that starts with a token of one of these kinds. -/
def StartsIn (kinds : List Kind) : List Token → Prop
  | [] => False
  | t :: _ => t.kind ∈ kinds

/-- A list that starts with a token of none of these kinds. -/
def StartsOutside (kinds : List Kind) : List Token → Prop
  | [] => False
  | t :: _ => t.kind ∉ kinds

@[simp]
theorem startsOutside_cons {kinds : List Kind} {t : Token} {ts : List Token} :
    StartsOutside kinds (t :: ts) ↔ t.kind ∉ kinds := Iff.rfl

theorem StartsOutside.mono {kinds kinds' : List Kind} {ts : List Token}
    (h : StartsOutside kinds ts) (hsub : kinds' ⊆ kinds) : StartsOutside kinds' ts := by
  cases ts with
  | nil => exact h
  | cons t ts => exact fun ht => h (hsub ht)

@[simp]
theorem startsIn_cons {kinds : List Kind} {t : Token} {ts : List Token} :
    StartsIn kinds (t :: ts) ↔ t.kind ∈ kinds := Iff.rfl

namespace StartsIn

variable {kinds kinds' : List Kind} {ts : List Token}

theorem mono (h : StartsIn kinds ts) (hsub : kinds ⊆ kinds') : StartsIn kinds' ts := by
  cases ts with
  | nil => exact h
  | cons t ts => exact hsub h

theorem append (h : StartsIn kinds ts) (us : List Token) : StartsIn kinds (ts ++ us) := by
  cases ts with
  | nil => exact h.elim
  | cons t ts => exact h

theorem ne_nil (h : StartsIn kinds ts) : ts ≠ [] := by
  rintro rfl
  exact h

theorem outside (h : StartsIn kinds ts) (hkinds : ∀ kind ∈ kinds, kind ∉ kinds') :
    StartsOutside kinds' ts := by
  cases ts with
  | nil => exact h
  | cons t ts => exact hkinds _ h

end StartsIn

namespace Parsed

variable {α : Type}

theorem after_eq_done {before reports : List SyntaxReport} {r : Parsed α} {a : α}
    {rest : List Token} :
    r.after before = done a reports rest ↔
      ∃ own, r = done a own rest ∧ reports = before ++ own := by
  cases r with
  | done b own rest' =>
    simp only [after_done, done.injEq]
    constructor
    · rintro ⟨rfl, rfl, rfl⟩
      exact ⟨own, ⟨rfl, rfl, rfl⟩, rfl⟩
    · rintro ⟨own', ⟨rfl, rfl, rfl⟩, rfl⟩
      exact ⟨rfl, rfl, rfl⟩
  | stopped why own rest' => simp

end Parsed

namespace Parse

variable {α β : Type} {ts rest : List Token}

/-- A reader reads a value from the front of a list, leaves the rest, and reports nothing. -/
def Reads (p : Parse α) (ts : List Token) (a : α) (rest : List Token) : Prop :=
  p ts = .done a [] rest

@[simp]
theorem reads_pure {a b : α} : (pure a : Parse α).Reads ts b rest ↔ a = b ∧ ts = rest := by
  simp [Reads]

@[simp]
theorem reads_bind {p : Parse α} {f : α → Parse β} {b : β} :
    (p >>= f).Reads ts b rest ↔ ∃ a mid, p.Reads ts a mid ∧ (f a).Reads mid b rest := by
  simp only [Reads, bind_apply]
  cases hp : p ts with
  | done a reports mid =>
    simp only [Parsed.after_eq_done, Parsed.done.injEq]
    constructor
    · rintro ⟨own, hown, hnil⟩
      obtain ⟨rfl, rfl⟩ := List.append_eq_nil_iff.mp hnil.symm
      exact ⟨a, mid, ⟨rfl, rfl, rfl⟩, hown⟩
    · rintro ⟨a, mid, ⟨rfl, rfl, rfl⟩, hf⟩
      exact ⟨[], hf, rfl⟩
  | stopped why reports mid => simp

theorem reads_bind_pure {p : Parse α} {f : α → β} {b : β} :
    (p >>= fun a => pure (f a)).Reads ts b rest ↔ ∃ a, p.Reads ts a rest ∧ f a = b := by
  simp only [reads_bind, reads_pure]
  constructor
  · rintro ⟨a, mid, ha, rfl, rfl⟩
    exact ⟨a, ha, rfl⟩
  · rintro ⟨a, ha, rfl⟩
    exact ⟨a, rest, ha, rfl, rfl⟩

@[simp]
theorem reads_map {p : Parse α} {f : α → β} {b : β} :
    (f <$> p).Reads ts b rest ↔ ∃ a, p.Reads ts a rest ∧ f a = b := by
  rw [map_eq_pure_bind, reads_bind_pure]

@[simp]
theorem not_reads_exhausted {a : α} : ¬ (exhausted : Parse α).Reads ts a rest := nofun

@[simp]
theorem not_reads_reject {problem : SyntaxProblem} {a : α} :
    ¬ (reject problem : Parse α).Reads ts a rest := by
  cases ts <;> nofun

@[simp]
theorem not_reads_note {t : Token} {problem : SyntaxProblem} {u : Unit} :
    ¬ (note t problem).Reads ts u rest := nofun

@[simp]
theorem reads_check {kinds : List Kind} {b : Bool} :
    (check kinds).Reads ts b rest ↔
      ts = rest ∧ ∃ t us, ts = t :: us ∧ b = kinds.contains t.kind := by
  cases ts with
  | nil => simp [Reads, check]
  | cons t ts =>
    simp only [Reads, check, Parsed.done.injEq, true_and, List.cons.injEq]
    grind

/-- A token is taken exactly if it is of one of the kinds. -/
@[simp]
theorem reads_accept {kinds : List Kind} {o : Option Token} :
    (accept kinds).Reads ts o rest ↔
      (∃ t, o = some t ∧ t.kind ∈ kinds ∧ ts = t :: rest) ∨
        (o = none ∧ StartsOutside kinds ts ∧ ts = rest) := by
  cases ts with
  | nil => simp [Reads, accept, StartsOutside]
  | cons t ts =>
    simp only [Reads, accept, List.contains_iff_mem, StartsOutside]
    split
    · simp only [Parsed.done.injEq, true_and]
      grind
    · simp only [Parsed.done.injEq, true_and]
      grind

@[simp]
theorem reads_expect {kind : Kind} {problem : SyntaxProblem} {t : Token} :
    (expect kind problem).Reads ts t rest ↔ t.kind = kind ∧ ts = t :: rest := by
  cases ts with
  | nil => simp [Reads, expect]
  | cons t' ts =>
    simp only [Reads, expect]
    split
    · simp only [Parsed.done.injEq, true_and, List.cons.injEq]
      grind
    · simp only [reduceCtorEq, List.cons.injEq, false_iff]
      grind

/-- What a test of the front leads to decides. -/
theorem reads_accept_bind {kinds : List Kind} {f : Option Token → Parse β} {b : β} :
    (accept kinds >>= f).Reads ts b rest ↔
      (∃ t us, ts = t :: us ∧ t.kind ∈ kinds ∧ (f (some t)).Reads us b rest) ∨
        (StartsOutside kinds ts ∧ (f none).Reads ts b rest) := by
  rw [reads_bind]
  constructor
  · rintro ⟨o, us, ho, h⟩
    obtain ⟨t, rfl, ht, rfl⟩ | ⟨rfl, hout, rfl⟩ := reads_accept.mp ho
    · exact .inl ⟨t, us, rfl, ht, h⟩
    · exact .inr ⟨hout, h⟩
  · rintro (⟨t, us, rfl, ht, h⟩ | ⟨hout, h⟩)
    · exact ⟨some t, us, reads_accept.mpr (.inl ⟨t, rfl, ht, rfl⟩), h⟩
    · exact ⟨none, ts, reads_accept.mpr (.inr ⟨rfl, hout, rfl⟩), h⟩

theorem reads_check_bind {kinds : List Kind} {f : Bool → Parse β} {b : β} :
    (check kinds >>= f).Reads ts b rest ↔
      (∃ t us, ts = t :: us ∧ t.kind ∈ kinds ∧ (f true).Reads ts b rest) ∨
        (StartsOutside kinds ts ∧ (f false).Reads ts b rest) := by
  rw [reads_bind]
  constructor
  · rintro ⟨_, us, hcheck, h⟩
    obtain ⟨rfl, t, us, rfl, rfl⟩ := reads_check.mp hcheck
    by_cases ht : t.kind ∈ kinds
    · rw [List.contains_iff_mem.mpr ht] at h
      exact .inl ⟨t, us, rfl, ht, h⟩
    · rw [List.contains_eq_mem, decide_eq_false ht] at h
      exact .inr ⟨ht, h⟩
  · rintro (⟨t, us, rfl, ht, h⟩ | ⟨hout, h⟩)
    · exact ⟨true, _, reads_check.mpr ⟨rfl, t, us, rfl, by simpa using ht⟩, h⟩
    · cases ts with
      | nil => exact hout.elim
      | cons t us => exact ⟨false, _, reads_check.mpr ⟨rfl, t, us, rfl, by simpa using hout⟩, h⟩

theorem reads_expect_bind {kind : Kind} {problem : SyntaxProblem} {f : Token → Parse β} {b : β} :
    (expect kind problem >>= f).Reads ts b rest ↔
      ∃ t us, ts = t :: us ∧ t.kind = kind ∧ (f t).Reads us b rest := by
  rw [reads_bind]
  constructor
  · rintro ⟨t, us, hexpect, h⟩
    obtain ⟨ht, rfl⟩ := reads_expect.mp hexpect
    exact ⟨t, us, rfl, ht, h⟩
  · rintro ⟨t, us, rfl, ht, h⟩
    exact ⟨t, us, reads_expect.mpr ⟨ht, rfl⟩, h⟩

/-- A surplus entry is reported. -/
@[simp]
theorem reads_noteSurplus {count : Nat} {surplus : SyntaxProblem} {u : Unit} :
    (noteSurplus count surplus).Reads ts u rest ↔ count < maxEntries ∧ ts = rest := by
  rw [noteSurplus]
  split
  · simp only [reads_bind, not_reads_note, and_false, exists_const, false_iff]
    omega
  · simp only [reads_pure, true_and]
    exact ⟨fun h => ⟨by omega, h⟩, fun h => h.2⟩

theorem reads_behind {kind : Kind} {p : Parse α} {o : Option α} :
    (behind kind p).Reads ts o rest ↔
      (∃ t us, ts = t :: us ∧ t.kind = kind ∧ ∃ a, p.Reads us a rest ∧ some a = o) ∨
        (StartsOutside [kind] ts ∧ none = o ∧ ts = rest) := by
  simp only [behind, ↓reads_accept_bind, List.mem_singleton, reads_map, reads_pure]

theorem reads_unlessAt {kind : Kind} {p : Parse α} {o : Option α} :
    (unlessAt kind p).Reads ts o rest ↔
      (∃ t us, ts = t :: us ∧ t.kind = kind ∧ none = o ∧ ts = rest) ∨
        (StartsOutside [kind] ts ∧ ∃ a, p.Reads ts a rest ∧ some a = o) := by
  simp only [unlessAt, ↓reads_check_bind, List.mem_singleton, if_true, Bool.false_eq_true, if_false,
    reads_map, reads_pure]

/-! ### Loops -/

/-- A chain goes on with an operator and an operand, or ends in front of another token. -/
theorem reads_chain_succ {operators : List Kind} {join : Node → Token → Node → Node}
    {operand : Parse Node} {bound : Nat} {left n : Node} :
    (chain operators join operand (bound + 1) left).Reads ts n rest ↔
      (∃ operator us, ts = operator :: us ∧ operator.kind ∈ operators ∧
        ∃ right vs, operand.Reads us right vs ∧
          (chain operators join operand bound (join left operator right)).Reads vs n rest) ∨
      (StartsOutside operators ts ∧ left = n ∧ ts = rest) := by
  rw [chain, reads_accept_bind]
  simp only [reads_bind, reads_pure]

/-- A list of entries is one entry, or one entry in front of a comma and others. -/
theorem reads_entries_succ {entry : Parse α} {surplus : SyntaxProblem} {bound count : Nat}
    {as : List α} :
    (entries entry surplus (bound + 1) count).Reads ts as rest ↔
      count < maxEntries ∧ ∃ a us, entry.Reads ts a us ∧
        ((∃ comma vs, us = comma :: vs ∧ comma.kind = .comma ∧ ∃ others,
          (entries entry surplus bound (count + 1)).Reads vs others rest ∧ a :: others = as) ∨
        (StartsOutside [.comma] us ∧ [a] = as ∧ us = rest)) := by
  simp only [entries, reads_bind (p := noteSurplus count surplus), reads_noteSurplus]
  simp only [↓reads_accept_bind, ↓reads_bind_pure, List.mem_singleton, reads_bind, reads_pure]
  constructor
  · rintro ⟨_, _, ⟨hcount, rfl⟩, h⟩
    exact ⟨hcount, h⟩
  · rintro ⟨hcount, h⟩
    exact ⟨(), ts, ⟨hcount, rfl⟩, h⟩

theorem reads_entriesUnlessAt {kind : Kind} {entry : Parse α} {surplus : SyntaxProblem}
    {bound : Nat} {as : List α} :
    (entriesUnlessAt kind entry surplus bound).Reads ts as rest ↔
      (∃ t us, ts = t :: us ∧ t.kind = kind ∧ [] = as ∧ ts = rest) ∨
        (StartsOutside [kind] ts ∧ (entries entry surplus bound 0).Reads ts as rest) := by
  simp only [entriesUnlessAt, ↓reads_check_bind, List.mem_singleton, if_true, Bool.false_eq_true,
    if_false, reads_pure]

/-- A list of entries up to a closer is empty in front of one, else it has a first entry. -/
theorem reads_upTo_succ {closers : List Kind} {entry : Parse (Option α)} {bound : Nat}
    {as : List α} :
    (upTo closers entry (bound + 1)).Reads ts as rest ↔
      (∃ t us, ts = t :: us ∧ t.kind ∈ closers ∧ [] = as ∧ ts = rest) ∨
        (StartsOutside closers ts ∧ ∃ o us, entry.Reads ts o us ∧ ∃ others,
          (upTo closers entry bound).Reads us others rest ∧ o.toList ++ others = as) := by
  rw [upTo, reads_check_bind]
  simp only [if_true, Bool.false_eq_true, if_false, ↓reads_bind_pure, reads_bind, reads_pure]

/-! ### Syntax errors that are given up -/

/-- A reader that gives up at a syntax error reads cleanly only what it does not give up, if
such errors are reported. -/
theorem reads_recovering {p : Parse α} (hp : p.Reporting) {o : Option α} :
    p.recovering.Reads ts o rest ↔ ∃ a, o = some a ∧ p.Reads ts a rest := by
  constructor
  · intro h
    have hreported := hp ts
    rw [Reads] at h
    cases hres : p ts with
    | done a reports mid =>
      rw [recovering_of_done hres] at h
      cases h
      exact ⟨a, rfl, hres⟩
    | stopped why reports mid =>
      rw [hres] at hreported
      cases why with
      | overrun | exhausted =>
        rw [recovering_of_stopped hres (by simp)] at h
        cases h
      | rejected report =>
        cases hresume : resume? mid with
        | none =>
          rw [recovering_of_not_resumed hres hresume] at h
          cases h
        | some back =>
          rw [recovering_of_rejected hres hresume] at h
          cases h
          exact absurd rfl hreported
  · rintro ⟨a, rfl, ha⟩
    exact recovering_of_done ha

end Parse

end Lox
