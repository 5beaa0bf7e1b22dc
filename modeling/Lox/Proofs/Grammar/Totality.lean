import Lox.Proofs.Grammar.Traversal

/-!
# Readers come to an end

Two properties that reach every reader. A reader that stops at a syntax error has reported
something; and on a list with an end of input a reader of the language gives a value or stops at
a syntax error, having taken tokens in front of the end of input only.

## Main definitions

* `Parse.Reporting`: no reader stops at a syntax error without a report.
* `TakenTo`, `beforeEnd`: tokens that were taken in front of the end of input, and all of them.
* `Parsed.Ends`, `Parse.Total`: the answer of a reader that comes to an end.

## Main results

* `Parse.program_total`: every list with an end of input is read to its end.
-/

namespace Lox

/-! ### Reports -/

/-- Whether something has been reported if this is a stop at a syntax error. -/
def Stop.Reported (reports : List SyntaxReport) : Stop → Prop
  | rejected _ => reports ≠ []
  | overrun | exhausted => True

/-- An answer which reports something if it is a stop at a syntax error. -/
def Parsed.Reported {α : Type} : Parsed α → Prop
  | done .. => True
  | stopped why reports _ => why.Reported reports

theorem Parsed.Reported.after {α : Type} {r : Parsed α} (hr : r.Reported)
    (before : List SyntaxReport) : (r.after before).Reported := by
  cases r with
  | done a reports rest => trivial
  | stopped why reports rest =>
    cases why with
    | rejected report => exact List.append_ne_nil_of_right_ne_nil _ hr
    | overrun | exhausted => trivial

/-- A reader that never stops at a syntax error without a report. -/
def Parse.Reporting {α : Type} (p : Parse α) : Prop := ∀ ts, (p ts).Reported

namespace Parse.Reporting

variable {α β : Type} {p : Parse α} {f : α → Parse β}

theorem bind (hp : p.Reporting) (hf : ∀ a, (f a).Reporting) : (p >>= f).Reporting := by
  intro ts
  have hts := hp ts
  cases hres : p ts with
  | done a reports rest =>
    rw [bind_of_done f hres]
    exact (hf a rest).after reports
  | stopped why reports rest =>
    rw [bind_of_stopped f hres]
    rw [hres] at hts
    exact hts

/-- A syntax error does not get out of a reader that gives it up. -/
theorem recovering : p.recovering.Reporting := by
  intro ts
  cases hres : p ts with
  | done a reports rest =>
    rw [recovering_of_done hres]
    trivial
  | stopped why reports rest =>
    cases why with
    | rejected report =>
      cases hresume : resume? rest with
      | none =>
        rw [recovering_of_not_resumed hres hresume]
        trivial
      | some rest =>
        rw [recovering_of_rejected hres hresume]
        trivial
    | overrun | exhausted =>
      rw [recovering_of_stopped hres (by simp)]
      trivial

/-- Behind a test of the front it is enough to know what either outcome leads to. -/
theorem ofFront {q : Parse β} (hnil : (q []).Reported) (hcons : ∀ t ts, (q (t :: ts)).Reported) :
    q.Reporting
  | [] => hnil
  | t :: ts => hcons t ts

theorem handedOn : HandedOn fun _ _ p => p.Reporting where
  weaken hp _ := hp
  lax hp := hp
  pure _ _ _ := trivial
  exhausted _ _ := trivial
  peek _ := ofFront trivial fun _ _ => trivial
  check _ _ := ofFront trivial fun _ _ => trivial
  note _ _ _ _ := trivial
  reject _ _ _ := ofFront trivial fun _ _ => List.cons_ne_nil _ _
  expect {kind} _ _ _ := ofFront trivial fun t ts => by
    by_cases ht : t.kind = kind
    · rw [expect_of_eq ht]
      trivial
    · rw [expect_of_ne ht]
      exact List.cons_ne_nil _ _
  bind := bind
  andThen := bind
  acceptOr {_ kinds _ _ _} _ hnone hsome := ofFront trivial fun t ts => by
    by_cases ht : t.kind ∈ kinds
    · rw [accept_bind_of_mem ht]
      exact hsome t ht ts
    · rw [accept_bind_of_not_mem ht]
      exact hnone _
  recoverUnless {_ _ kinds _ _ _ _} _ hq _ hf := ofFront trivial fun t ts => by
    by_cases ht : t.kind ∈ kinds
    · rw [check_bind_of_mem ht]
      exact hq _
    · rw [check_bind_of_not_mem ht]
      exact recovering.bind hf _
  recovering _ := recovering
  byLength hp ts := hp _ ts

theorem strictDeclaration : Parse.strictDeclaration.Reporting :=
  @HandedOn.declaration _ handedOn 0

end Parse.Reporting

/-! ### Ends -/

/-- The rest `rest` is left of `ts` by taking tokens in front of the end of input, at least one
if `strict` is true. -/
def TakenTo (strict : Bool) (ts rest : List Token) : Prop :=
  ∃ taken, ts = taken ++ rest ∧ (∀ t ∈ taken, t.kind ≠ .endOfInput) ∧
    (strict = true → taken ≠ [])

namespace TakenTo

variable {strict : Bool} {ts mid rest : List Token} {t : Token}

theorem refl (ts : List Token) : TakenTo false ts ts := ⟨[], rfl, by simp, by simp⟩

theorem cons (ht : t.kind ≠ .endOfInput) (h : TakenTo strict ts rest) :
    TakenTo true (t :: ts) rest := by
  obtain ⟨taken, rfl, htaken, -⟩ := h
  exact ⟨t :: taken, rfl, by simpa [ht] using htaken, by simp⟩

theorem front (ht : t.kind ≠ .endOfInput) (strict : Bool) (ts : List Token) :
    TakenTo strict (t :: ts) ts :=
  ⟨[t], rfl, by simpa using ht, by simp⟩

theorem lax (h : TakenTo strict ts rest) : TakenTo false ts rest := by
  obtain ⟨taken, rfl, htaken, -⟩ := h
  exact ⟨taken, rfl, htaken, by simp⟩

theorem append {first second : Bool} (h : TakenTo first ts mid) (h' : TakenTo second mid rest) :
    TakenTo (first || second) ts rest := by
  obtain ⟨taken, rfl, htaken, hfirst⟩ := h
  obtain ⟨taken', rfl, htaken', hsecond⟩ := h'
  refine ⟨taken ++ taken', (List.append_assoc ..).symm, ?_, fun hor hnil => ?_⟩
  · simp only [List.mem_append]
    rintro t (ht | ht)
    · exact htaken t ht
    · exact htaken' t ht
  · obtain ⟨h1, h2⟩ := List.append_eq_nil_iff.mp hnil
    obtain h | h := (Bool.or_eq_true ..).mp hor
    · exact hfirst h h1
    · exact hsecond h h2

theorem length_le (h : TakenTo strict ts rest) : rest.length ≤ ts.length := by
  obtain ⟨taken, rfl, -, -⟩ := h
  simp

theorem length_lt (h : TakenTo true ts rest) : rest.length < ts.length := by
  obtain ⟨taken, rfl, -, hne⟩ := h
  have hpos := List.length_pos_iff.mpr (hne rfl)
  rw [List.length_append]
  omega

theorem endOfInput_mem (h : TakenTo strict ts rest) (hts : ∃ t ∈ ts, t.kind = .endOfInput) :
    ∃ t ∈ rest, t.kind = .endOfInput := by
  obtain ⟨taken, rfl, htaken, -⟩ := h
  obtain ⟨t, ht, hkind⟩ := hts
  obtain ht | ht := List.mem_append.mp ht
  · exact absurd hkind (htaken t ht)
  · exact ⟨t, ht, hkind⟩

end TakenTo

/-- What is in front of the first end of input of a list of tokens. -/
def beforeEnd (ts : List Token) : List Token := ts.takeWhile (·.kind ≠ .endOfInput)

theorem beforeEnd_append {front rest : List Token} {e : Token}
    (hfront : ∀ t ∈ front, t.kind ≠ .endOfInput) (he : e.kind = .endOfInput) :
    beforeEnd (front ++ e :: rest) = front := by
  rw [beforeEnd, List.takeWhile_append_of_pos (by simpa using hfront)]
  simp [he]

/-- What is taken in front of an end of input is everything in front of the first one. -/
theorem TakenTo.beforeEnd_append {strict : Bool} {ts rest : List Token} {e : Token}
    (h : TakenTo strict ts (e :: rest)) (he : e.kind = .endOfInput) :
    ts = beforeEnd ts ++ e :: rest := by
  obtain ⟨taken, rfl, htaken, -⟩ := h
  rw [Lox.beforeEnd_append htaken he]

/-- The answer of a reader that comes to an end: a value behind tokens in front of the end of
input, or a stop at a syntax error there. -/
def Parsed.Ends {α : Type} (strict : Bool) (ts : List Token) : Parsed α → Prop
  | done _ _ rest => TakenTo strict ts rest
  | stopped (.rejected _) _ rest => TakenTo false ts rest
  | stopped .. => False

theorem Parsed.Ends.behind {α : Type} {first second : Bool} {ts mid : List Token} {r : Parsed α}
    (hr : r.Ends second mid) (h : TakenTo first ts mid) (before : List SyntaxReport) :
    (r.after before).Ends (first || second) ts := by
  cases r with
  | done a reports rest => exact h.append hr
  | stopped why reports rest =>
    cases why with
    | rejected report => exact (h.append hr).lax
    | overrun | exhausted => exact hr

theorem Parsed.Ends.lax {α : Type} {strict : Bool} {ts : List Token} {r : Parsed α}
    (hr : r.Ends strict ts) : r.Ends false ts := by
  cases r with
  | done a reports rest => exact TakenTo.lax hr
  | stopped why reports rest =>
    cases why with
    | rejected report => exact hr
    | overrun | exhausted => exact hr

theorem Parsed.Ends.ofStrict {α : Type} {ts : List Token} {r : Parsed α}
    (hr : r.Ends true ts) (strict : Bool) : r.Ends strict ts := by
  cases strict with
  | true => exact hr
  | false => exact hr.lax

theorem Parsed.Ends.bind {α β : Type} {p : Parse α} {f : α → Parse β} {first second : Bool}
    {ts : List Token} (hp : (p ts).Ends first ts)
    (hf : ∀ a rest, TakenTo first ts rest → (f a rest).Ends second rest) :
    ((p >>= f) ts).Ends (first || second) ts := by
  cases hres : p ts with
  | done a reports rest =>
    rw [hres] at hp
    rw [Parse.bind_of_done f hres]
    exact (hf a rest hp).behind hp reports
  | stopped why reports rest =>
    rw [hres] at hp
    rw [Parse.bind_of_stopped f hres]
    cases why with
    | rejected report => exact hp
    | overrun | exhausted => exact hp

/-- Wherever reading is given up, it goes on in front of the end of input. -/
theorem takenTo_resumeBehind? (last : Token) {ts : List Token}
    (hts : ∃ t ∈ ts, t.kind = .endOfInput) :
    ∃ rest, resumeBehind? last ts = some rest ∧ TakenTo false ts rest := by
  induction ts generalizing last with
  | nil => simp at hts
  | cons t ts ih =>
    rw [resumeBehind?]
    split
    · exact ⟨_, rfl, .refl _⟩
    · rename_i hgoes
      have ht : t.kind ≠ .endOfInput := fun ht => hgoes (.inl ht)
      obtain ⟨rest, hrest, htaken⟩ := ih t (by simpa [ht] using hts)
      exact ⟨rest, hrest, (htaken.cons ht).lax⟩

theorem takenTo_resume? {ts : List Token} (hts : ∃ t ∈ ts, t.kind = .endOfInput) :
    ∃ rest, resume? ts = some rest ∧ TakenTo false ts rest ∧
      ∀ t us, ts = t :: us → t.kind ≠ .endOfInput → TakenTo true ts rest := by
  cases ts with
  | nil => simp at hts
  | cons t ts =>
    by_cases ht : t.kind = .endOfInput
    · refine ⟨t :: ts, if_pos ht, .refl _, ?_⟩
      rintro _ _ ⟨rfl, rfl⟩ hne
      exact absurd ht hne
    · have hback : ∃ u ∈ ts, u.kind = .endOfInput := by simpa [ht] using hts
      obtain ⟨rest, hrest, htaken⟩ := takenTo_resumeBehind? t hback
      have hcons := htaken.cons ht
      exact ⟨rest, (if_neg ht).trans hrest, hcons.lax, fun _ _ _ _ => hcons⟩

/-- A reader that gives up at a syntax error always has an answer, and takes a token even then
unless it stands in front of the end of input. -/
theorem Parsed.Ends.recovering {α : Type} {p : Parse α} {strict : Bool} {ts : List Token}
    (hp : (p ts).Ends strict ts) (hts : ∃ t ∈ ts, t.kind = .endOfInput) :
    ∃ o reports rest, p.recovering ts = .done o reports rest ∧ TakenTo false ts rest ∧
      (strict = true → ∀ t us, ts = t :: us → t.kind ≠ .endOfInput → TakenTo true ts rest) := by
  cases hres : p ts with
  | done a reports rest =>
    rw [hres] at hp
    refine ⟨some a, reports, rest, Parse.recovering_of_done hres, TakenTo.lax hp, ?_⟩
    rintro rfl _ _ _ _
    exact hp
  | stopped why reports mid =>
    rw [hres] at hp
    cases why with
    | overrun | exhausted => exact hp.elim
    | rejected report =>
      obtain ⟨rest, hresume, htaken, hfront⟩ := takenTo_resume? (TakenTo.endOfInput_mem hp hts)
      refine ⟨none, reports, rest, Parse.recovering_of_rejected hres hresume,
        TakenTo.append hp htaken, fun _ t us heq ht => ?_⟩
      obtain ⟨taken, hsplit, hne, -⟩ := hp
      cases taken with
      | nil =>
        obtain rfl : ts = mid := hsplit
        exact hfront t us heq ht
      | cons t' taken =>
        have hmid : TakenTo true ts mid := ⟨t' :: taken, hsplit, hne, fun _ => List.cons_ne_nil _ _⟩
        exact hmid.append htaken

/-- A reader that comes to an end on every list of at most `bound` tokens that has an end of
input. -/
def Parse.Total {α : Type} (bound : Nat) (strict : Bool) (p : Parse α) : Prop :=
  ∀ ts, (∃ t ∈ ts, t.kind = .endOfInput) → ts.length ≤ bound → (p ts).Ends strict ts

namespace Parse.Total

variable {α β : Type} {p : Parse α} {f : α → Parse β} {bound : Nat} {strict : Bool}

/-- A list with an end of input is not empty. -/
theorem ofFront {q : Parse β}
    (hcons : ∀ t ts, (∃ u ∈ t :: ts, u.kind = .endOfInput) → ts.length + 1 ≤ bound →
      (q (t :: ts)).Ends strict (t :: ts)) : q.Total bound strict := by
  intro ts hts hlength
  cases ts with
  | nil => simp at hts
  | cons t ts => exact hcons t ts hts hlength

theorem lax (hp : p.Total bound strict) : p.Total bound false :=
  fun ts hts hlength => (hp ts hts hlength).lax

theorem bind (hp : p.Total bound false) (hf : ∀ a, (f a).Total bound strict) :
    (p >>= f).Total bound strict := by
  intro ts hts hlength
  refine (hp ts hts hlength).bind fun a rest htaken => ?_
  exact hf a rest (htaken.endOfInput_mem hts) (Nat.le_trans htaken.length_le hlength)

/-- Behind a reader that takes a token the bound may be smaller. -/
theorem andThen (hp : p.Total bound true) (hf : ∀ a, (f a).Total (bound - 1) false) :
    (p >>= f).Total bound true := by
  intro ts hts hlength
  have hback (a : α) (rest : List Token) (htaken : TakenTo true ts rest) :
      (f a rest).Ends false rest := by
    have hlt := htaken.length_lt
    exact hf a rest (htaken.endOfInput_mem hts) (by omega)
  exact (hp ts hts hlength).bind hback

theorem recovering (hp : p.Total bound strict) : p.recovering.Total bound false := by
  intro ts hts hlength
  obtain ⟨o, reports, rest, hres, htaken, -⟩ := (hp ts hts hlength).recovering hts
  rw [hres]
  exact htaken

theorem handedOn : HandedOn fun bound strict p => p.Total bound strict where
  weaken hp hbound ts hts hlength := hp ts hts (Nat.le_trans hlength hbound)
  lax := lax
  pure _ _ ts _ _ := TakenTo.refl ts
  exhausted _ := ofFront fun _ _ _ hlength => absurd hlength (Nat.not_succ_le_zero _)
  peek _ := ofFront fun _ _ _ _ => TakenTo.refl _
  check _ _ := ofFront fun _ _ _ _ => TakenTo.refl _
  note _ _ _ ts _ _ := TakenTo.refl ts
  reject _ _ _ := ofFront fun _ _ _ _ => TakenTo.refl _
  expect {kind} _ _ hkind := ofFront fun t ts _ _ => by
    by_cases ht : t.kind = kind
    · rw [expect_of_eq ht]
      exact TakenTo.front (ht ▸ hkind) _ _
    · rw [expect_of_ne ht]
      exact TakenTo.refl _
  bind := bind
  andThen := andThen
  acceptOr {_ kinds _ _ _} hkinds hnone hsome := ofFront fun t ts hts hlength => by
    by_cases ht : t.kind ∈ kinds
    · have hne : t.kind ≠ .endOfInput := fun heq => hkinds (heq ▸ ht)
      have htaken := TakenTo.front hne true ts
      have hends := hsome t ht ts (htaken.endOfInput_mem hts) (by omega)
      have hfront := (hends.behind htaken []).ofStrict
      rw [Parsed.after_nil] at hfront
      rw [accept_bind_of_mem ht]
      exact hfront _
    · rw [accept_bind_of_not_mem ht]
      exact hnone _ hts hlength
  recoverUnless {_ _ kinds p _ f bound} hkinds hq hp hf := ofFront fun t ts hts hlength => by
    by_cases ht : t.kind ∈ kinds
    · rw [check_bind_of_mem ht]
      exact hq _ hts hlength
    · have hne : t.kind ≠ .endOfInput := fun heq => ht (heq ▸ hkinds)
      obtain ⟨o, reports, rest, hres, -, hstrict⟩ := (hp _ hts hlength).recovering hts
      have htaken := hstrict rfl t ts rfl hne
      have hlt := htaken.length_lt
      rw [List.length_cons] at hlt
      have hrest := hf o rest (htaken.endOfInput_mem hts) (by omega)
      rw [check_bind_of_not_mem ht, if_neg (by simp), bind_of_done f hres]
      exact (hrest.behind htaken reports).lax
  recovering := recovering
  byLength hp ts hts _ := hp _ ts hts (Nat.le_refl _)

/-- A list of entries goes on up to one of its closers, whatever has to be given up. -/
theorem upTo {closers : List Kind} (hclosers : .endOfInput ∈ closers) {ts : List Token}
    (hp : p.Total bound true) (hts : ∃ t ∈ ts, t.kind = .endOfInput) (hlength : ts.length ≤ bound) :
    ∃ as reports t rest, Parse.upTo closers p.recovering bound ts = .done as reports (t :: rest) ∧
      t.kind ∈ closers ∧ TakenTo false ts (t :: rest) := by
  induction bound generalizing ts with
  | zero =>
    obtain rfl : ts = [] := List.length_eq_zero_iff.mp (by omega)
    simp at hts
  | succ bound ih =>
    cases ts with
    | nil => simp at hts
    | cons t us =>
      by_cases ht : t.kind ∈ closers
      · refine ⟨[], [], t, us, ?_, ht, .refl _⟩
        exact check_bind_of_mem ht _ us
      · have hne : t.kind ≠ .endOfInput := fun heq => ht (heq ▸ hclosers)
        obtain ⟨o, reports, rest, hres, -, hstrict⟩ := (hp _ hts hlength).recovering hts
        have htaken := hstrict rfl t us rfl hne
        have hlt := htaken.length_lt
        obtain ⟨as, reports', t', rest', hothers, ht', htaken'⟩ :=
          ih (handedOn.weaken hp (Nat.le_succ _)) (htaken.endOfInput_mem hts) (by omega)
        refine ⟨o.toList ++ as, reports ++ (reports' ++ []), t', rest', ?_, ht',
          (htaken.append htaken').lax⟩
        rw [Parse.upTo, check_bind_of_not_mem ht, if_neg (by simp), bind_of_done _ hres,
          bind_of_done _ hothers]
        rfl

end Parse.Total

/-- Every list with an end of input is read up to its first end of input. -/
theorem Parse.program_total {ts : List Token} (hts : ∃ t ∈ ts, t.kind = .endOfInput) :
    ∃ ns reports e rest, Parse.program ts = .done ns reports (e :: rest) ∧ e.kind = .endOfInput ∧
      TakenTo false ts (e :: rest) := by
  obtain ⟨ns, reports, e, rest, hres, he, htaken⟩ :=
    Parse.Total.handedOn.declaration.upTo (List.mem_singleton_self Kind.endOfInput) hts
      (Nat.le_succ _)
  exact ⟨ns, reports, e, rest, hres, List.mem_singleton.mp he, htaken⟩

end Lox
