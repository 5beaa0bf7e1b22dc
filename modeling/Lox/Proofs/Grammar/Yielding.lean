import Lox.Proofs.Grammar.Reading
import Mathlib.Data.List.Forall2

/-!
# Reading with reports

A reader that is not interrupted ends with a value, and may have reported something on the way. For
each of the steps that productions are made of it is said here what it ends with and what it has
reported then. The only steps that report something and go on are those in front of an entry of a
list: an entry is reported by its first token if there are enough entries in front of it.

## Main definitions

* `Parse.Yields`: a reader reads a value from the front of a list of tokens, with some reports.
* `Separated`: stretches of tokens with commas between them.
* `Parse.surplusReports`, `Parse.listReports`: what is reported of an entry, and of a list.
* `SyntaxReport.Opens`: a report is about the first of some tokens.

## Main results

* `Parse.Yields.bind`, `Parse.Yields.accept` and the like: what the steps yield.
* `Parse.Yields.entries_cons`: a list is reported entry by entry.
* `Parse.forall₂_listReports`: the reports of a list are about its surplus entries, in order.
-/

namespace Lox

/-- Stretches of tokens, and the tokens that they are with commas between them. -/
inductive Separated : List (List Token) → List Token → Prop
  | none : Separated [] []
  | last (us : List Token) : Separated [us] us
  | cons {comma : Token} {us vs ws : List Token} {uss : List (List Token)}
      (hcomma : comma.kind = .comma) (h : Separated (vs :: uss) ws) :
      Separated (us :: vs :: uss) (us ++ comma :: ws)

/-- A report about the first of some tokens. -/
def SyntaxReport.Opens (problem : SyntaxProblem) (us : List Token) (r : SyntaxReport) : Prop :=
  ∃ t vs, us = t :: vs ∧ r = ⟨t, problem⟩

namespace Parse

variable {α β : Type}

/-- A reader reads a value from the front of a list, leaves the rest, and makes these reports. -/
def Yields (p : Parse α) (ts : List Token) (a : α) (reports : List SyntaxReport)
    (rest : List Token) : Prop :=
  p ts = .done a reports rest

/-- What is reported of an entry behind `count` others. -/
def surplusReports (surplus : SyntaxProblem) (count : Nat) : List Token → List SyntaxReport
  | [] => []
  | t :: _ => if maxEntries ≤ count then [⟨t, surplus⟩] else []

theorem surplusReports_of_lt {surplus : SyntaxProblem} {count : Nat} (h : count < maxEntries)
    (us : List Token) : surplusReports surplus count us = [] := by
  cases us with
  | nil => rfl
  | cons t us => exact if_neg (Nat.not_le_of_lt h)

theorem surplusReports_append {surplus : SyntaxProblem} {count : Nat} {us : List Token}
    (hus : us ≠ []) (vs : List Token) :
    surplusReports surplus count (us ++ vs) = surplusReports surplus count us := by
  cases us with
  | nil => exact absurd rfl hus
  | cons t us => rfl

/-- What is reported of entries behind `count` others. -/
def listReports (surplus : SyntaxProblem) (count : Nat) :
    List (List Token) → List SyntaxReport
  | [] => []
  | us :: uss => surplusReports surplus count us ++ listReports surplus (count + 1) uss

/-- Nothing is reported of a list that is not too long. -/
theorem listReports_of_le {surplus : SyntaxProblem} {count : Nat} {uss : List (List Token)}
    (h : count + uss.length ≤ maxEntries) : listReports surplus count uss = [] := by
  induction uss generalizing count with
  | nil => rfl
  | cons us uss ih =>
    rw [List.length_cons] at h
    rw [listReports, surplusReports_of_lt (by omega), ih (by omega), List.append_nil]

/-- The entries that have enough others in front of them are reported, each by its first token. -/
theorem forall₂_listReports (surplus : SyntaxProblem) (count : Nat) {uss : List (List Token)}
    (huss : ∀ us ∈ uss, us ≠ []) :
    List.Forall₂ (SyntaxReport.Opens surplus) (uss.drop (maxEntries - count))
      (listReports surplus count uss) := by
  induction uss generalizing count with
  | nil =>
    rw [List.drop_nil]
    exact .nil
  | cons us uss ih =>
    obtain ⟨hus, hmore⟩ := List.forall_mem_cons.mp huss
    obtain ⟨t, us, rfl⟩ := List.exists_cons_of_ne_nil hus
    have hrest := ih (count + 1) hmore
    rw [listReports, surplusReports]
    by_cases hcount : maxEntries ≤ count
    · rw [Nat.sub_eq_zero_of_le (Nat.le_succ_of_le hcount)] at hrest
      rw [Nat.sub_eq_zero_of_le hcount, if_pos hcount]
      exact .cons ⟨t, us, rfl, rfl⟩ hrest
    · rw [if_neg hcount, show maxEntries - count = maxEntries - (count + 1) + 1 by omega]
      exact hrest

namespace Yields

variable {p : Parse α} {kinds : List Kind} {a : α} {as : List α} {b : β} {t : Token}
variable {us ts mid rest : List Token} {reports others : List SyntaxReport}

theorem pure (a : α) (ts : List Token) : (Pure.pure a : Parse α).Yields ts a [] ts := rfl

theorem bind {f : α → Parse β} (hp : p.Yields ts a reports mid)
    (hf : (f a).Yields mid b others rest) : (p >>= f).Yields ts b (reports ++ others) rest := by
  rw [Yields, bind_of_done f hp, hf, Parsed.after_done]

theorem bind_pure {f : α → β} (hp : p.Yields ts a reports rest) :
    (p >>= fun a => Pure.pure (f a)).Yields ts (f a) reports rest := by
  rw [← List.append_nil reports]
  exact hp.bind (pure (f a) rest)

theorem map (hp : p.Yields ts a reports rest) (f : α → β) :
    (f <$> p).Yields ts (f a) reports rest := by
  rw [map_eq_pure_bind]
  exact hp.bind_pure

theorem accept {f : Option Token → Parse β} (ht : t.kind ∈ kinds)
    (hf : (f (some t)).Yields ts b reports rest) :
    (Parse.accept kinds >>= f).Yields (t :: ts) b reports rest := by
  rw [Yields, accept_bind_of_mem ht]
  exact hf

theorem skip {f : Option Token → Parse β} (hts : StartsOutside kinds ts)
    (hf : (f none).Yields ts b reports rest) :
    (Parse.accept kinds >>= f).Yields ts b reports rest := by
  cases ts with
  | nil => exact hts.elim
  | cons t ts =>
    rw [Yields, accept_bind_of_not_mem hts]
    exact hf

theorem closed {f : Bool → Parse β} (hts : StartsIn kinds ts)
    (hf : (f true).Yields ts b reports rest) : (check kinds >>= f).Yields ts b reports rest := by
  cases ts with
  | nil => exact hts.elim
  | cons t ts =>
    rw [Yields, check_bind_of_mem hts]
    exact hf

theorem entered {f : Bool → Parse β} (hts : StartsOutside kinds ts)
    (hf : (f false).Yields ts b reports rest) : (check kinds >>= f).Yields ts b reports rest := by
  cases ts with
  | nil => exact hts.elim
  | cons t ts =>
    rw [Yields, check_bind_of_not_mem hts]
    exact hf

theorem expect {f : Token → Parse β} {kind : Kind} {problem : SyntaxProblem} (ht : t.kind = kind)
    (hf : (f t).Yields ts b reports rest) :
    (Parse.expect kind problem >>= f).Yields (t :: ts) b reports rest := by
  rw [Yields, bind_of_done f (expect_of_eq ht problem ts), Parsed.after_nil]
  exact hf

theorem recovering (h : p.Yields ts a reports rest) :
    p.recovering.Yields ts (some a) reports rest :=
  recovering_of_done h

/-! ### Lists -/

theorem noteSurplus (surplus : SyntaxProblem) (count : Nat) (hts : ts ≠ []) :
    (Parse.noteSurplus count surplus).Yields ts () (surplusReports surplus count ts) ts := by
  cases ts with
  | nil => exact absurd rfl hts
  | cons t ts =>
    rw [Parse.noteSurplus, surplusReports]
    split <;> rfl

variable {entry : Parse α} {surplus : SyntaxProblem} {bound count : Nat}

theorem entries_last (hus : us ≠ []) (h : entry.Yields (us ++ rest) a reports rest)
    (hrest : StartsOutside [.comma] rest) :
    (entries entry surplus (bound + 1) count).Yields (us ++ rest) [a]
      (surplusReports surplus count us ++ reports) rest := by
  rw [← surplusReports_append hus rest, ← List.append_nil reports]
  exact (noteSurplus _ _ (List.append_ne_nil_of_left_ne_nil hus _)).bind
    (h.bind (skip hrest (pure _ _)))

theorem entries_cons {comma : Token} (hus : us ≠ [])
    (h : entry.Yields (us ++ comma :: ts) a reports (comma :: ts)) (hcomma : comma.kind = .comma)
    (hothers : (entries entry surplus bound (count + 1)).Yields ts as others rest) :
    (entries entry surplus (bound + 1) count).Yields (us ++ comma :: ts) (a :: as)
      (surplusReports surplus count us ++ (reports ++ others)) rest := by
  rw [← surplusReports_append hus (comma :: ts)]
  exact (noteSurplus _ _ (List.append_ne_nil_of_left_ne_nil hus _)).bind
    (h.bind (accept (by simp [hcomma]) hothers.bind_pure))

/-- A list whose entries make no reports of their own. -/
theorem entries_separated {uss : List (List Token)} {ws : List Token} (hws : Separated uss ws)
    (huss : List.Forall₂ (fun us a => us ≠ [] ∧ ∀ mid, entry.Yields (us ++ mid) a [] mid) uss as)
    (hne : uss ≠ []) (hbound : ws.length < bound) (hrest : StartsOutside [.comma] rest) :
    (entries entry surplus bound count).Yields (ws ++ rest) as (listReports surplus count uss)
      rest := by
  induction hws generalizing as bound count with
  | none => exact absurd rfl hne
  | last us =>
    obtain ⟨bound, rfl⟩ : ∃ b, bound = b + 1 := ⟨bound - 1, by omega⟩
    cases huss with
    | cons hus hnil =>
      cases hnil
      exact entries_last hus.1 (hus.2 rest) hrest
  | @cons comma us vs ws uss hcomma _ ih =>
    rw [List.length_append, List.length_cons] at hbound
    obtain ⟨bound, rfl⟩ : ∃ b, bound = b + 1 := ⟨bound - 1, by omega⟩
    cases huss with
    | cons hus huss =>
      have hothers : (entries entry surplus bound (count + 1)).Yields (ws ++ rest) _
          (listReports surplus (count + 1) (vs :: uss)) rest :=
        ih huss (List.cons_ne_nil _ _) (by omega)
      have hlist := entries_cons hus.1 (hus.2 _) hcomma hothers
      rw [List.append_assoc]
      exact hlist

theorem upTo_closed {closers : List Kind} {entry : Parse (Option α)} (hts : StartsIn closers ts)
    (bound : Nat) : (upTo closers entry (bound + 1)).Yields ts [] [] ts := by
  rw [upTo]
  exact closed hts (pure _ _)

theorem upTo_entered {closers : List Kind} {entry : Parse (Option α)}
    (hts : StartsOutside closers ts) (h : entry.Yields ts (some a) reports mid)
    (hothers : (upTo closers entry bound).Yields mid as others rest) :
    (upTo closers entry (bound + 1)).Yields ts (a :: as) (reports ++ others) rest := by
  rw [upTo]
  exact entered hts (h.bind hothers.bind_pure)

end Yields

end Parse

end Lox
