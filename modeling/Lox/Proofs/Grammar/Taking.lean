import Lox.Proofs.Grammar.Lenient

/-!
# Reading to the end of a word

A reader takes some tokens if it gives a value and leaves what is behind them. Unlike in reading
without a report something may be reported, so long as reading is not interrupted. For each of the
steps that productions are made of it is said here what it takes.

## Main definitions

* `Parse.Takes`: a reader comes to an end in front of some tokens.
* `Parse.EventuallyTakes`: so do readers with a bound, whatever it is if it is not too small.

## Main results

* `Parse.Takes.bind`, `Parse.Takes.accept`, `Parse.Takes.entriesUnlessAt` and the like: what the
  steps take.
-/

namespace Lox

namespace Parse

variable {α β : Type}

/-- The reader takes the tokens in front of `rest`, whatever it reports. -/
def Takes (p : Parse α) (ts rest : List Token) : Prop :=
  ∃ a reports, p ts = .done a reports rest

/-- The readers take the tokens in front of `rest` unless their bound is too small. -/
def EventuallyTakes (p : Nat → Parse α) (ts rest : List Token) : Prop :=
  ∀ bound, ts.length ≤ bound → (p bound).Takes ts rest

namespace Takes

variable {p : Parse α} {f : Option Token → Parse β} {kinds : List Kind} {t : Token}
variable {us ts mid rest : List Token}

theorem pure (a : α) (ts : List Token) : (Pure.pure a : Parse α).Takes ts ts := ⟨a, [], rfl⟩

theorem bind {f : α → Parse β} (hp : p.Takes ts mid) (hf : ∀ a, (f a).Takes mid rest) :
    (p >>= f).Takes ts rest := by
  obtain ⟨a, reports, ha⟩ := hp
  obtain ⟨b, own, hb⟩ := hf a
  exact ⟨b, reports ++ own, by rw [bind_of_done f ha, hb, Parsed.after_done]⟩

theorem map (hp : p.Takes ts rest) (g : α → β) : (g <$> p).Takes ts rest := by
  rw [map_eq_pure_bind]
  exact hp.bind fun a => pure _ _

theorem accept (ht : t.kind ∈ kinds) (hf : (f (some t)).Takes ts rest) :
    (Parse.accept kinds >>= f).Takes (t :: ts) rest := by
  rw [Takes, accept_bind_of_mem ht]
  exact hf

theorem skip (hts : StartsOutside kinds ts) (hf : (f none).Takes ts rest) :
    (Parse.accept kinds >>= f).Takes ts rest := by
  cases ts with
  | nil => exact hts.elim
  | cons t ts =>
    rw [Takes, accept_bind_of_not_mem hts]
    exact hf

theorem closed {f : Bool → Parse β} (hts : StartsIn kinds ts) (hf : (f true).Takes ts rest) :
    (check kinds >>= f).Takes ts rest := by
  cases ts with
  | nil => exact hts.elim
  | cons t ts =>
    rw [Takes, check_bind_of_mem hts]
    exact hf

theorem entered {f : Bool → Parse β} (hts : StartsOutside kinds ts)
    (hf : (f false).Takes ts rest) : (check kinds >>= f).Takes ts rest := by
  cases ts with
  | nil => exact hts.elim
  | cons t ts =>
    rw [Takes, check_bind_of_not_mem hts]
    exact hf

theorem expect {kind : Kind} (ht : t.kind = kind) (problem : SyntaxProblem) (ts : List Token) :
    (Parse.expect kind problem).Takes (t :: ts) ts :=
  ⟨t, [], expect_of_eq ht problem ts⟩

theorem note (t : Token) (problem : SyntaxProblem) (ts : List Token) :
    (Parse.note t problem).Takes ts ts := ⟨(), [⟨t, problem⟩], rfl⟩

theorem noteSurplus (count : Nat) (surplus : SyntaxProblem) (hts : ts ≠ []) :
    (Parse.noteSurplus count surplus).Takes ts ts := by
  obtain ⟨t, ts, rfl⟩ := List.exists_cons_of_ne_nil hts
  rw [Parse.noteSurplus]
  split
  · exact bind ⟨t, [], rfl⟩ fun _ => note _ _ _
  · exact pure _ _

/-- Entries are taken if each of them is, in front of a comma or of what closes the list. -/
theorem entries {entry : Parse α} {surplus : SyntaxProblem} {ws : List (List Kind)} (hne : ws ≠ [])
    (hus : us.map Token.kind = Grammar.commaSeparated ws)
    (hentry : ∀ v ∈ ws, ∀ vs mid : List Token, vs.map Token.kind = v →
      vs.length + mid.length ≤ us.length + rest.length → StartsIn [.comma, .rightParen] mid →
        entry.Takes (vs ++ mid) mid)
    (hrest : StartsIn [.rightParen] rest) {steps : Nat} (count : Nat) (hsteps : us.length < steps) :
    (Parse.entries entry surplus steps count).Takes (us ++ rest) rest := by
  have hback : rest ≠ [] := by
    rintro rfl
    exact hrest
  obtain ⟨w, ws, rfl⟩ := List.exists_cons_of_ne_nil hne
  clear hne
  induction ws generalizing w us steps count with
  | nil =>
    obtain ⟨steps, rfl⟩ : ∃ s, steps = s + 1 := ⟨steps - 1, by omega⟩
    refine (noteSurplus _ _ (by simp [hback])).bind fun _ => ?_
    refine (hentry w (.head _) us rest hus (Nat.le_refl _) (hrest.mono (by simp))).bind fun _ => ?_
    exact skip (hrest.outside (by decide)) (pure _ _)
  | cons w' ws ih =>
    obtain ⟨us, vs, rfl, hfirst, hvs⟩ := List.map_eq_append_iff.mp hus
    obtain ⟨comma, vs, rfl, hcomma, hvs⟩ := List.map_eq_cons_iff.mp hvs
    simp only [List.length_append, List.length_cons] at hsteps hentry
    obtain ⟨steps, rfl⟩ : ∃ s, steps = s + 1 := ⟨steps - 1, by omega⟩
    rw [List.append_assoc]
    refine (noteSurplus _ _ (by simp)).bind fun _ => ?_
    refine (hentry w (.head _) us _ hfirst (by simp; omega) (by simp [hcomma])).bind fun _ => ?_
    refine accept (by simp [hcomma])
      (Takes.bind (ih (count + 1) (by omega) w' hvs ?_) fun _ => pure _ _)
    exact fun v hv vs' mid hvs' hlength => hentry v (.tail _ hv) vs' mid hvs' (by omega)

/-- A list that may be empty is told from what closes it by how its entries begin. -/
theorem entriesUnlessAt {entry : Parse α} {surplus : SyntaxProblem} {ws : List (List Kind)}
    (hus : us.map Token.kind = Grammar.commaSeparated ws)
    (hentry : ∀ v ∈ ws, ∀ vs mid : List Token, vs.map Token.kind = v →
      vs.length + mid.length ≤ us.length + rest.length → StartsIn [.comma, .rightParen] mid →
        entry.Takes (vs ++ mid) mid)
    (hbegins : ∀ v ∈ ws, Grammar.BeginsIn kinds v) (hkinds : Kind.rightParen ∉ kinds)
    (hrest : StartsIn [.rightParen] rest) {steps : Nat} (hsteps : us.length < steps) :
    (Parse.entriesUnlessAt .rightParen entry surplus steps).Takes (us ++ rest) rest := by
  cases ws with
  | nil =>
    obtain rfl := List.map_eq_nil_iff.mp hus
    exact closed hrest (pure _ _)
  | cons w ws =>
    have hopens : Grammar.BeginsIn kinds (Grammar.commaSeparated (w :: ws)) := by
      cases ws with
      | nil => exact hbegins w (.head _)
      | cons w' ws => exact (hbegins w (.head _)).append _
    refine entered (((hopens.startsIn hus).append rest).outside ?_)
      (entries (by simp) hus hentry hrest 0 hsteps)
    intro kind hkind hclosing
    exact hkinds (List.mem_singleton.mp hclosing ▸ hkind)

end Takes

/-- Behind a token that has been taken the bound may be smaller by one. -/
theorem EventuallyTakes.again (p : Nat → Parse α) {ts rest : List Token} {bound : Nat}
    (h : EventuallyTakes (fun b => p (b + 1)) ts rest) (hlt : ts.length < bound) :
    (p bound).Takes ts rest := by
  obtain ⟨bound, rfl⟩ : ∃ b, bound = b + 1 := ⟨bound - 1, by omega⟩
  exact h bound (by omega)

end Parse

end Lox
