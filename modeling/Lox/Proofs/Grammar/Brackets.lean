import Lox.Prompt.Buffer
import Lox.Proofs.Grammar.Composition
import Lox.Proofs.Grammar.Lenient
import Mathlib.Algebra.Ring.Int.Defs
import Mathlib.Data.List.Induction

/-!
# Parentheses and braces

The prompt counts how many parentheses and braces an entry leaves open. It does not tell them apart,
and its count does not go below zero. In a text that is read without a report there is no need to:
parentheses and braces are nested, each is closed by one of its own sort, and the count is the
number of those that are opened less those that are closed, wherever one stops. So nothing is open
at the end of the text, and Enter submits it as it is.

## Main definitions

* `Nested`: words in which parentheses and braces are nested.
* `Kind.turn`: what a token does to the number of open parentheses and braces.

## Main results

* `Grammar.Admits.nested`: the words of the grammar are nested.
* `Prompt.foldl_depthBehind_eq_sum`: a count that never goes below zero.
* `Prompt.enter_complete`: a text that is read without a report is submitted.
-/

namespace Lox

namespace Kind

/-- The parentheses and the braces, each opening one with the one that closes it. -/
def brackets : List (Kind × Kind) := [(leftParen, rightParen), (leftBrace, rightBrace)]

/-- What a token does to the number of parentheses and braces that are open. -/
def turn : Kind → Int
  | leftParen | leftBrace => 1
  | rightParen | rightBrace => -1
  | _ => 0

theorem turn_of_mem_brackets :
    ∀ pair ∈ brackets, pair.1.turn = 1 ∧ pair.2.turn = -1 := by decide

end Kind

/-- Words in which parentheses and braces are nested, and closed by one of their own sort. -/
inductive Nested : List Kind → Prop
  | nil : Nested []
  | plain {k : Kind} {w : List Kind} (hk : k.turn = 0) (h : Nested w) : Nested (k :: w)
  | enclosed {opening closing : Kind} {u w : List Kind} (hpair : (opening, closing) ∈ Kind.brackets)
      (hu : Nested u) (hw : Nested w) : Nested (opening :: (u ++ closing :: w))

namespace Nested

variable {u w : List Kind}

theorem append (hu : Nested u) (hw : Nested w) : Nested (u ++ w) := by
  induction hu with
  | nil => exact hw
  | plain hk _ ih => exact .plain hk ih
  | enclosed hpair hu _ _ ih =>
    rw [List.cons_append, List.append_assoc, List.cons_append]
    exact .enclosed hpair hu ih

/-- A word in parentheses, and one behind it. -/
theorem paren (hu : Nested u) (hw : Nested w) : Nested (.leftParen :: (u ++ .rightParen :: w)) :=
  .enclosed (by decide) hu hw

/-- A word in braces, and one behind it. -/
theorem brace (hu : Nested u) (hw : Nested w) : Nested (.leftBrace :: (u ++ .rightBrace :: w)) :=
  .enclosed (by decide) hu hw

/-- Two words with a token between them that is no parenthesis and no brace. -/
theorem infixed {k : Kind} (hk : k.turn = 0) (hu : Nested u) (hw : Nested w) :
    Nested (u ++ k :: w) :=
  hu.append (.plain hk hw)

theorem flatten {ws : List (List Kind)} (h : ∀ w ∈ ws, Nested w) : Nested ws.flatten := by
  induction ws with
  | nil => exact .nil
  | cons w ws ih =>
    obtain ⟨hw, hws⟩ := List.forall_mem_cons.mp h
    exact hw.append (ih hws)

theorem commaSeparated {ws : List (List Kind)} (h : ∀ w ∈ ws, Nested w) :
    Nested (Grammar.commaSeparated ws) := by
  fun_induction Grammar.commaSeparated ws with
  | case1 => exact .nil
  | case2 w => exact h w (List.mem_singleton_self w)
  | case3 w w' ws ih =>
    obtain ⟨hw, hws⟩ := List.forall_mem_cons.mp h
    exact hw.infixed rfl (ih hws)

/-- As many parentheses and braces are closed as are opened. -/
theorem sum_turn (h : Nested w) : (w.map Kind.turn).sum = 0 := by
  induction h with
  | nil => rfl
  | plain hk _ ih => rw [List.map_cons, List.sum_cons, hk, ih, Int.add_zero]
  | enclosed hpair _ _ ih ih' =>
    obtain ⟨hopening, hclosing⟩ := Kind.turn_of_mem_brackets _ hpair
    simp only [List.map_cons, List.map_append, List.sum_cons, List.sum_append, ih, ih', hopening,
      hclosing]
    rfl

/-- Nowhere have more been closed than opened. -/
theorem sum_turn_nonneg (h : Nested w) {front : List Kind} (hfront : front <+: w) :
    0 ≤ (front.map Kind.turn).sum := by
  induction h generalizing front with
  | nil => rw [List.prefix_nil.mp hfront]; exact Int.le_refl 0
  | plain hk _ ih =>
    obtain rfl | ⟨rest, rfl, hrest⟩ := List.prefix_cons_iff.mp hfront
    · exact Int.le_refl 0
    · rw [List.map_cons, List.sum_cons, hk, Int.zero_add]
      exact ih hrest
  | @enclosed opening closing u w hpair hu _ ih ih' =>
    obtain ⟨hopening, hclosing⟩ := Kind.turn_of_mem_brackets _ hpair
    obtain rfl | ⟨inner, rfl, back, hback⟩ := List.prefix_cons_iff.mp hfront
    · exact Int.le_refl 0
    · rw [List.map_cons, List.sum_cons, hopening]
      obtain ⟨mid, hmid, -⟩ | ⟨mid, rfl, hmid⟩ := List.append_eq_append_iff.mp hback
      · -- the word is left between the two, where one more is open
        have hinside := ih ⟨mid, hmid.symm⟩
        omega
      · rw [List.map_append, List.sum_append, hu.sum_turn]
        obtain rfl | ⟨rest, rfl, hrest⟩ := List.prefix_cons_iff.mp ⟨back, hmid.symm⟩
        · decide
        · -- the closing one takes back what the opening one has added
          have hbehind := ih' hrest
          rw [List.map_cons, List.sum_cons, hclosing]
          omega

end Nested

/-! ### The words of the grammar -/

namespace Grammar

/-- A symbol that stands for tiers of the grammar, if it stands for tiers. -/
def Symbol.IsProper : Symbol → Prop
  | tier levels => levels ⊆ operators
  | _ => True

theorem turn_of_mem_operators : ∀ level ∈ operators, ∀ k ∈ level, k.turn = 0 := by decide

theorem turn_of_mem_constants :
    ∀ k ∈ [Kind.kwFalse, .kwTrue, .kwNil, .number, .string, .identifier], k.turn = 0 := by decide

/-- Parentheses and braces are nested in the words of the grammar. -/
theorem Admits.nested {s : Symbol} {w : List Kind} (h : Admits s w) (hs : s.IsProper) :
    Nested w := by
  have hoperators : operators ⊆ operators := List.Subset.refl operators
  have hone {k : Kind} (hk : k.turn = 0) : Nested [k] := .plain hk .nil
  induction h with
  | program _ ih => exact .flatten fun w hw => ih w hw trivial
  | function _ ih =>
    have hparams (count : Nat) : Nested (commaSeparated (List.replicate count [.identifier])) :=
      .commaSeparated fun w hw => List.eq_of_mem_replicate hw ▸ hone rfl
    exact .plain rfl (.plain rfl (.paren (hparams _) (.brace (ih trivial) .nil)))
  | declared _ ih | stated _ ih | declaredFirst _ ih | clause _ ih | choice _ ih | tight _ ih
  | atom _ ih => exact ih trivial
  | bare => exact .plain rfl (.plain rfl (hone rfl))
  | initialized _ ih => exact .plain rfl (.plain rfl (.plain rfl ((ih trivial).infixed rfl .nil)))
  | @forLoop i c e w _ _ _ _ hi hc he hw =>
    -- the clauses are one word in parentheses
    have hclauses : Nested (i ++ (c ++ .semicolon :: e)) :=
      (hi trivial).append ((hc trivial).infixed rfl (he trivial))
    have hloop := hclauses.paren (hw trivial)
    simp only [List.append_assoc, List.cons_append] at hloop
    exact .plain rfl hloop
  | whileLoop _ _ ih ih' | branch _ _ ih ih' => exact .plain rfl ((ih trivial).paren (ih' trivial))
  | branchElse _ _ _ ih ih' ih'' =>
    exact .plain rfl ((ih trivial).paren ((ih' trivial).infixed rfl (ih'' trivial)))
  | print _ ih | returning _ ih => exact .plain rfl ((ih trivial).infixed rfl .nil)
  | block _ ih => exact (ih trivial).brace .nil
  | evaluated _ ih | evaluatedFirst _ ih => exact (ih trivial).infixed rfl .nil
  | noInitializer => exact hone rfl
  | noClause => exact .nil
  | assignment _ _ ih ih' => exact (ih trivial).infixed rfl (ih' trivial)
  | ternary _ _ _ ih ih' ih'' =>
    exact (ih hoperators).infixed rfl ((ih' trivial).infixed rfl (ih'' trivial))
  | joins _ ih => exact ih hoperators
  | join _ hk _ ih ih' =>
    obtain ⟨hlevel, hlevels⟩ := List.cons_subset.mp hs
    exact (ih hs).infixed (turn_of_mem_operators _ hlevel _ hk) (ih' hlevels)
  | tighter _ ih => exact ih (List.cons_subset.mp hs).2
  | operand _ ih => exact ih trivial
  | unary hk _ ih =>
    have hplain : ∀ k ∈ [Kind.bang, .minus], k.turn = 0 := by decide
    exact .plain (hplain _ hk) (ih trivial)
  | call _ _ ih ih' =>
    exact (ih trivial).append (.paren (.commaSeparated fun w hw => ih' w hw trivial) .nil)
  | constant hk => exact hone (turn_of_mem_constants _ hk)
  | grouping _ ih => exact (ih trivial).paren .nil

end Grammar

/-- A text that is read without a report, as a program or as an expression, is nested. -/
theorem Scan.nested_words {text : String}
    (h : (Program.ofText text).diagnostics = [] ∨
      (∃ n, (Fragment.ofText text).expression = some n) ∧ (Fragment.ofText text).diagnostics = []) :
    Nested ((words text).map Token.kind) := by
  obtain hprogram | ⟨⟨n, hn⟩, hclean⟩ := h
  · exact (Program.spells_of_diagnostics hprogram).2.derives.admits.nested trivial
  · exact (Fragment.spells_of_diagnostics hn hclean).2.derives.admits.nested trivial

/-! ### The count at the prompt -/

namespace Prompt

/-- One step of the count, where it does not have to stop at zero. -/
theorem depthBehind_eq {depth : Nat} {t : Token} (h : 0 ≤ depth + t.kind.turn) :
    (depthBehind depth t : Int) = depth + t.kind.turn := by
  unfold depthBehind
  revert h
  cases t.kind <;> simp only [Kind.turn] <;> intro h <;> omega

/-- Where no more parentheses and braces are closed than opened, the count is the number of those
opened less those closed. -/
theorem foldl_depthBehind_eq_sum {ts : List Token}
    (h : ∀ front, front <+: ts → 0 ≤ (front.map (·.kind.turn)).sum) :
    ((ts.foldl depthBehind 0 : Nat) : Int) = (ts.map (·.kind.turn)).sum := by
  induction ts using List.reverseRecOn with
  | nil => rfl
  | append_singleton ts t ih =>
    have hall := h (ts ++ [t]) (List.prefix_refl _)
    have hfront := ih fun front hfront => h front (hfront.trans (List.prefix_append ts [t]))
    rw [List.map_append, List.sum_append, List.map_singleton, List.sum_singleton, ← hfront] at hall ⊢
    rw [List.foldl_append]
    exact depthBehind_eq hall

/-- A text that is read without a report, as a program or as an expression. Its parentheses and
braces are nested, each closed by one of its own sort; the count of those that are open is at each
token the number of those opened so far less those closed, so that it would not go below zero; and
it is zero at the end. So Enter submits the text, and leaves the buffer as it is. -/
theorem enter_complete {text : String}
    (h : (Program.ofText text).diagnostics = [] ∨
      (∃ n, (Fragment.ofText text).expression = some n) ∧ (Fragment.ofText text).diagnostics = []) :
    Nested ((Scan.ofText text).tokens.map Token.kind) ∧
      (∀ front, front <+: (Scan.ofText text).tokens →
        ((front.foldl depthBehind 0 : Nat) : Int) = (front.map (·.kind.turn)).sum) ∧
      openDepth text = 0 ∧
      ∀ b : Buffer, b.text = text → b.enter = ⟨b, some text, false⟩ := by
  have hnested : Nested ((Scan.ofText text).tokens.map Token.kind) := by
    rw [Scan.tokens_ofText, List.map_append]
    exact (Scan.nested_words h).append (.plain rfl .nil)
  have hturns (front : List Token) :
      front.map (·.kind.turn) = (front.map Token.kind).map Kind.turn := by
    rw [List.map_map]
    rfl
  have hnonneg (front : List Token) (hfront : front <+: (Scan.ofText text).tokens) :
      0 ≤ (front.map (·.kind.turn)).sum := by
    rw [hturns]
    exact hnested.sum_turn_nonneg (hfront.map Token.kind)
  have hcount (front : List Token) (hfront : front <+: (Scan.ofText text).tokens) :
      ((front.foldl depthBehind 0 : Nat) : Int) = (front.map (·.kind.turn)).sum :=
    foldl_depthBehind_eq_sum fun front' hfront' => hnonneg front' (hfront'.trans hfront)
  have hdepth : openDepth text = 0 := by
    have hend := hcount _ (List.prefix_refl _)
    rw [hturns, hnested.sum_turn] at hend
    exact Int.ofNat_eq_zero.mp hend
  refine ⟨hnested, hcount, hdepth, fun b hb => ?_⟩
  rw [Buffer.enter, hb, if_pos (.inr hdepth)]

/-- Brackets in a string and in a comment do not count. -/
def bracketed : String := "fun f(a) \x7b print \"(\"; /* \x7d */ \x7d f((1));"

theorem enter_complete_bracketed :
    (Program.ofText bracketed).diagnostics = [] ∧ openDepth bracketed = 0 ∧
      (Buffer.ofText bracketed 3).enter = ⟨Buffer.ofText bracketed 3, some bracketed, false⟩ ∧
      (Fragment.ofText "(1 + f(2)) // (").diagnostics = [] ∧ openDepth "(1 + f(2)) // (" = 0 := by
  have hprogram : (Program.ofText bracketed).diagnostics = [] := by decide +kernel
  obtain ⟨-, -, hdepth, henter⟩ := enter_complete (.inl hprogram)
  have hbuffer : (Buffer.ofText bracketed 3).text = bracketed := by decide +kernel
  obtain ⟨n, hn⟩ : ∃ n, (Fragment.ofText "(1 + f(2)) // (").expression = some n :=
    Option.isSome_iff_exists.mp (by decide +kernel)
  have hclean : (Fragment.ofText "(1 + f(2)) // (").diagnostics = [] := by decide +kernel
  have hfragment := enter_complete (.inr ⟨⟨n, hn⟩, hclean⟩)
  exact ⟨hprogram, hdepth, henter _ hbuffer, hclean, hfragment.2.2.1⟩

end Prompt

end Lox
