import Lox.Decimal.Shortest
import Lox.Proofs.Token.Lexeme
import Mathlib.Algebra.Order.Field.Rat
import Mathlib.Algebra.Order.Field.Power
import Mathlib.Tactic.Linarith
import Mathlib.Tactic.Positivity

/-!
# Written decimals

A decimal is written as a numeral, where positional writing ends with a power of ten behind it.
Which of the two it is depends on its size, but the number can be told from the text alone.

## Main definitions

* `Decimal.value`: the number that a decimal is.
* `Writes`: the texts that write a number.

## Main results

* `Decimal.writes_write`: the written form of a decimal writes its number.
* `Writes.unique`: a text writes one number.
-/

namespace Lox

open Piece

/-! ### Digits -/

theorem isDigit_of_mem_toDigits {n : Nat} {c : Char} (h : c ∈ Nat.toDigits 10 n) :
    isDigit c = true := by
  have hdigit := Nat.isDigit_of_mem_toDigits (by decide) (by decide) h
  simpa [Char.isDigit, isDigit, Char.le_def] using hdigit

theorem isDigits_toDigits (n : Nat) : IsDigits (Nat.toDigits 10 n) :=
  ⟨Nat.toDigits_ne_nil, fun _ => isDigit_of_mem_toDigits⟩

theorem isDigit_of_mem_zeros {n : Nat} {c : Char} (h : c ∈ List.replicate n '0') :
    isDigit c = true := by
  rw [List.eq_of_mem_replicate h]
  rfl

theorem IsDigits.exists_last {cs : List Char} (h : IsDigits cs) :
    ∃ front c, cs = front ++ [c] ∧ isDigit c = true :=
  ⟨cs.dropLast, cs.getLast h.1, (List.dropLast_append_getLast h.1).symm,
    h.2 _ (List.getLast_mem h.1)⟩

namespace Decimal

theorem digitsValue_eq (cs : List Char) : digitsValue cs = Nat.ofDigitChars 10 cs 0 := rfl

theorem digitsValue_toDigits (n : Nat) : digitsValue (Nat.toDigits 10 n) = n := by
  rw [digitsValue_eq, Nat.ofDigitChars_ten_toDigits]

theorem digitsValue_append_zeros (cs : List Char) (n : Nat) :
    digitsValue (cs ++ List.replicate n '0') = digitsValue cs * 10 ^ n := by
  rw [digitsValue_eq, Nat.ofDigitChars_append, Nat.ofDigitChars_replicate_zero, Nat.mul_comm]
  rfl

theorem digitsValue_zeros_append (n : Nat) (cs : List Char) :
    digitsValue (List.replicate n '0' ++ cs) = digitsValue cs := by
  rw [digitsValue_eq, Nat.ofDigitChars_append, Nat.ofDigitChars_replicate_zero, Nat.mul_zero]
  rfl

/-! ### Numbers -/

/-- The number that a decimal is. -/
def value (d : Decimal) : ℚ := d.digits * 10 ^ d.exponent

theorem value_ofPlaces (whole fraction : List Char) : (ofPlaces whole fraction).value
    = digitsValue (whole ++ fraction) * 10 ^ (-(fraction.length : ℤ)) := rfl

/-- The sign of a written exponent and its digits. -/
theorem exists_writeExponent (e : ℤ) : ∃ cs, writeExponent e
      = (if e < 0 then '-' else '+') :: cs ∧ IsDigits cs ∧ digitsValue cs = e.natAbs := by
  refine ⟨_, rfl, ?_⟩
  split
  · refine ⟨⟨List.cons_ne_nil _ _, List.forall_mem_cons.mpr
      ⟨rfl, (isDigits_toDigits _).2⟩⟩, ?_⟩
    exact (digitsValue_zeros_append 1 _).trans (digitsValue_toDigits _)
  · exact ⟨isDigits_toDigits _, digitsValue_toDigits _⟩

theorem not_mem_writeExponent (e : ℤ) : 'e' ∉ writeExponent e := by
  obtain ⟨cs, hwrite, hdigits, -⟩ := exists_writeExponent e
  rw [hwrite]
  intro hmem
  obtain hsign | hmem := List.mem_cons.mp hmem
  · split at hsign <;> exact absurd hsign (by decide)
  · exact absurd (hdigits.2 _ hmem) (by decide)

theorem writeExponent_injective : Function.Injective writeExponent := by
  intro e e' h
  obtain ⟨cs, hwrite, -, hvalue⟩ := exists_writeExponent e
  obtain ⟨cs', hwrite', -, hvalue'⟩ := exists_writeExponent e'
  rw [hwrite, hwrite'] at h
  obtain ⟨hsign, rfl⟩ := List.cons.inj h
  have habs : e.natAbs = e'.natAbs := hvalue.symm.trans hvalue'
  split at hsign <;> split at hsign
  · omega
  · exact absurd hsign (by decide)
  · exact absurd hsign (by decide)
  · omega

end Decimal

/-- The texts that write a number: a numeral, with a power of ten behind it or without. -/
inductive Writes : List Char → ℚ → Prop
  | positional {cs : List Char} {d : Decimal} : Numeral cs d → Writes cs d.value
  | scientific {cs : List Char} {d : Decimal} (e : ℤ) : Numeral cs d →
      Writes (cs ++ 'e' :: Decimal.writeExponent e) (d.value * 10 ^ e)

namespace Writes

theorem not_mem_numeral {cs : List Char} {d : Decimal} (h : Numeral cs d) : 'e' ∉ cs := by
  intro hmem
  obtain hdigit | hpoint := h.isDigit_or_point _ hmem
  · exact absurd hdigit (by decide)
  · exact absurd hpoint (by decide)

/-- A text writes one number. -/
theorem unique {cs : List Char} {v v' : ℚ} (h : Writes cs v) (h' : Writes cs v') : v = v' := by
  generalize hsame : cs = cs' at h'
  cases h with
  | positional h =>
    cases h' with
    | positional h' =>
      subst hsame
      rw [h.unique h']
    | scientific e h' =>
      refine absurd ?_ (not_mem_numeral h)
      simp [hsame]
  | scientific e h =>
    cases h' with
    | positional h' =>
      refine absurd ?_ (not_mem_numeral h')
      simp [← hsame]
    | scientific e' h' =>
      obtain ⟨rfl, -, hexponent⟩ := (List.append_cons_inj_of_notMem (not_mem_numeral h)
        (Decimal.not_mem_writeExponent e)).mp hsame
      rw [h.unique h', Decimal.writeExponent_injective hexponent]

/-- The first character of a written number is a digit. -/
theorem exists_cons {cs : List Char} {v : ℚ} (h : Writes cs v) :
    ∃ c rest, cs = c :: rest ∧ isDigit c = true := by
  cases h with
  | positional h => exact h.exists_cons
  | scientific e h =>
    obtain ⟨c, rest, rfl, hc⟩ := h.exists_cons
    exact ⟨c, _, rfl, hc⟩

/-- The last character of a written number is a digit. -/
theorem exists_last {cs : List Char} {v : ℚ} (h : Writes cs v) :
    ∃ front c, cs = front ++ [c] ∧ isDigit c = true := by
  cases h with
  | positional h =>
    cases h with
    | whole h => exact h.exists_last
    | @fraction whole _ _ h =>
      obtain ⟨front, c, rfl, hc⟩ := h.exists_last
      exact ⟨whole ++ '.' :: front, c, by simp, hc⟩
  | @scientific cs _ e _ =>
    obtain ⟨digits, hwrite, hdigits, -⟩ := Decimal.exists_writeExponent e
    obtain ⟨front, c, rfl, hc⟩ := hdigits.exists_last
    exact ⟨cs ++ 'e' :: (if e < 0 then '-' else '+') :: front, c, by simp [hwrite], hc⟩

theorem isDigit_or_mark {cs : List Char} {v : ℚ} (h : Writes cs v) :
    ∀ c ∈ cs, isDigit c = true ∨ c ∈ ['.', 'e', '+', '-'] := by
  intro c hc
  cases h with
  | positional h => exact (h.isDigit_or_point c hc).imp_right (by rintro rfl; decide)
  | scientific e h =>
    obtain ⟨digits, hwrite, hdigits, -⟩ := Decimal.exists_writeExponent e
    rw [hwrite] at hc
    obtain hc | hc := List.mem_append.mp hc
    · exact (h.isDigit_or_point c hc).imp_right (by rintro rfl; decide)
    obtain rfl | hc := List.mem_cons.mp hc
    · exact .inr (by decide)
    obtain rfl | hc := List.mem_cons.mp hc
    · right
      split <;> decide
    · exact .inl (hdigits.2 c hc)

end Writes

namespace Decimal

/-- Digits with as many zeros behind them as a power of ten has. -/
theorem writes_whole (n e : ℕ) :
    Writes (Nat.toDigits 10 n ++ List.replicate e '0') (n * 10 ^ (e : ℤ)) := by
  have hdigits : IsDigits (Nat.toDigits 10 n ++ List.replicate e '0') :=
    ⟨List.append_ne_nil_of_left_ne_nil Nat.toDigits_ne_nil _,
      List.forall_mem_append.mpr ⟨(isDigits_toDigits n).2, fun _ => isDigit_of_mem_zeros⟩⟩
  have hwrites := Writes.positional (.whole hdigits)
  rw [value_ofPlaces, List.append_nil, digitsValue_append_zeros, digitsValue_toDigits] at hwrites
  simpa using hwrites

/-- Digits behind a point and some zeros. -/
theorem writes_small (n zeros : ℕ) :
    Writes ('0' :: '.' :: (List.replicate zeros '0' ++ Nat.toDigits 10 n))
      (n * 10 ^ (-(zeros + (Nat.toDigits 10 n).length : ℤ))) := by
  have hdigits : IsDigits (List.replicate zeros '0' ++ Nat.toDigits 10 n) :=
    ⟨List.append_ne_nil_of_right_ne_nil _ Nat.toDigits_ne_nil,
      List.forall_mem_append.mpr ⟨fun _ => isDigit_of_mem_zeros, (isDigits_toDigits n).2⟩⟩
  have hzero : IsDigits ['0'] := ⟨List.cons_ne_nil _ _, List.forall_mem_singleton.mpr rfl⟩
  have hwrites := Writes.positional (.fraction hzero hdigits)
  have hvalue : digitsValue (['0'] ++ (List.replicate zeros '0' ++ Nat.toDigits 10 n)) = n := by
    rw [← List.append_assoc, ← List.replicate_one, List.replicate_append_replicate,
      digitsValue_zeros_append, digitsValue_toDigits]
  rw [value_ofPlaces, hvalue] at hwrites
  simpa using hwrites

/-- Digits with a point between them. -/
theorem numeral_of_take {n k : ℕ} (hpos : 0 < k) (hless : k < (Nat.toDigits 10 n).length) :
    Numeral ((Nat.toDigits 10 n).take k ++ '.' :: (Nat.toDigits 10 n).drop k)
      ⟨n, -((Nat.toDigits 10 n).length - k : ℕ)⟩ := by
  have hfront : IsDigits ((Nat.toDigits 10 n).take k) :=
    ⟨by simp [List.take_eq_nil_iff, hpos.ne'], fun _ hc => isDigit_of_mem_toDigits
      (List.mem_of_mem_take hc)⟩
  have hback : IsDigits ((Nat.toDigits 10 n).drop k) :=
    ⟨by simpa [List.drop_eq_nil_iff] using hless, fun _ hc => isDigit_of_mem_toDigits
      (List.mem_of_mem_drop hc)⟩
  have hnumeral := Numeral.fraction hfront hback
  rwa [ofPlaces, List.take_append_drop, digitsValue_toDigits, List.length_drop] at hnumeral

/-- The written form of a decimal writes its number. -/
theorem writes_write (d : Decimal) : Writes (d.write .plain) d.value := by
  obtain ⟨n, e⟩ := d
  have hlength : 0 < (Nat.toDigits 10 n).length := Nat.length_toDigits_pos
  simp only [write, Layout.plain, Bool.false_eq_true, if_false, List.append_nil]
  split_ifs with hpositional hwhole hsmall hone
  · obtain ⟨k, rfl⟩ := Int.eq_ofNat_of_zero_le hwhole
    exact writes_whole n k
  · have hwrites := writes_small n (-((Nat.toDigits 10 n).length + e)).toNat
    rwa [Int.toNat_of_nonneg (by omega), show -(-((Nat.toDigits 10 n).length + e : ℤ)
      + (Nat.toDigits 10 n).length) = e by omega] at hwrites
  · have hnumeral := numeral_of_take (n := n)
      (k := ((Nat.toDigits 10 n).length + e).toNat) (by omega) (by omega)
    have hexponent : -(((Nat.toDigits 10 n).length - ((Nat.toDigits 10 n).length + e).toNat : ℕ) : ℤ)
        = e := by omega
    rw [hexponent] at hnumeral
    exact .positional hnumeral
  · have hwrites := Writes.scientific e (.whole (isDigits_toDigits n))
    rw [value_ofPlaces, List.append_nil, digitsValue_toDigits] at hwrites
    have hexponent : ((Nat.toDigits 10 n).length + e - 1 : ℤ) = e := by omega
    rw [List.take_of_length_le hone, List.append_nil, hexponent]
    simpa [value] using hwrites
  · have hwrites := Writes.scientific ((Nat.toDigits 10 n).length + e - 1)
      (numeral_of_take (n := n) (k := 1) Nat.one_pos (by omega))
    rw [value, mul_assoc, ← zpow_add₀ (by norm_num)] at hwrites
    have hexponent : -(((Nat.toDigits 10 n).length - 1 : ℕ) : ℤ)
        + ((Nat.toDigits 10 n).length + e - 1) = e := by omega
    rw [hexponent] at hwrites
    exact hwrites

end Decimal

end Lox
