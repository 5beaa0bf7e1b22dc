import Lox.Proofs.Number.Writing
import Mathlib.Tactic.FieldSimp
import Mathlib.Tactic.Ring

/-!
# Intervals of doubles

The decimals that round to a double lie in an interval around it. The intervals of different
doubles have at most an end in common, a midpoint of neighbours, and of two neighbours one has an
odd mantissa and does not include its ends. So a decimal rounds to one double, and the shortest
decimal of a double tells which double it is.

## Main definitions

* `Decimal.Binary.lower`, `Decimal.Binary.upper`: the ends of the interval of a double.
* `Decimal.Binary.IsCanonical`: mantissa and exponent as they are read off the bits of a double.

## Main results

* `Decimal.Binary.Rounds.unique`: a number rounds to one double.
* `Decimal.Binary.rounds_shortest`: the shortest decimal of a double rounds to it.
-/

namespace Lox.Decimal.Binary

/-! ### Comparisons -/

theorem zpow_mul_pow_toNat {b : ℚ} (hb : b ≠ 0) (i : ℤ) : b ^ i * b ^ (-i).toNat = b ^ i.toNat := by
  rw [← zpow_natCast, ← zpow_natCast, ← zpow_add₀ hb]
  congr 1
  omega

section Comparisons

variable (a b : ℕ) (i k : ℤ)

/-- Both sides are multiplied by the same powers, so that they are whole numbers. -/
theorem exists_scale : ∃ c : ℚ, 0 < c ∧
    ((a * Nat.pow 2 i.toNat * Nat.pow 10 (-k).toNat : ℕ) : ℚ) = a * 2 ^ i * c ∧
    ((b * Nat.pow 10 k.toNat * Nat.pow 2 (-i).toNat : ℕ) : ℚ) = b * 10 ^ k * c := by
  refine ⟨2 ^ (-i).toNat * 10 ^ (-k).toNat, by positivity, ?_, ?_⟩
  · have hpow := zpow_mul_pow_toNat (b := 2) (by norm_num) i
    push_cast [Nat.pow_eq]
    rw [← hpow]
    ring
  · have hpow := zpow_mul_pow_toNat (b := 10) (by norm_num) k
    push_cast [Nat.pow_eq]
    rw [← hpow]
    ring

/-- What is compared are the numbers. -/
theorem compareScaled_eq :
    compareScaled a i b k = cmp (a * 2 ^ i : ℚ) (b * 10 ^ k) := by
  obtain ⟨c, hc, hleft, hright⟩ := exists_scale a b i k
  rw [compareScaled, ← cmp_eq_compare, ← (Nat.strictMono_cast (α := ℚ)).cmp_map_eq, hleft, hright,
    cmp_mul_pos_right hc]

theorem compareScaled_eq_lt_iff :
    compareScaled a i b k = .lt ↔ (a * 2 ^ i : ℚ) < b * 10 ^ k := by
  rw [compareScaled_eq, cmp_eq_lt_iff]

theorem compareScaled_eq_gt_iff :
    compareScaled a i b k = .gt ↔ (b * 10 ^ k : ℚ) < a * 2 ^ i := by
  rw [compareScaled_eq, cmp_eq_gt_iff]

end Comparisons

/-! ### Intervals -/

/-- The lower end of the interval of a double. -/
def lower (x : Binary) : ℚ := (4 * x.mantissa - x.lowerQuarters : ℕ) * 2 ^ (x.exponent - 2)

/-- The upper end of the interval of a double. -/
def upper (x : Binary) : ℚ := (4 * x.mantissa + 2 : ℕ) * 2 ^ (x.exponent - 2)

/-- The ends belong to the interval if the mantissa is even. -/
theorem rounds_iff (x : Binary) (d : Decimal) : x.Rounds d ↔
    if x.mantissa % 2 = 0 then x.lower ≤ d.value ∧ d.value ≤ x.upper
    else x.lower < d.value ∧ d.value < x.upper := by
  simp only [Rounds, compareScaled_eq_lt_iff, compareScaled_eq_gt_iff, ne_eq, not_lt]
  rfl

/-! ### Doubles -/

/-- Mantissa and exponent as they are read off the bits of a finite double: the mantissa has 53
bits, fewer only among the smallest doubles. -/
structure IsCanonical (x : Binary) : Prop where
  mantissa_lt : x.mantissa < 2 ^ 53
  least_le : leastExponent ≤ x.exponent
  full : x.exponent = leastExponent ∨ powerMantissa ≤ x.mantissa

section Canonical

variable {x y : Binary}

theorem lowerQuarters_le (x : Binary) : 1 ≤ x.lowerQuarters ∧ x.lowerQuarters ≤ 2 := by
  rw [lowerQuarters]
  split <;> decide

/-- In units of the lower double, the interval of the higher one begins where that of the lower one
ends, or behind it. -/
theorem quarters_le (hx : x.IsCanonical) (hy : y.IsCanonical) (k : ℕ)
    (hexponent : y.exponent = x.exponent + k) (hmantissa : k = 0 → x.mantissa < y.mantissa) :
    4 * x.mantissa + 2 ≤ (4 * y.mantissa - y.lowerQuarters) * 2 ^ k ∧
      (4 * x.mantissa + 2 = (4 * y.mantissa - y.lowerQuarters) * 2 ^ k →
        x.mantissa % 2 = 1 ∨ y.mantissa % 2 = 1) := by
  have hquarters := lowerQuarters_le y
  cases k with
  | zero =>
    have hless := hmantissa rfl
    omega
  | succ k =>
    have hbound := hx.mantissa_lt
    have hleast := hx.least_le
    have hfull : powerMantissa ≤ y.mantissa := hy.full.resolve_left (by omega)
    have hlow : 2 ^ 54 - 1 ≤ 4 * y.mantissa - y.lowerQuarters := by
      by_cases hpower : y.mantissa = powerMantissa
      · rw [lowerQuarters, if_pos ⟨hpower, by omega⟩, hpower]
        decide
      · have hmore : powerMantissa < y.mantissa := lt_of_le_of_ne hfull (Ne.symm hpower)
        have hvalue : powerMantissa = 2 ^ 52 := rfl
        omega
    have hscaled : (2 ^ 54 - 1) * 2 ≤ (4 * y.mantissa - y.lowerQuarters) * 2 ^ (k + 1) :=
      Nat.mul_le_mul hlow (Nat.le_self_pow (Nat.succ_ne_zero k) 2)
    omega

/-- No number rounds to two doubles of which one is higher. -/
theorem not_rounds_of_higher (hx : x.IsCanonical) (hy : y.IsCanonical) {d d' : Decimal}
    (hvalue : d.value = d'.value) (hrounds : x.Rounds d) (hrounds' : y.Rounds d') (k : ℕ)
    (hexponent : y.exponent = x.exponent + k) : ¬ (k = 0 → x.mantissa < y.mantissa) := by
  intro hmantissa
  obtain ⟨hle, hodd⟩ := quarters_le hx hy k hexponent hmantissa
  have hunit : (0 : ℚ) < 2 ^ (x.exponent - 2) := by positivity
  have hlower : y.lower
      = ((4 * y.mantissa - y.lowerQuarters) * 2 ^ k : ℕ) * 2 ^ (x.exponent - 2) := by
    have hpower : (2 : ℚ) ^ (y.exponent - 2) = 2 ^ k * 2 ^ (x.exponent - 2) := by
      rw [← zpow_natCast, ← zpow_add₀ (by norm_num)]
      congr 1
      omega
    rw [lower, hpower, Nat.cast_mul, Nat.cast_pow, mul_assoc]
    rfl
  have hends : x.upper ≤ y.lower := by
    rw [hlower, upper, mul_le_mul_iff_left₀ hunit]
    exact_mod_cast hle
  rw [rounds_iff] at hrounds hrounds'
  -- neither end is above the other, so they are the same, and one of the mantissas is odd
  have hupper : d.value ≤ x.upper := by
    split at hrounds
    · exact hrounds.2
    · exact hrounds.2.le
  have hlow : y.lower ≤ d'.value := by
    split at hrounds'
    · exact hrounds'.1
    · exact hrounds'.1.le
  have hsame : x.upper = y.lower := le_antisymm hends (by linarith)
  have hnat : 4 * x.mantissa + 2 = (4 * y.mantissa - y.lowerQuarters) * 2 ^ k := by
    rw [hlower, upper, mul_left_inj' hunit.ne'] at hsame
    exact_mod_cast hsame
  obtain hx | hy := hodd hnat
  · rw [if_neg (by omega)] at hrounds
    linarith [hrounds.2]
  · rw [if_neg (by omega)] at hrounds'
    linarith [hrounds'.1]

/-- A number rounds to one double. -/
theorem Rounds.unique (hx : x.IsCanonical) (hy : y.IsCanonical) {d d' : Decimal}
    (hvalue : d.value = d'.value) (hrounds : x.Rounds d) (hrounds' : y.Rounds d') : x = y := by
  have hsmaller {x y : Binary} (hx : x.IsCanonical) (hy : y.IsCanonical) {d d' : Decimal}
      (hvalue : d.value = d'.value) (hrounds : x.Rounds d) (hrounds' : y.Rounds d') :
      ¬ (x.exponent < y.exponent ∨ x.exponent = y.exponent ∧ x.mantissa < y.mantissa) := by
    intro hless
    refine not_rounds_of_higher hx hy hvalue hrounds hrounds' (y.exponent - x.exponent).toNat
      (by omega) fun _ => ?_
    omega
  have hnot := hsmaller hx hy hvalue hrounds hrounds'
  have hnot' := hsmaller hy hx hvalue.symm hrounds' hrounds
  obtain ⟨m, e⟩ := x
  obtain ⟨m', e'⟩ := y
  simp only [Binary.mk.injEq]
  simp only at hnot hnot'
  omega

/-! ### Shortest decimals -/

theorem rounds_of_onGrid? {k : ℤ} {d : Decimal} (h : x.onGrid? k = some d) : x.Rounds d := by
  simp only [onGrid?] at h
  split at h
  · rename_i hbelow
    split at h
    · rename_i habove
      split at h
      · cases h
        exact hbelow
      · cases h
        exact habove
      · split at h <;> cases h
        · exact hbelow
        · exact habove
    · cases h
      exact hbelow
  · split at h
    · rename_i habove
      cases h
      exact habove
    · cases h

theorem value_exact (x : Binary) : x.exact.value = x.mantissa * 2 ^ x.exponent := by
  obtain ⟨m, e⟩ := x
  rw [exact]
  split
  · rename_i h
    obtain ⟨k, rfl⟩ := Int.eq_ofNat_of_zero_le h
    simp [value]
  · rename_i h
    obtain ⟨k, hk⟩ := Int.eq_ofNat_of_zero_le (a := -e) (by simp only at h; omega)
    obtain rfl : e = -k := by omega
    have hten : (10 : ℚ) ^ k = 5 ^ k * 2 ^ k := by
      rw [← mul_pow]
      norm_num
    simp only [value, neg_neg, Int.toNat_natCast, Nat.pow_eq, Nat.cast_mul, Nat.cast_pow,
      Nat.cast_ofNat, zpow_neg, zpow_natCast, hten, mul_inv]
    field_simp

/-- A number lies inside its interval. -/
theorem rounds_exact (hpos : 0 < x.mantissa) : x.Rounds x.exact := by
  have hunit : (0 : ℚ) < 2 ^ (x.exponent - 2) := by positivity
  have hvalue : x.exact.value = (4 * x.mantissa : ℕ) * 2 ^ (x.exponent - 2) := by
    rw [value_exact, zpow_sub₀ (by norm_num)]
    push_cast
    ring
  have hquarters := lowerQuarters_le x
  have hlower : x.lower < x.exact.value := by
    rw [hvalue, lower, mul_lt_mul_iff_left₀ hunit, Nat.cast_lt]
    omega
  have hupper : x.exact.value < x.upper := by
    rw [hvalue, upper, mul_lt_mul_iff_left₀ hunit, Nat.cast_lt]
    omega
  rw [rounds_iff]
  split
  · exact ⟨hlower.le, hupper.le⟩
  · exact ⟨hlower, hupper⟩

/-- The shortest decimal of a double rounds to it. -/
theorem rounds_shortest (hpos : 0 < x.mantissa) : x.Rounds x.shortest := by
  rw [shortest]
  cases hfound : (List.range 18).findSome?
      fun (places : Nat) => x.onGrid? (x.leadingPlaces - places) with
  | none => exact rounds_exact hpos
  | some d =>
    obtain ⟨places, -, hplaces⟩ := List.exists_of_findSome?_eq_some hfound
    exact rounds_of_onGrid? hplaces

/-- What rounds to a double above zero is above zero. -/
theorem Rounds.value_pos (hpos : 0 < x.mantissa) {d : Decimal} (h : x.Rounds d) :
    0 < d.value := by
  have hquarters := lowerQuarters_le x
  have hlower : 0 < x.lower :=
    mul_pos (Nat.cast_pos.mpr (by omega)) (by positivity)
  rw [rounds_iff] at h
  split at h
  · exact lt_of_lt_of_le hlower h.1
  · exact hlower.trans h.1

end Canonical

end Lox.Decimal.Binary
