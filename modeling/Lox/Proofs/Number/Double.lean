import Lox.Proofs.Number.Rounding

/-!
# Texts of doubles

The text of a finite double is its sign and its shortest decimal. The sign is the first character,
or there is none; the decimal tells magnitude from magnitude. So two finite doubles with one text
are one double.

## Main results

* `Number.write_injective`: a finite double can be told from its text.
* `Number.isNaN_toFloat`: the double nearest to a decimal is a number, if an infinite one.
-/

namespace Lox

open Piece

/-! ### Magnitudes -/

namespace Decimal.Binary

theorem isCanonical_ofBits (bits : UInt64) : (ofBits bits).IsCanonical := by
  have hfraction : bits.toNat % Nat.pow 2 52 < 2 ^ 52 := Nat.mod_lt _ (by decide)
  rw [ofBits]
  split
  · exact ⟨by simp only; omega, le_refl _, .inl rfl⟩
  · rename_i hfield
    refine ⟨?_, ?_, .inr (Nat.le_add_right _ _)⟩
    · simp only [show powerMantissa = 2 ^ 52 from rfl]
      omega
    · simp only
      omega

/-- All bits but the sign are in the magnitude. -/
theorem mod_eq_of_ofBits_eq {bits bits' : UInt64} (h : ofBits bits = ofBits bits') :
    bits.toNat % 2 ^ 63 = bits'.toNat % 2 ^ 63 := by
  have hpower : powerMantissa = 2 ^ 52 := rfl
  simp only [ofBits, Nat.pow_eq] at h
  split at h <;> split at h <;> simp only [Binary.mk.injEq, hpower] at h <;> omega

end Decimal.Binary

namespace Decimal

/-- The shortest decimal tells the magnitude. -/
theorem ofBits_eq_of_shortest {x y : Float} (h : (shortest x).value = (shortest y).value) :
    Binary.ofBits x.toBits = Binary.ofBits y.toBits := by
  have hzero : (⟨0, 0⟩ : Decimal).value = 0 := by simp [value]
  have hx := Binary.isCanonical_ofBits x.toBits
  have hy := Binary.isCanonical_ofBits y.toBits
  simp only [shortest] at h
  generalize Binary.ofBits x.toBits = x at *
  generalize Binary.ofBits y.toBits = y at *
  split at h <;> split at h
  · rename_i hxzero hyzero
    have hpower : 0 < Binary.powerMantissa := by decide
    have hxleast := hx.full.resolve_right (by omega)
    have hyleast := hy.full.resolve_right (by omega)
    obtain ⟨m, e⟩ := x
    obtain ⟨m', e'⟩ := y
    simp only [Binary.mk.injEq]
    exact ⟨hxzero.trans hyzero.symm, hxleast.trans hyleast.symm⟩
  · rename_i hyzero
    have hpos := (Binary.rounds_shortest (Nat.pos_of_ne_zero hyzero)).value_pos
      (Nat.pos_of_ne_zero hyzero)
    rw [← h, hzero] at hpos
    exact absurd hpos (lt_irrefl _)
  · rename_i hxzero _
    have hpos := (Binary.rounds_shortest (Nat.pos_of_ne_zero hxzero)).value_pos
      (Nat.pos_of_ne_zero hxzero)
    rw [h, hzero] at hpos
    exact absurd hpos (lt_irrefl _)
  · rename_i hxzero hyzero
    exact (Binary.rounds_shortest (Nat.pos_of_ne_zero hxzero)).unique hx hy h
      (Binary.rounds_shortest (Nat.pos_of_ne_zero hyzero))

end Decimal

/-! ### Texts -/

namespace Number

theorem eq_of_toBits_eq {x y : Float} (h : x.toBits = y.toBits) : x = y := by
  obtain ⟨⟨bits, hvalid⟩⟩ := x
  obtain ⟨⟨bits', hvalid'⟩⟩ := y
  obtain rfl : bits = bits' := h
  rfl

/-- Sign and magnitude are all of a double. -/
theorem eq_of_magnitude {x y : Float} (hsign : isSigned x = isSigned y)
    (h : Decimal.Binary.ofBits x.toBits = Decimal.Binary.ofBits y.toBits) : x = y := by
  have hmod := Decimal.Binary.mod_eq_of_ofBits_eq h
  have hx := x.toBits.toNat_lt
  have hy := y.toBits.toNat_lt
  simp only [isSigned, decide_eq_decide, Nat.pow_eq] at hsign
  refine eq_of_toBits_eq (UInt64.toNat_inj.mp ?_)
  omega

theorem not_isNaN_of_isFinite {x : Float} (h : x.isFinite = true) :
    x.isNaN = false ∧ x.isInf = false := by
  change x.toModel.unpack.isFinite = true at h
  change x.toModel.unpack.isNaN = false ∧ x.toModel.unpack.isInf = false
  cases hunpack : x.toModel.unpack with
  | notANumber | infinity =>
    rw [hunpack] at h
    cases h
  | zero | finite => exact ⟨rfl, rfl⟩

/-- The characters of the text of a finite double. -/
theorem toList_write {x : Float} (h : x.isFinite = true) : (write .plain x).toList
    = (if isSigned x then ['-'] else []) ++ (Decimal.shortest x).write .plain := by
  obtain ⟨hnan, hinf⟩ := not_isNaN_of_isFinite h
  rw [write, hnan, hinf]
  simp only [Bool.false_eq_true, if_false, String.toList_append, String.toList_ofList]
  split <;> rfl

/-- A sign is no digit, so it can be told whether there is one. -/
theorem sign_eq_of_append {cs ds : List Char} {v w : ℚ} (hcs : Writes cs v) (hds : Writes ds w)
    {p q : Prop} [Decidable p] [Decidable q]
    (h : (if p then ['-'] else []) ++ cs = (if q then ['-'] else []) ++ ds) :
    (p ↔ q) ∧ cs = ds := by
  obtain ⟨c, cs, rfl, hc⟩ := hcs.exists_cons
  obtain ⟨d, ds, rfl, hd⟩ := hds.exists_cons
  have hnot : isDigit '-' = false := by decide
  split at h <;> split at h
  · rename_i hp hq
    exact ⟨iff_of_true hp hq, (List.cons.inj h).2⟩
  · obtain ⟨rfl, -⟩ := List.cons.inj h
    rw [hnot] at hd
    cases hd
  · obtain ⟨rfl, -⟩ := List.cons.inj h
    rw [hnot] at hc
    cases hc
  · rename_i hp hq
    exact ⟨iff_of_false hp hq, h⟩

/-- A finite double can be told from its text. -/
theorem write_injective {x y : Float} (hx : x.isFinite = true) (hy : y.isFinite = true)
    (h : write .plain x = write .plain y) : x = y := by
  have hchars := congrArg String.toList h
  rw [toList_write hx, toList_write hy] at hchars
  have hwx := Decimal.writes_write (Decimal.shortest x)
  have hwy := Decimal.writes_write (Decimal.shortest y)
  obtain ⟨hsign, htext⟩ := sign_eq_of_append hwx hwy hchars
  rw [htext] at hwx
  exact eq_of_magnitude (Bool.eq_iff_iff.mpr hsign)
    (Decimal.ofBits_eq_of_shortest (hwx.unique hwy))

end Number

/-! ### Numbers that a program writes

A numeral may be too large for a finite double, but it stands for a number. The double nearest to a
decimal is packed from a product or a quotient with a power of ten, which is neither zero nor
infinite. -/

namespace Number

open Float.Model (Format UnpackedFloat)
open Float.Model.UnpackedFloat (packComponents unpack)

/-- Neither zero nor infinite nor not-a-number. -/
def isRegular : UnpackedFloat → Bool
  | .finite .. => true
  | _ => false

section Choices

variable {c : Prop} [Decidable c]

/-- What is chosen between numbers is a number. -/
theorem isNaN_dite {t : c → UnpackedFloat} {e : ¬ c → UnpackedFloat}
    (ht : ∀ h, (t h).isNaN = false) (he : ∀ h, (e h).isNaN = false) :
    (dite c t e).isNaN = false := by
  by_cases h : c
  · rw [dif_pos h]
    exact ht h
  · rw [dif_neg h]
    exact he h

theorem isNaN_ite {t e : UnpackedFloat} (ht : c → t.isNaN = false) (he : ¬ c → e.isNaN = false) :
    (ite c t e).isNaN = false :=
  isNaN_dite ht he

end Choices

theorem isNaN_roundWithAccuracy (spec : Format) (sign : UnpackedFloat.Sign) (m : ℕ) (e : ℤ)
    (accuracy : UnpackedFloat.Accuracy) :
    (UnpackedFloat.roundWithAccuracy spec sign m e accuracy).isNaN = false :=
  isNaN_dite (fun _ => rfl) fun _ => rfl

section Regular

variable {u v : UnpackedFloat}

theorem isNaN_mul (spec : Format) (hu : u.isNaN = false) (hv : isRegular v = true) :
    (UnpackedFloat.mul spec u v).isNaN = false := by
  cases v with
  | finite =>
    cases u with
    | notANumber => cases hu
    | infinity | zero => rfl
    | finite => exact isNaN_roundWithAccuracy _ _ _ _ _
  | _ => cases hv

theorem isNaN_div (spec : Format) (hu : u.isNaN = false) (hv : isRegular v = true) :
    (UnpackedFloat.div spec u v).isNaN = false := by
  cases v with
  | finite =>
    cases u with
    | notANumber => cases hu
    | infinity | zero => rfl
    | finite => exact isNaN_roundWithAccuracy _ _ _ _ _
  | _ => cases hv

end Regular

theorem isNaN_ofNat (spec : Format) (n : ℕ) : (UnpackedFloat.ofNat spec n).isNaN = false := by
  unfold UnpackedFloat.ofNat UnpackedFloat.ofInt UnpackedFloat.normalize
  split
  · exact isNaN_roundWithAccuracy _ _ _ _ _
  · rfl
  · exact isNaN_roundWithAccuracy _ _ _ _ _

theorem isNaN_ofScientific (spec : Format) (m : ℕ) (e : ℤ) :
    (UnpackedFloat.ofScientific spec m e).isNaN = false := by
  refine isNaN_dite (fun _ => rfl) fun _ => isNaN_ite (fun _ => rfl) fun _ =>
    isNaN_ite (fun _ => rfl) fun _ => isNaN_ite (fun _ => ?_) fun _ => ?_
  · exact isNaN_mul spec rfl rfl
  · exact isNaN_div spec rfl rfl

/-- Not-a-number has the greatest exponent and a mantissa that is not zero. -/
theorem isNaN_unpack (sign : UnpackedFloat.Sign) {exponent : BitVec 11} {mantissa : BitVec 52}
    (h : exponent = -1#11 → mantissa = 0#52) :
    (unpack .binary64 (packComponents .binary64 sign exponent mantissa)).isNaN = false := by
  refine isNaN_ite (fun hgreatest => ?_) fun _ =>
    isNaN_ite (fun _ => isNaN_dite (fun _ => rfl) fun _ => rfl) fun _ => rfl
  rw [UnpackedFloat.unpackExponent_packComponents] at hgreatest
  rw [UnpackedFloat.unpackMantissa_packComponents, if_pos (h hgreatest)]
  rfl

/-- Packing makes no not-a-number. -/
theorem isNaN_ofModel_pack {u : UnpackedFloat} (h : u.isNaN = false) :
    (Float.ofModel (.pack u)).isNaN = false := by
  change (unpack .binary64 (UnpackedFloat.pack .binary64 u)).isNaN = false
  cases u with
  | notANumber => cases h
  | infinity => exact isNaN_unpack _ fun _ => rfl
  | zero => exact isNaN_unpack _ fun _ => rfl
  | finite s m e hm =>
    unfold UnpackedFloat.pack
    dsimp only
    split
    · exact isNaN_unpack _ fun _ => rfl
    · rename_i hexponent
      split
      · refine isNaN_unpack _ fun hgreatest => ?_
        have hvalue := congrArg BitVec.toNat hgreatest
        rw [BitVec.toNat_ofNat, show (-1#11).toNat = 2047 by decide] at hvalue
        exact absurd hvalue (by omega)
      · exact isNaN_unpack _ fun hzero => absurd hzero (by decide)

theorem isRegular_powerOfTen : ∀ x ∈ Float.exactlyRepresentablePowersOfTen,
    isRegular x.toModel.unpack = true := by decide +kernel

/-- The double nearest to a decimal is a number, if an infinite one. -/
theorem isNaN_toFloat (d : Decimal) : d.toFloat.isNaN = false := by
  unfold Decimal.toFloat Float.ofScientific
  split
  · rename_i hsmall
    have hdigits : d.digits.toUInt64.toFloat.isNaN = false := isNaN_ofModel_pack (isNaN_ofNat _ _)
    have hpower := isRegular_powerOfTen _ (Array.getElem_mem (i := d.exponent.natAbs)
      (by simp [Float.exactlyRepresentablePowersOfTen]; omega))
    dsimp only
    split
    · exact isNaN_ofModel_pack (isNaN_div _ hdigits hpower)
    · exact isNaN_ofModel_pack (isNaN_mul _ hdigits hpower)
  · exact isNaN_ofModel_pack (isNaN_ofScientific _ _ _)

/-- What is neither infinite nor not-a-number is finite. -/
theorem isFinite_of_not {x : Float} (hnan : x.isNaN = false) (hinf : x.isInf = false) :
    x.isFinite = true := by
  change x.toModel.unpack.isNaN = false at hnan
  change x.toModel.unpack.isInf = false at hinf
  change x.toModel.unpack.isFinite = true
  cases hunpack : x.toModel.unpack with
  | notANumber =>
    rw [hunpack] at hnan
    cases hnan
  | infinity =>
    rw [hunpack] at hinf
    cases hinf
  | zero | finite => rfl

end Number

end Lox
