import DeskCalculator.Proofs.Decimal.Arithmetic
import DeskCalculator.Proofs.Decimal.Rational
import Mathlib.Data.Rat.Floor

namespace DeskCalculator.Decimal

variable {x y : Decimal}

theorem abs_toRat (x : Decimal) : |x.toRat| = x.magnitude / scale := by
  have hunits : |(x.units : ℚ)| = (x.magnitude : ℚ) := by
    rw [← natAbs_units, Nat.cast_natAbs, Int.cast_abs]
  rw [toRat, abs_div, hunits, abs_of_pos scale_rat_pos]

theorem toRat_eq_zero_iff (x : Decimal) : x.toRat = 0 ↔ x.magnitude = 0 := by
  have hs : (scale : ℚ) ≠ 0 := scale_rat_pos.ne'
  rw [← abs_eq_zero, abs_toRat, div_eq_zero_iff]
  simp [hs]

/-- The whole part of a quotient is the quotient of the units. -/
theorem floor_abs_div_abs (x y : Decimal) :
    ⌊|x.toRat| / |y.toRat|⌋ = (x.magnitude / y.magnitude : Nat) := by
  have hs : (scale : ℚ) ≠ 0 := scale_rat_pos.ne'
  rw [abs_toRat, abs_toRat, div_div_div_cancel_right₀ hs, Rat.floor_natCast_div_natCast]
  rfl

/-- What is left of the units is left of the values. -/
theorem abs_toRat_of_mod {r : Decimal} (h : r.magnitude = x.magnitude % y.magnitude) :
    |r.toRat| = |x.toRat| - ⌊|x.toRat| / |y.toRat|⌋ * |y.toRat| := by
  have hmod : (x.magnitude : ℚ) =
      y.magnitude * (x.magnitude / y.magnitude : Nat) + (x.magnitude % y.magnitude : Nat) := by
    exact_mod_cast (Nat.div_add_mod x.magnitude y.magnitude).symm
  rw [floor_abs_div_abs, abs_toRat, abs_toRat, abs_toRat, h, Int.cast_natCast, hmod]
  ring

/-- The remainder counts the units that the division of the units leaves. -/
theorem exists_mod (hx : x.WellFormed) (hy : y.WellFormed) (h0 : y.magnitude ≠ 0) :
    ∃ r : Decimal, r.WellFormed ∧ mod x y = .ok r ∧
      r.magnitude = x.magnitude % y.magnitude ∧
      (r.negative = true ↔ y.negative = true ∧ r.magnitude ≠ 0) := by
  have hlt : x.magnitude % y.magnitude < capacity :=
    Nat.lt_trans (Nat.mod_lt _ (Nat.pos_of_ne_zero h0)) hy.magnitude_lt
  obtain ⟨r, hr, hfit, hm, hn⟩ := exists_fit_attach hlt y.negative false
  refine ⟨r, hr, ?_, hm, by simpa using hn⟩
  have hunits : y.units ≠ 0 := by rwa [← Int.natAbs_ne_zero, natAbs_units]
  have hsign : decide (y.units < 0) = y.negative := by
    rw [Bool.eq_iff_iff, decide_eq_true_iff]
    exact hy.negative_iff.symm
  rw [mod_eq hx hy hunits, natAbs_units, natAbs_units, hsign]
  rw [Bool.bne_false, fit_attach_of_lt hlt] at hfit
  exact hfit

/-- A long division leaves the remainder's digits and a zero on top of them. -/
theorem divide_remainder (hx : x.WellFormed) (hy : y.WellFormed) (h0 : y.magnitude ≠ 0)
    {r : Decimal} (hr : r.WellFormed) (hm : r.magnitude = x.magnitude % y.magnitude) :
    (Digits.divide x.digits y.digits 0).2 = r.digits ++ [0] := by
  have hdivide := Digits.divide_eq 0 hx.digit_lt hy.digit_lt hx.length hy.length
    (Nat.pos_of_ne_zero h0)
  have hbelow : Digits.Below 10 (r.digits ++ [0]) :=
    Digits.below_append.mpr ⟨hr.digit_lt, Digits.below_cons.mpr ⟨by omega, Digits.below_nil 10⟩⟩
  have hlength : (r.digits ++ [0]).length = Digits.width + 1 := by
    rw [List.length_append, hr.length]
    rfl
  have hvalue : Digits.value 10 (r.digits ++ [0]) = x.magnitude % y.magnitude := by
    rw [← hm]
    simp [Digits.value_append, magnitude]
  have hdigits := hbelow.ofNat_value (by omega)
  rw [hlength, hvalue] at hdigits
  rw [hdivide, Nat.pow_zero, Nat.mul_one]
  exact hdigits

/-- The law of division for numbers with a fraction. The remainder has the sign of the divisor, and
cutting it to the width of a number takes nothing away. -/
theorem mod_exact (hx : x.WellFormed) (hy : y.WellFormed) :
    (y.toRat = 0 → mod x y = .error .divideByZero) ∧
    (y.toRat ≠ 0 → ∃ r : Decimal, r.WellFormed ∧ mod x y = .ok r ∧
      |r.toRat| = |x.toRat| - ⌊|x.toRat| / |y.toRat|⌋ * |y.toRat| ∧
      0 ≤ |r.toRat| ∧ |r.toRat| < |y.toRat| ∧
      (r.negative = true ↔ y.negative = true ∧ r.toRat ≠ 0) ∧
      (Digits.divide x.digits y.digits 0).2 = r.digits ++ [0]) := by
  constructor
  · intro h
    have h0 := (toRat_eq_zero_iff y).mp h
    exact mod_by_zero (by simp [units, h0]) x
  · intro h
    have h0 : y.magnitude ≠ 0 := fun h0 => h ((toRat_eq_zero_iff y).mpr h0)
    obtain ⟨r, hr, hok, hm, hn⟩ := exists_mod hx hy h0
    refine ⟨r, hr, hok, abs_toRat_of_mod hm, abs_nonneg _, ?_, ?_, ?_⟩
    · have hlt : r.magnitude < y.magnitude := by
        rw [hm]
        exact Nat.mod_lt _ (Nat.pos_of_ne_zero h0)
      rw [abs_toRat, abs_toRat, div_lt_div_iff_of_pos_right scale_rat_pos]
      exact_mod_cast hlt
    · rw [hn, Ne, Ne, toRat_eq_zero_iff]
    · exact divide_remainder hx hy h0 hr hm

/-- A remainder by seven units, where the quotient would be too big. -/
theorem mod_exact_small_divisor :
    div (ofUnits (10 ^ 40 - 1)) (ofUnits (-7)) = .error .overflow ∧
    ∃ r : Decimal, r.WellFormed ∧ mod (ofUnits (10 ^ 40 - 1)) (ofUnits (-7)) = .ok r ∧
      |r.toRat| = 3 / 10 ^ 20 ∧ r.negative = true := by
  have hx := wellFormed_ofUnits (10 ^ 40 - 1)
  have hy := wellFormed_ofUnits (-7)
  have hdividend : (ofUnits (10 ^ 40 - 1)).magnitude = 10 ^ 40 - 1 := by
    rw [← natAbs_units, units_ofUnits (by decide)]
    rfl
  have hunits : (ofUnits (-7)).units = -7 := units_ofUnits (by decide)
  have hdivisor : (ofUnits (-7)).magnitude = 7 := by
    rw [← natAbs_units, hunits]
    rfl
  have hnegative : (ofUnits (-7)).negative = true := by simp [hy.negative_iff, hunits]
  have hne : (ofUnits (-7)).toRat ≠ 0 := by simp [toRat_eq_zero_iff, hdivisor]
  have hoverflow : div (ofUnits (10 ^ 40 - 1)) (ofUnits (-7)) = .error .overflow := by
    rw [div_magnitudes hx hy (by simp [hdivisor]), hdividend, hdivisor]
    exact fit_attach_of_le (by decide) _
  obtain ⟨-, hfound⟩ := mod_exact hx hy
  obtain ⟨r, hr, hok, hvalue, -, -, hsign, -⟩ := hfound hne
  have hthree : |r.toRat| = 3 / 10 ^ 20 := by
    rw [hvalue, floor_abs_div_abs, abs_toRat, abs_toRat, hdividend, hdivisor]
    norm_num [scale]
  have hr0 : r.toRat ≠ 0 := by
    intro h
    norm_num [h] at hthree
  exact ⟨hoverflow, r, hr, hok, hthree, hsign.mpr ⟨hnegative, hr0⟩⟩

end DeskCalculator.Decimal
