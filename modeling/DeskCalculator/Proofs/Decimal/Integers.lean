import DeskCalculator.Proofs.Decimal.Factorial

namespace DeskCalculator.Decimal

variable {a b : Int}

theorem fit_integer (v : Int) :
    fit (scale * v) =
      if scale ≤ v.natAbs then .error .overflow else .ok (ofUnits (scale * v)) := by
  by_cases h : scale ≤ v.natAbs
  · rw [if_pos h, fit_of_le (capacity_le_natAbs_scale_mul h)]
  · rw [if_neg h, fit_of_lt (natAbs_scale_mul_lt (Nat.not_le.mp h))]

theorem attach_scale_mul (negative : Bool) (n : Nat) :
    attach negative (scale * n) = scale * attach negative n := by
  cases negative <;> simp [attach]

theorem add_integers (ha : a.natAbs < scale) (hb : b.natAbs < scale) :
    add (ofUnits (scale * a)) (ofUnits (scale * b)) = fit (scale * (a + b)) := by
  rw [add_eq (wellFormed_ofUnits _) (wellFormed_ofUnits _), units_ofUnits (natAbs_scale_mul_lt ha),
    units_ofUnits (natAbs_scale_mul_lt hb), Int.mul_add]

theorem sub_integers (ha : a.natAbs < scale) (hb : b.natAbs < scale) :
    sub (ofUnits (scale * a)) (ofUnits (scale * b)) = fit (scale * (a - b)) := by
  rw [sub_eq (wellFormed_ofUnits _) (wellFormed_ofUnits _), units_ofUnits (natAbs_scale_mul_lt ha),
    units_ofUnits (natAbs_scale_mul_lt hb), Int.mul_sub]

theorem mul_integers (ha : a.natAbs < scale) (hb : b.natAbs < scale) :
    mul (ofUnits (scale * a)) (ofUnits (scale * b)) = fit (scale * (a * b)) := by
  have hs : (scale : Int) ≠ 0 := by decide
  have he : (scale * a * (scale * b) : Int) = scale * (a * b) * scale := by ring
  rw [mul_eq (wellFormed_ofUnits _) (wellFormed_ofUnits _), units_ofUnits (natAbs_scale_mul_lt ha),
    units_ofUnits (natAbs_scale_mul_lt hb), he, Int.mul_tdiv_cancel _ hs]

theorem mod_integers_zero (a : Int) :
    mod (ofUnits (scale * a)) (ofUnits (scale * 0)) = .error .divideByZero :=
  mod_by_zero (by decide) _

/-- A remainder is smaller than the divisor, so that it always fits. -/
theorem mod_integers (ha : a.natAbs < scale) (hb : b.natAbs < scale) (h0 : b ≠ 0) :
    mod (ofUnits (scale * a)) (ofUnits (scale * b)) =
      fit (scale * attach (decide (b < 0)) (a.natAbs % b.natAbs)) := by
  have hua := units_ofUnits (natAbs_scale_mul_lt ha)
  have hub := units_ofUnits (natAbs_scale_mul_lt hb)
  have hs : (scale : Int) ≠ 0 := by decide
  have hne : (ofUnits (scale * b)).units ≠ 0 := by
    rw [hub]
    exact Int.mul_ne_zero hs h0
  have hlt : (attach (decide (b < 0)) (a.natAbs % b.natAbs)).natAbs < scale := by
    rw [natAbs_attach]
    exact Nat.lt_trans (Nat.mod_lt _ (Int.natAbs_pos.mpr h0)) hb
  rw [mod_eq (wellFormed_ofUnits _) (wellFormed_ofUnits _) hne, hua, hub, natAbs_scale_mul,
    natAbs_scale_mul, Nat.mul_mod_mul_left, decide_eq_decide.mpr scale_mul_neg_iff,
    attach_scale_mul, fit_of_lt (natAbs_scale_mul_lt hlt)]

theorem factorial_integer (ha : a.natAbs < scale) :
    factorial (ofUnits (scale * a)) =
      fit (scale * attach (decide (a < 0)) a.natAbs.factorial) := by
  have hw := wellFormed_ofUnits (scale * a)
  have hu := units_ofUnits (natAbs_scale_mul_lt ha)
  have hm : (ofUnits (scale * a)).magnitude / scale = a.natAbs := by
    rw [← natAbs_units, hu, natAbs_scale_mul, Nat.mul_div_cancel_left _ scale_pos]
  have hn : (ofUnits (scale * a)).negative = decide (a < 0) := by
    rw [Bool.eq_iff_iff, decide_eq_true_iff, hw.negative_iff, hu]
    exact scale_mul_neg_iff
  rw [factorial_eq hw, hm, hn, attach_scale_mul]
  by_cases h0 : a.natAbs = 0
  · have ha0 : a = 0 := Int.natAbs_eq_zero.mp h0
    subst ha0
    rw [if_pos h0, one_eq]
    have hone :
        (scale * attach (decide ((0 : Int) < 0)) (Int.natAbs 0).factorial : Int) = scale := by
      decide
    rw [hone, fit_cast_of_lt (by decide)]
  · rw [if_neg h0]

end DeskCalculator.Decimal
