import DeskCalculator.Proofs.Decimal.Arithmetic
import DeskCalculator.Proofs.Outcome
import Mathlib.Data.Nat.Factorial.Basic

namespace DeskCalculator.Decimal

theorem one_eq : one = ofUnits scale := whole_eq (by decide)

/-- One less, of a number that is an integer. -/
theorem subMagnitude_one {k : Nat} (hk : k + 1 < scale) :
    subMagnitude (ofUnits (scale * (k + 1) : Nat)) one = ofUnits (scale * k : Nat) := by
  have hm := magnitude_ofUnits (scale_mul_lt hk)
  have h1 : (ofUnits scale).magnitude = scale := magnitude_ofUnits (by decide)
  rw [one_eq, subMagnitude_eq (wellFormed_ofUnits _) (wellFormed_ofUnits _), hm, h1]
  have he : ((scale * (k + 1) : Nat) : Int) - scale = (scale * k : Nat) := by
    push_cast
    ring
  rw [he]

/-- The product of two numbers that are integers. -/
theorem mulMagnitude_integers {m n : Nat} (hm : m < scale) (hn : n < scale) :
    mulMagnitude (ofUnits (scale * m : Nat)) (ofUnits (scale * n : Nat)) =
      fit (scale * (m * n) : Nat) := by
  rw [mulMagnitude_eq (wellFormed_ofUnits _) (wellFormed_ofUnits _),
    magnitude_ofUnits (scale_mul_lt hm), magnitude_ofUnits (scale_mul_lt hn),
    show scale * m * (scale * n) = scale * (m * n) * scale by ring,
    Nat.mul_div_cancel _ scale_pos]

theorem isZero_integer {n : Nat} (h : n < scale) :
    (ofUnits (scale * n : Nat)).isZero = true ↔ n = 0 := by
  rw [isZero_iff_magnitude, magnitude_ofUnits (scale_mul_lt h), Nat.mul_eq_zero]
  have hs : scale ≠ 0 := by decide
  simp [hs]

/-- The loop multiplies a total by all integers below the one it starts from. -/
theorem multiplyBelow_eq (fuel : Nat) {k t : Nat} (hf : k ≤ fuel) (hk : k + 1 < scale)
    (ht0 : 0 < t) (ht : t < scale) :
    multiplyBelow (fuel + 1) (ofUnits (scale * (k + 1) : Nat)) (ofUnits (scale * t : Nat)) =
      fit (scale * (t * k.factorial) : Nat) := by
  induction fuel generalizing k t with
  | zero =>
    have h0 : k = 0 := Nat.le_zero.mp hf
    subst k
    rw [multiplyBelow, subMagnitude_one hk]
    rw [if_pos ((isZero_integer scale_pos).mpr rfl), Nat.factorial_zero, Nat.mul_one,
      fit_cast_of_lt (scale_mul_lt ht)]
  | succ fuel ih =>
    rw [multiplyBelow, subMagnitude_one hk]
    cases k with
    | zero =>
      rw [if_pos ((isZero_integer scale_pos).mpr rfl), Nat.factorial_zero, Nat.mul_one,
        fit_cast_of_lt (scale_mul_lt ht)]
    | succ k =>
      have hne : ¬ (ofUnits (scale * (k + 1) : Nat)).isZero = true := fun h =>
        Nat.succ_ne_zero k ((isZero_integer (by omega)).mp h)
      rw [if_neg hne, mulMagnitude_integers ht (by omega)]
      have hfac : t * (k + 1).factorial = t * (k + 1) * k.factorial := by
        rw [Nat.factorial_succ]
        ring
      by_cases hp : t * (k + 1) < scale
      · rw [fit_cast_of_lt (scale_mul_lt hp), hfac, Outcome.ok_bind]
        exact ih (by omega) (by omega) (Nat.mul_pos ht0 (Nat.succ_pos k)) hp
      · -- a product that is too large only grows with the factors that are left
        have hle : scale * scale ≤ scale * (t * (k + 1)) :=
          Nat.mul_le_mul_left scale (Nat.not_lt.mp hp)
        have hle' : scale * (t * (k + 1)) ≤ scale * (t * (k + 1) * k.factorial) :=
          Nat.mul_le_mul_left scale (Nat.le_mul_of_pos_right _ (Nat.factorial_pos k))
        rw [scale_mul_scale] at hle
        rw [fit_cast_of_le hle, hfac, fit_cast_of_le (hle.trans hle'), Outcome.error_bind]

theorem WellFormed.whole_lt {x : Decimal} (hx : x.WellFormed) : x.magnitude / scale < scale := by
  apply Nat.div_lt_of_lt_mul
  rw [scale_mul_scale]
  exact hx.magnitude_lt

/-- The loop starts with the integer part, unless that is zero. -/
theorem factorial_loop {x : Decimal} (hx : x.WellFormed) :
    factorial x =
      if x.magnitude / scale = 0 then .ok one
      else multiplyBelow (x.magnitude / scale) (ofUnits (scale * (x.magnitude / scale) : Nat))
          (ofUnits (scale * (x.magnitude / scale) : Nat)) >>= fun total =>
        build x.negative total.digits := by
  have hv : Digits.value 10 x.integerDigits = x.magnitude / scale :=
    Digits.Below.value_drop (by omega) hx.digit_lt Digits.fractionWidth
  have hl : x.integerDigits.length = Digits.integerWidth := by
    rw [integerDigits, List.length_drop, hx.length]
    rfl
  have hb : Digits.Below 10 x.integerDigits := Digits.Below.drop hx.digit_lt _
  have hbuild : build false (Digits.zeros Digits.fractionWidth ++ x.integerDigits) =
      .ok (ofUnits (scale * (x.magnitude / scale) : Nat)) := by
    rw [build_eq false (length_zeros_append hl) (below_zeros_append hb), value_zeros_append, hv]
    rfl
  change (build false (Digits.zeros Digits.fractionWidth ++ x.integerDigits) >>= fun n => _) = _
  rw [hbuild, hv, Outcome.ok_bind]
  by_cases h0 : x.magnitude / scale = 0
  · rw [if_pos h0, if_pos ((isZero_integer hx.whole_lt).mpr h0)]
    rfl
  · rw [if_neg h0, if_neg (fun hz => h0 ((isZero_integer hx.whole_lt).mp hz))]

theorem factorial_eq {x : Decimal} (hx : x.WellFormed) :
    factorial x =
      if x.magnitude / scale = 0 then .ok one
      else fit (attach x.negative (scale * (x.magnitude / scale).factorial)) := by
  have hn := hx.whole_lt
  rw [factorial_loop hx]
  generalize x.magnitude / scale = n at hn
  cases n with
  | zero => rw [if_pos rfl, if_pos rfl]
  | succ n =>
    rw [if_neg (Nat.succ_ne_zero n), if_neg (Nat.succ_ne_zero n),
      multiplyBelow_eq n (Nat.le_refl n) hn (Nat.succ_pos n) hn, ← Nat.factorial_succ]
    by_cases h : scale * (n + 1).factorial < capacity
    · rw [fit_cast_of_lt h, fit_attach_of_lt h, Outcome.ok_bind, build_digits_ofUnits _ h]
    · rw [fit_cast_of_le (Nat.not_lt.mp h), fit_attach_of_le (Nat.not_lt.mp h),
        Outcome.error_bind]

end DeskCalculator.Decimal
