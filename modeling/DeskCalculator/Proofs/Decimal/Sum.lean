import DeskCalculator.Proofs.Decimal.Arithmetic
import DeskCalculator.Proofs.Decimal.Rational

namespace DeskCalculator.Decimal

variable {x y : Decimal}

/-- The outcome is a well-formed number of value `q`, or an overflow where `q` is too big. -/
structure Exactly (q : ℚ) (outcome : Except Fault Decimal) : Prop where
  found : |q| < 10 ^ 20 → ∃ r : Decimal, r.WellFormed ∧ outcome = .ok r ∧ r.toRat = q
  overflow : 10 ^ 20 ≤ |q| → outcome = .error .overflow

theorem exactly_fit (u : Int) : Exactly (u / scale) (fit u) where
  found := by
    intro h
    have hu := (abs_div_scale_lt u).mp h
    exact ⟨ofUnits u, wellFormed_ofUnits u, fit_of_lt hu, toRat_ofUnits hu⟩
  overflow := by
    intro h
    apply fit_of_le
    apply Nat.le_of_not_lt
    intro hu
    exact not_lt.mpr h ((abs_div_scale_lt u).mpr hu)

theorem add_exactly (hx : x.WellFormed) (hy : y.WellFormed) :
    Exactly (x.toRat + y.toRat) (add x y) := by
  have h := exactly_fit (x.units + y.units)
  rw [Int.cast_add, add_div] at h
  rw [add_eq hx hy]
  exact h

theorem sub_eq_add_negate (hx : x.WellFormed) (hy : y.WellFormed) :
    sub x y = add x y.negate := by
  rw [sub_eq hx hy, add_eq hx hy.negate, units_negate hy, Int.sub_eq_add_neg]

theorem sub_exactly (hx : x.WellFormed) (hy : y.WellFormed) :
    Exactly (x.toRat - y.toRat) (sub x y) := by
  have h := add_exactly hx hy.negate
  rw [toRat_negate hy, ← sub_eq_add_neg] at h
  rw [sub_eq_add_negate hx hy]
  exact h

theorem add_swap (hx : x.WellFormed) (hy : y.WellFormed) : add x y = add y x := by
  rw [add_eq hx hy, add_eq hy hx, Int.add_comm]

theorem add_negate_self (hx : x.WellFormed) : add x x.negate = .ok Decimal.zero := by
  rw [add_eq hx hx.negate, units_negate hx, Int.add_right_neg, zero_eq]
  exact fit_of_lt (by decide)

/-- Values of different sign come to one that is no bigger than the bigger of them. -/
theorem abs_add_lt_of_opposite {a b c : ℚ} (ha : |a| < c) (hb : |b| < c) (h : a * b ≤ 0) :
    |a + b| < c := by
  rw [abs_lt] at ha hb ⊢
  rcases mul_nonpos_iff.mp h with ⟨ha0, hb0⟩ | ⟨ha0, hb0⟩
  · constructor <;> linarith
  · constructor <;> linarith

theorem WellFormed.abs_toRat_lt (hx : x.WellFormed) : |x.toRat| < 10 ^ 20 :=
  (abs_div_scale_lt x.units).mpr hx.natAbs_units_lt

/-- Sums and differences are exact up to an exact limit, and have the laws of exact ones. -/
theorem add_sub_exact (hx : x.WellFormed) (hy : y.WellFormed) :
    Exactly (x.toRat + y.toRat) (add x y) ∧
    Exactly (x.toRat - y.toRat) (sub x y) ∧
    sub x y = add x y.negate ∧
    add x y = add y x ∧
    add x x.negate = .ok Decimal.zero ∧
    (x.toRat * y.toRat ≤ 0 →
      ∃ r : Decimal, r.WellFormed ∧ add x y = .ok r ∧ r.toRat = x.toRat + y.toRat) := by
  refine ⟨add_exactly hx hy, sub_exactly hx hy, sub_eq_add_negate hx hy, add_swap hx hy,
    add_negate_self hx, ?_⟩
  intro h
  exact (add_exactly hx hy).found (abs_add_lt_of_opposite hx.abs_toRat_lt hy.abs_toRat_lt h)

/-- One unit more than the greatest number is too big, as a sum and as a difference; one unit less is
none too big. -/
theorem add_sub_exact_greatest :
    add (ofUnits (10 ^ 40 - 1)) (ofUnits 1) = .error .overflow ∧
    sub (ofUnits (10 ^ 40 - 1)) (ofUnits (-1)) = .error .overflow ∧
    ∃ r : Decimal, r.WellFormed ∧ add (ofUnits (10 ^ 40 - 1)) (ofUnits (-1)) = .ok r ∧
      r.toRat = 10 ^ 20 - 2 / 10 ^ 20 := by
  have hgreatest : (ofUnits (10 ^ 40 - 1)).toRat = 10 ^ 20 - 1 / 10 ^ 20 := by
    rw [toRat_ofUnits (by decide)]
    norm_num [scale]
  have hunit : (ofUnits 1).toRat = 1 / 10 ^ 20 := by
    rw [toRat_ofUnits (by decide)]
    norm_num [scale]
  have hminus : (ofUnits (-1)).toRat = -1 / 10 ^ 20 := by
    rw [toRat_ofUnits (by decide)]
    norm_num [scale]
  obtain ⟨hadd, -⟩ := add_sub_exact (wellFormed_ofUnits (10 ^ 40 - 1)) (wellFormed_ofUnits 1)
  obtain ⟨-, hsub, -, -, -, hopposite⟩ :=
    add_sub_exact (wellFormed_ofUnits (10 ^ 40 - 1)) (wellFormed_ofUnits (-1))
  rw [hgreatest, hunit] at hadd
  rw [hgreatest, hminus] at hsub hopposite
  refine ⟨hadd.overflow ?_, hsub.overflow ?_, ?_⟩
  · norm_num
  · norm_num
  · obtain ⟨r, hr, hok, hvalue⟩ := hopposite (by norm_num)
    exact ⟨r, hr, hok, by rw [hvalue]; ring⟩

end DeskCalculator.Decimal
