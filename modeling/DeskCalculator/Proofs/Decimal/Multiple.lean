import DeskCalculator.Proofs.Decimal.Remainder
import DeskCalculator.Proofs.Decimal.Truncation

namespace DeskCalculator.Decimal

variable {x y q : Decimal}

theorem multiple_le (m n : Nat) : m * scale / n * n / scale ≤ m := by
  apply Nat.div_le_of_le_mul
  rw [Nat.mul_comm scale]
  exact Nat.div_mul_le_self (m * scale) n

/-- The first cut leaves less than the divisor, the second less than a unit of the product. -/
theorem lt_multiple {m n : Nat} (hn : 0 < n) :
    scale * m < scale * (m * scale / n * n / scale) + n + scale := by
  have hfirst := Nat.div_add_mod (m * scale) n
  have hsecond := Nat.div_add_mod (m * scale / n * n) scale
  have hlost := Nat.mod_lt (m * scale) hn
  have hlost' := Nat.mod_lt (m * scale / n * n) scale_pos
  rw [Nat.mul_comm n] at hfirst
  rw [Nat.mul_comm scale m]
  omega

/-- The sign of the divisor goes into the quotient, and out of it again. -/
theorem sign_twice {s t u v : Bool} (hu : u = true ↔ s ≠ t) (hv : v = true ↔ u ≠ t) : v = s := by
  cases s <;> cases t <;> simp_all

theorem of_div (hx : x.WellFormed) (hy : y.WellFormed) (hq : div x y = .ok q) :
    y.magnitude ≠ 0 ∧ q.WellFormed ∧ q.magnitude = x.magnitude * scale / y.magnitude ∧
      (q.negative = true ↔ x.negative ≠ y.negative ∧ q.magnitude ≠ 0) := by
  have h0 : y.magnitude ≠ 0 := by
    intro h0
    rw [(div_eq_divideByZero_iff hx hy).mpr h0] at hq
    cases hq
  rw [div_magnitudes hx hy h0] at hq
  rcases Nat.lt_or_ge (x.magnitude * scale / y.magnitude) capacity with hlt | hge
  · obtain ⟨r, hr, hfit, hm, hn⟩ := exists_fit_attach hlt x.negative y.negative
    rw [hfit] at hq
    cases hq
    exact ⟨h0, hr, hm, hn⟩
  · rw [fit_attach_of_le hge] at hq
    cases hq

/-- The product of a quotient with its divisor exists, and counts the units that the two cuts leave. -/
theorem exists_multiple (hx : x.WellFormed) (hy : y.WellFormed) (hq : div x y = .ok q) :
    ∃ p : Decimal, p.WellFormed ∧ mul q y = .ok p ∧
      p.magnitude = x.magnitude * scale / y.magnitude * y.magnitude / scale ∧
      (p.magnitude = 0 ∨ p.negative = x.negative) := by
  obtain ⟨-, hwq, hmq, hnq⟩ := of_div hx hy hq
  have hlt : q.magnitude * y.magnitude < 10 ^ 60 :=
    calc q.magnitude * y.magnitude ≤ x.magnitude * scale := by
          rw [hmq]
          exact Nat.div_mul_le_self _ _
      _ < capacity * scale := Nat.mul_lt_mul_of_pos_right hx.magnitude_lt scale_pos
      _ = 10 ^ 60 := by decide
  obtain ⟨p, hwp, hok, hmp, hnp⟩ := exists_mul hwq hy hlt
  refine ⟨p, hwp, hok, by rw [hmp, hmq]; rfl, ?_⟩
  rcases Nat.eq_zero_or_pos p.magnitude with hp0 | hpos
  · exact .inl hp0
  · right
    have hq0 : q.magnitude ≠ 0 := by
      intro hq0
      rw [hmp, hq0, Nat.zero_mul, Nat.zero_div] at hpos
      exact Nat.lt_irrefl 0 hpos
    exact sign_twice (hnq.trans (and_iff_left hq0)) (hnp.trans (and_iff_left hpos.ne'))

/-- Multiplying back gains nothing, and the units that it loses are fewer than the divisor's value and
one more. -/
theorem mul_of_div_close (hx : x.WellFormed) (hy : y.WellFormed) (hq : div x y = .ok q) :
    ∃ p : Decimal, p.WellFormed ∧ mul q y = .ok p ∧
      0 ≤ |x.toRat| - |p.toRat| ∧ |x.toRat| - |p.toRat| < (|y.toRat| + 1) / 10 ^ 20 ∧
      (p.toRat = 0 ∨ p.negative = x.negative) := by
  obtain ⟨p, hp, hok, hm, hsign⟩ := exists_multiple hx hy hq
  obtain ⟨h0, -⟩ := of_div hx hy hq
  have hle := multiple_le x.magnitude y.magnitude
  have hlt := lt_multiple (m := x.magnitude) (Nat.pos_of_ne_zero h0)
  rw [← hm] at hle hlt
  have hs := scale_rat_pos
  have hscale : (10 : ℚ) ^ 20 = scale := by norm_num [scale]
  refine ⟨p, hp, hok, ?_, ?_, ?_⟩
  · rw [abs_toRat, abs_toRat, sub_nonneg, div_le_div_iff_of_pos_right hs]
    exact_mod_cast hle
  · have hlt' : (scale * x.magnitude : ℚ) < scale * p.magnitude + y.magnitude + scale := by
      exact_mod_cast hlt
    rw [abs_toRat, abs_toRat, abs_toRat, hscale, ← sub_div, div_lt_div_iff_of_pos_right hs,
      ← sub_lt_iff_lt_add, lt_div_iff₀ hs]
    linarith
  · exact hsign.imp_left (toRat_eq_zero_iff p).mpr

/-- A third of minus one comes back short by a unit. A dividend of less than one unit for each whole of
the divisor does not come back at all. -/
theorem mul_of_div_close_thirds :
    (∃ p : Decimal, p.WellFormed ∧
      div (ofUnits (-10 ^ 20)) (ofUnits (3 * 10 ^ 20)) = .ok (ofUnits (-33333333333333333333)) ∧
      mul (ofUnits (-33333333333333333333)) (ofUnits (3 * 10 ^ 20)) = .ok p ∧
      1 - |p.toRat| < 4 / 10 ^ 20 ∧ p.negative = true) ∧
    div (ofUnits (2 * 10 ^ 19 - 1)) (ofUnits (-2 * 10 ^ 39)) = .ok (ofUnits 0) ∧
    ∃ p : Decimal, mul (ofUnits 0) (ofUnits (-2 * 10 ^ 39)) = .ok p ∧
      |(ofUnits (2 * 10 ^ 19 - 1)).toRat| - |p.toRat| <
        (|(ofUnits (-2 * 10 ^ 39)).toRat| + 1) / 10 ^ 20 := by
  have hthird : div (ofUnits (-10 ^ 20)) (ofUnits (3 * 10 ^ 20)) =
      .ok (ofUnits (-33333333333333333333)) := by
    rw [div_ofUnits (by decide) (by decide) (by decide)]
    exact fit_of_lt (by decide)
  have hnothing : div (ofUnits (2 * 10 ^ 19 - 1)) (ofUnits (-2 * 10 ^ 39)) = .ok (ofUnits 0) := by
    rw [div_ofUnits (by decide) (by decide) (by decide)]
    exact fit_of_lt (by decide)
  obtain ⟨p, hp, hok, -, hclose, hsign⟩ :=
    mul_of_div_close (wellFormed_ofUnits (-10 ^ 20)) (wellFormed_ofUnits (3 * 10 ^ 20)) hthird
  obtain ⟨p', -, hok', -, hclose', -⟩ := mul_of_div_close (wellFormed_ofUnits (2 * 10 ^ 19 - 1))
    (wellFormed_ofUnits (-2 * 10 ^ 39)) hnothing
  have hone : |(ofUnits (-10 ^ 20)).toRat| = 1 := by
    rw [toRat_ofUnits (by decide)]
    norm_num [scale]
  have hthree : |(ofUnits (3 * 10 ^ 20)).toRat| = 3 := by
    rw [toRat_ofUnits (by decide)]
    norm_num [scale]
  rw [hone, hthree] at hclose
  refine ⟨⟨p, hp, hthird, hok, by linarith, ?_⟩, hnothing, p', hok', hclose'⟩
  rcases hsign with hp0 | hn
  · norm_num [hp0] at hclose
  · exact hn.trans (by decide +kernel)

end DeskCalculator.Decimal
