import DeskCalculator.Proofs.NamedFunction.Cosine.Bounds
import Mathlib.Analysis.Complex.ExponentialBounds

namespace DeskCalculator.NamedFunction

open Decimal (capacity ofUnits scale wellFormed_ofUnits)
open Finset (range)
open Series (cosSum tail tail_succ_le_one tail_succ_nonneg)

variable {s n : Nat} {x : Decimal}

/-- Each term is one of the exponential series too. -/
theorem termCount_le_exp (s n : Nat) : termCount s n ≤ scale * Real.exp √(square s) := by
  have hroot := Real.sqrt_nonneg (square s)
  calc (termCount s n : ℝ)
      ≤ scale * (square s ^ n / (2 * n).factorial) := termCount_le s n
    _ = scale * (√(square s) ^ (2 * n) / (2 * n).factorial) := by
        rw [pow_mul, Real.sq_sqrt (square_nonneg s)]
    _ ≤ scale * Real.exp √(square s) := by
        gcongr
        exact Real.pow_div_factorial_le_exp _ hroot _

/-- A sum is the cosine, what it drifted off it, and the part of its last term that the tail leaves. -/
theorem abs_termSum_succ_le (s n : Nat) :
    |(termSum s (n + 1) : ℝ)| ≤ n + 1 + scale * (Real.exp √(square s) + 1) := by
  have hy := square_nonneg s
  have hdrift := abs_drift_le s (n + 1)
  have hterm : |(term s (n + 1) : ℝ)| ≤ scale * Real.exp √(square s) := by
    rw [term_cast, abs_mul, abs_neg_one_pow, one_mul, Nat.abs_cast]
    exact termCount_le_exp s (n + 1)
  have hleft : |1 - tail (square s) (n + 1)| ≤ 1 := by
    rw [abs_of_nonneg (sub_nonneg.mpr (tail_succ_le_one hy n))]
    linarith [tail_succ_nonneg hy n]
  have hpart : |term s (n + 1) * (1 - tail (square s) (n + 1))| ≤
      scale * Real.exp √(square s) := by
    rw [abs_mul]
    exact (mul_le_of_le_one_right (abs_nonneg _) hleft).trans hterm
  have hcos : |scale * Real.cos √(square s)| ≤ scale := by
    rw [abs_mul, Nat.abs_cast]
    exact mul_le_of_le_one_right scale_real_pos.le (Real.abs_cos_le_one _)
  have hsum : (termSum s (n + 1) : ℝ) = drift s (n + 1) +
      term s (n + 1) * (1 - tail (square s) (n + 1)) + scale * Real.cos √(square s) := by
    rw [drift]
    ring
  calc |(termSum s (n + 1) : ℝ)|
      ≤ |drift s (n + 1)| + |term s (n + 1) * (1 - tail (square s) (n + 1))| +
          |scale * Real.cos √(square s)| := by
        rw [hsum]
        exact abs_add_three _ _ _
    _ ≤ (n + 1 : Nat) + scale * Real.exp √(square s) + scale := by gcongr
    _ = n + 1 + scale * (Real.exp √(square s) + 1) := by
        push_cast
        ring

theorem exp_sqrt_le {y : ℝ} (hy : y ≤ 16) : Real.exp √y ≤ 81 := by
  have hroot : √y ≤ (4 : ℕ) * 1 := Real.sqrt_le_iff.mpr ⟨by norm_num, hy.trans (by norm_num)⟩
  calc Real.exp √y ≤ Real.exp ((4 : ℕ) * 1) := Real.exp_le_exp.mpr hroot
    _ = Real.exp 1 ^ 4 := Real.exp_nat_mul 1 4
    _ ≤ 3 ^ 4 := pow_le_pow_left₀ (Real.exp_pos 1).le Real.exp_one_lt_three.le 4
    _ = 81 := by norm_num

/-- Up to a square of sixteen no term and no sum comes near to what is too big. -/
theorem fits_of_square_le (hy : square s ≤ 16) (hn : n ≤ 39) : Fits s n := by
  have hs := scale_real_pos
  have hexp := exp_sqrt_le hy
  have hcapacity : (capacity : ℝ) = scale * scale := by
    exact_mod_cast Decimal.scale_mul_scale.symm
  have hindex : (n : ℝ) ≤ 39 := by exact_mod_cast hn
  constructor
  · apply (Nat.cast_lt (α := ℝ)).mp
    calc ((termCount s n * s / scale : Nat) : ℝ)
        ≤ (termCount s n * s : Nat) / scale := Nat.cast_div_le
      _ = termCount s n * square s := by
          rw [square]
          push_cast
          ring
      _ ≤ scale * Real.exp √(square s) * 16 := by
          gcongr
          · exact square_nonneg s
          · exact termCount_le_exp s n
      _ ≤ scale * 81 * 16 := by gcongr
      _ < capacity := by
          rw [hcapacity, scale_real]
          norm_num
  · apply (Nat.cast_lt (α := ℝ)).mp
    rw [Nat.cast_natAbs, Int.cast_abs]
    calc |(termSum s (n + 1) : ℝ)|
        ≤ n + 1 + scale * (Real.exp √(square s) + 1) := abs_termSum_succ_le s n
      _ ≤ 39 + 1 + scale * (81 + 1) := by gcongr
      _ < capacity := by
          rw [hcapacity, scale_real]
          norm_num

theorem cosine_of_square_le (hx : x.WellFormed) (hy : square (x.magnitude ^ 2 / scale) ≤ 16) :
    cosine ({} : Limits).cosTerms x = .ok (ofUnits (termSum (x.magnitude ^ 2 / scale) 39)) := by
  have hs : x.magnitude ^ 2 / scale < capacity := by
    rw [square, div_le_iff₀ scale_real_pos] at hy
    have hle : x.magnitude ^ 2 / scale ≤ 16 * scale := by exact_mod_cast hy
    exact hle.trans_lt (by decide)
  have hfits : ∀ j < 39, Fits (x.magnitude ^ 2 / scale) j :=
    fun j hj => fits_of_square_le hy (Nat.le_of_lt hj)
  rw [cosine_eq hx (by decide), if_pos ⟨hs, hfits⟩]
  rfl

theorem abs_termSum_sub_cos_le (s : Nat) (h : Odd n) :
    |termSum s n / scale - Real.cos √(square s)| ≤
      n / scale + square s ^ (n + 1) / (2 * (n + 1)).factorial := by
  have hs := scale_real_pos
  have hy := square_nonneg s
  have hrest : 0 ≤ scale * (square s ^ (n + 1) / (2 * (n + 1)).factorial) := by positivity
  obtain ⟨hhigh, hlow⟩ := termSum_bounds s h
  rw [div_sub' hs.ne', div_add' _ _ _ hs.ne', abs_div, abs_of_pos hs]
  apply div_le_div_of_nonneg_right _ hs.le
  rw [abs_le]
  constructor <;> linarith

/-- What is cut off a square is less than a unit. -/
theorem square_gap_le (x : Decimal) :
    |square (x.magnitude ^ 2 / scale) - (x.toRat : ℝ) ^ 2| ≤ 1 / scale := by
  have hs := scale_real_pos
  have hcut : (x.magnitude ^ 2 : ℝ) ≤ scale * ((x.magnitude ^ 2 / scale : Nat) + 1) := by
    exact_mod_cast (Nat.lt_mul_div_succ (x.magnitude ^ 2) Decimal.scale_pos).le
  have hsq : (x.toRat : ℝ) ^ 2 ≤ square (x.magnitude ^ 2 / scale) + 1 / scale := by
    rw [toRat_sq, square, ← add_div]
    gcongr
    exact (div_le_iff₀' hs).mpr hcut
  rw [abs_sub_comm, abs_of_nonneg (sub_nonneg.mpr (square_le x))]
  linarith

theorem square_le_of_abs_le (h : |(x.toRat : ℝ)| ≤ 4) :
    square (x.magnitude ^ 2 / scale) ≤ 16 :=
  calc square (x.magnitude ^ 2 / scale) ≤ (x.toRat : ℝ) ^ 2 := square_le x
    _ = |(x.toRat : ℝ)| ^ 2 := (sq_abs _).symm
    _ ≤ 4 ^ 2 := by gcongr
    _ = 16 := by norm_num

/-- The three distances from the computed sum to the polynomial add up to little more than the
thirty-nine cuts. -/
theorem abs_termSum_sub_cosSum_lt (h : |(x.toRat : ℝ)| ≤ 4) :
    |termSum (x.magnitude ^ 2 / scale) 39 / scale - cosSum 40 x.toRat| < 1 / 10 ^ 18 := by
  have hy := square_nonneg (x.magnitude ^ 2 / scale)
  have hsq := square_le_of_abs_le h
  have hgap := square_gap_le x
  have hsum := abs_termSum_sub_cos_le (x.magnitude ^ 2 / scale) (n := 39) (by decide)
  generalize square (x.magnitude ^ 2 / scale) = y at *
  generalize (termSum (x.magnitude ^ 2 / scale) 39 / scale : ℝ) = total at *
  have hcut : |total - Real.cos √y| ≤ 39 / 10 ^ 20 + 16 ^ 40 / (80).factorial := by
    rw [scale_real] at hsum
    exact hsum.trans (by gcongr; norm_num)
  have hcos : |Real.cos √y - Real.cos x.toRat| ≤ 1 / 10 ^ 20 / 2 := by
    rw [scale_real] at hgap
    refine (Series.abs_cos_sub_cos_le_sq _ _).trans ?_
    rw [Real.sq_sqrt hy]
    gcongr
  have hseries : |Real.cos x.toRat - cosSum 40 x.toRat| ≤ 4 ^ 80 / (80).factorial :=
    (Series.abs_cos_sub_cosSum_le 39 x.toRat).trans (by gcongr)
  calc |total - cosSum 40 x.toRat|
      ≤ |total - Real.cos √y| + |Real.cos √y - Real.cos x.toRat| +
          |Real.cos x.toRat - cosSum 40 x.toRat| := by
        refine (abs_sub_le _ (Real.cos x.toRat) _).trans ?_
        gcongr
        exact abs_sub_le _ _ _
    _ ≤ 39 / 10 ^ 20 + 16 ^ 40 / (80).factorial + 1 / 10 ^ 20 / 2 +
          4 ^ 80 / (80).factorial := by gcongr
    _ < 1 / 10 ^ 18 := by norm_num [Nat.factorial]

/-- Up to four in size every argument has a cosine of forty terms, and it agrees with the Taylor
polynomial of forty terms to eighteen places. -/
theorem cosine_accurate (hx : x.WellFormed) (h : |x.toRat| ≤ 4) :
    ∃ r : Decimal, r.WellFormed ∧ cosine ({} : Limits).cosTerms x = .ok r ∧
      |r.toRat - ∑ k ∈ range 40, (-1) ^ k * x.toRat ^ (2 * k) / (2 * k).factorial| <
        1 / 10 ^ 18 := by
  have hreal : |(x.toRat : ℝ)| ≤ 4 := by exact_mod_cast h
  have hcosine := cosine_of_square_le hx (square_le_of_abs_le hreal)
  refine ⟨_, wellFormed_ofUnits _, hcosine, ?_⟩
  have hclose := abs_termSum_sub_cosSum_lt hreal
  apply (Rat.cast_lt (K := ℝ)).mp
  rw [toRat_of_cosine hx hcosine]
  push_cast
  exact hclose

/-- At the end of the range, where the sum is off by nine tenths of a unit. -/
theorem cosine_accurate_four :
    |(ofUnits (4 * 10 ^ 20)).toRat| ≤ 4 ∧
      cosine ({} : Limits).cosTerms (ofUnits (4 * 10 ^ 20)) =
        .ok (ofUnits (-65364362086361191463)) ∧
      |(ofUnits (-65364362086361191463)).toRat -
          ∑ k ∈ range 40, (-1) ^ k * (ofUnits (4 * 10 ^ 20)).toRat ^ (2 * k) / (2 * k).factorial| <
        1 / 10 ^ 18 := by
  have hx : |(ofUnits (4 * 10 ^ 20)).toRat| ≤ 4 := by
    rw [Decimal.toRat_ofUnits (by decide)]
    norm_num [scale]
  have hcosine : cosine ({} : Limits).cosTerms (ofUnits (4 * 10 ^ 20)) =
      .ok (ofUnits (-65364362086361191463)) :=
    cosine_ofUnits (u := 4 * 10 ^ 20) (by decide) (by decide +kernel)
  obtain ⟨r, _, hr, hclose⟩ := cosine_accurate (wellFormed_ofUnits _) hx
  rw [hcosine] at hr
  cases hr
  exact ⟨hx, hcosine, hclose⟩

end DeskCalculator.NamedFunction
