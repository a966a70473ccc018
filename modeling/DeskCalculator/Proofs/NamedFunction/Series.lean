import Mathlib.Analysis.Calculus.Deriv.MeanValue
import Mathlib.Analysis.Real.Pi.Bounds
import Mathlib.Analysis.SpecialFunctions.Trigonometric.Bounds
import Mathlib.Topology.Algebra.Module.ModuleTopology

namespace DeskCalculator.Series

open Finset (range sum_range_succ)
open Real (cos sin)
open scoped Real

/-- The terms of the cosine's series before number `k`. -/
noncomputable def cosSum (k : ℕ) (z : ℝ) : ℝ :=
  ∑ n ∈ range k, (-1) ^ n * z ^ (2 * n) / (2 * n).factorial

/-- The terms of the sine's series before number `k`. -/
noncomputable def sinSum (k : ℕ) (z : ℝ) : ℝ :=
  ∑ n ∈ range k, (-1) ^ n * z ^ (2 * n + 1) / (2 * n + 1).factorial

theorem sinSum_zero (k : ℕ) : sinSum k 0 = 0 := by
  simp [sinSum]

theorem cosSum_succ_zero (k : ℕ) : cosSum (k + 1) 0 = 1 := by
  simp [cosSum, Finset.sum_range_succ']

theorem hasDerivAt_sinSum (k : ℕ) (z : ℝ) : HasDerivAt (sinSum k) (cosSum k z) z := by
  apply HasDerivAt.fun_sum
  intro n _
  have hterm := ((hasDerivAt_pow (2 * n + 1) z).const_mul ((-1) ^ n)).div_const
    ((2 * n + 1).factorial : ℝ)
  refine hterm.congr_deriv ?_
  rw [Nat.factorial_succ]
  push_cast
  field_simp

/-- The first term is constant, and each of the others goes with the sine's term before it. -/
theorem hasDerivAt_cosSum (k : ℕ) (z : ℝ) : HasDerivAt (cosSum (k + 1)) (-sinSum k z) z := by
  have hsplit : cosSum (k + 1) = fun z : ℝ =>
      ∑ n ∈ range k, (-1) ^ (n + 1) * z ^ (2 * (n + 1)) / ((2 * (n + 1)).factorial : ℝ) + 1 := by
    funext z
    simp [cosSum, Finset.sum_range_succ']
  rw [hsplit, sinSum, ← Finset.sum_neg_distrib]
  apply HasDerivAt.add_const
  apply HasDerivAt.fun_sum
  intro n _
  have hterm := ((hasDerivAt_pow (2 * (n + 1)) z).const_mul ((-1) ^ (n + 1))).div_const
    ((2 * (n + 1)).factorial : ℝ)
  refine hterm.congr_deriv ?_
  rw [show 2 * (n + 1) = 2 * n + 1 + 1 by ring, Nat.factorial_succ]
  push_cast
  field_simp
  ring

/-- A function that starts at zero and does not decrease is not negative. -/
theorem nonneg_of_hasDerivAt {f f' : ℝ → ℝ} (h0 : f 0 = 0) (hf : ∀ t, HasDerivAt f (f' t) t)
    (hf' : ∀ t, 0 ≤ t → 0 ≤ f' t) {z : ℝ} (hz : 0 ≤ z) : 0 ≤ f z := by
  have hmono : MonotoneOn f (Set.Ici 0) := by
    apply monotoneOn_of_hasDerivWithinAt_nonneg (convex_Ici 0)
    · exact fun t _ => (hf t).continuousAt.continuousWithinAt
    · exact fun t _ => (hf t).hasDerivWithinAt
    · exact fun t ht => hf' t (interior_subset ht)
  simpa [h0] using hmono Set.self_mem_Ici hz hz

/-- What the cosine has more than its series before term number `k`, with the sign of that term. -/
noncomputable def cosRest (k : ℕ) (z : ℝ) : ℝ := (-1) ^ k * (cos z - cosSum k z)

/-- What the sine has more than its series before term number `k`, with the sign of that term. -/
noncomputable def sinRest (k : ℕ) (z : ℝ) : ℝ := (-1) ^ k * (sin z - sinSum k z)

theorem hasDerivAt_sinRest (k : ℕ) (z : ℝ) : HasDerivAt (sinRest k) (cosRest k z) z :=
  ((Real.hasDerivAt_sin z).sub (hasDerivAt_sinSum k z)).const_mul _

theorem hasDerivAt_cosRest (k : ℕ) (z : ℝ) : HasDerivAt (cosRest (k + 1)) (sinRest k z) z := by
  have hsub := ((Real.hasDerivAt_cos z).sub (hasDerivAt_cosSum k z)).const_mul ((-1) ^ (k + 1))
  refine hsub.congr_deriv ?_
  unfold sinRest
  ring

theorem sinRest_nonneg {k : ℕ} (h : ∀ z, 0 ≤ z → 0 ≤ cosRest k z) {z : ℝ} (hz : 0 ≤ z) :
    0 ≤ sinRest k z :=
  nonneg_of_hasDerivAt (by simp [sinRest, sinSum_zero]) (hasDerivAt_sinRest k) h hz

/-- The two series bound each other in turn, each by integration of the other. -/
theorem cosRest_succ_nonneg (k : ℕ) {z : ℝ} (hz : 0 ≤ z) : 0 ≤ cosRest (k + 1) z := by
  induction k generalizing z with
  | zero => simp [cosRest, cosSum, Real.cos_le_one]
  | succ k ih =>
    have hsin : ∀ t, 0 ≤ t → 0 ≤ sinRest (k + 1) t := fun t => sinRest_nonneg fun _ => ih
    have hzero : cosRest (k + 1 + 1) 0 = 0 := by simp [cosRest, cosSum_succ_zero]
    exact nonneg_of_hasDerivAt hzero (hasDerivAt_cosRest (k + 1)) hsin hz

/-- What the series leaves out begins with the next term. -/
theorem cosRest_eq (k : ℕ) (z : ℝ) :
    cosRest k z = z ^ (2 * k) / (2 * k).factorial - cosRest (k + 1) z := by
  have hsign : ((-1 : ℝ) ^ k) * (-1) ^ k = 1 := by rw [← mul_pow]; simp
  rw [cosRest, cosRest, cosSum, cosSum, sum_range_succ]
  linear_combination (z ^ (2 * k) / (2 * k).factorial) * hsign

theorem cosSum_abs (k : ℕ) (z : ℝ) : cosSum k |z| = cosSum k z := by
  unfold cosSum
  refine Finset.sum_congr rfl ?_
  intro n _
  rw [(even_two_mul n).pow_abs]

theorem abs_cos_sub_cosSum_le (k : ℕ) (z : ℝ) :
    |cos z - cosSum (k + 1) z| ≤ |z| ^ (2 * (k + 1)) / (2 * (k + 1)).factorial := by
  have hrest := cosRest_succ_nonneg k (abs_nonneg z)
  have hnext := cosRest_succ_nonneg (k + 1) (abs_nonneg z)
  have habs : |cos z - cosSum (k + 1) z| = |cosRest (k + 1) (|z|)| := by
    simp [cosRest, cosSum_abs, abs_mul]
  rw [habs, abs_of_nonneg hrest, cosRest_eq]
  linarith

/-- Between two arguments the cosine changes by half of what their squares do at most. -/
theorem abs_cos_sub_cos_le_sq (a b : ℝ) : |cos a - cos b| ≤ |a ^ 2 - b ^ 2| / 2 :=
  calc |cos a - cos b| = 2 * |sin ((a + b) / 2)| * |sin ((a - b) / 2)| := by
        rw [Real.cos_sub_cos, abs_mul, abs_mul, abs_neg, abs_two]
    _ ≤ 2 * |(a + b) / 2| * |(a - b) / 2| := by
        gcongr 2 * ?_ * ?_
        · exact Real.abs_sin_le_abs
        · exact Real.abs_sin_le_abs
    _ = |a ^ 2 - b ^ 2| / 2 := by
        rw [show a ^ 2 - b ^ 2 = (a + b) * (a - b) by ring, abs_div, abs_div, abs_mul, abs_two]
        ring

/-- The cosine's series from term number `k` on, as a multiple of that term; `y` is the square of
the argument. -/
noncomputable def tail (y : ℝ) (k : ℕ) : ℝ :=
  if y = 0 then 1 else (2 * k).factorial / y ^ k * cosRest k √y

variable {y : ℝ}

theorem tail_zero (y : ℝ) : tail y 0 = cos √y := by
  unfold tail
  split
  · simp [*]
  · simp [cosRest, cosSum]

/-- A tail is its first term less the next tail. -/
theorem tail_eq (hy : 0 ≤ y) (k : ℕ) :
    tail y k = 1 - y / ((2 * k + 1) * (2 * k + 2)) * tail y (k + 1) := by
  unfold tail
  split
  · simp [*]
  · have hpow : √y ^ (2 * k) = y ^ k := by rw [pow_mul, Real.sq_sqrt hy]
    have hfac : ((2 * (k + 1)).factorial : ℝ) = (2 * k + 2) * (2 * k + 1) * (2 * k).factorial := by
      rw [show 2 * (k + 1) = 2 * k + 1 + 1 by ring, Nat.factorial_succ, Nat.factorial_succ]
      push_cast
      ring
    rw [cosRest_eq k, hpow, hfac]
    field_simp
    ring

theorem tail_succ_nonneg (hy : 0 ≤ y) (k : ℕ) : 0 ≤ tail y (k + 1) := by
  unfold tail
  split
  · exact zero_le_one
  · exact mul_nonneg (by positivity) (cosRest_succ_nonneg k (Real.sqrt_nonneg y))

theorem tail_succ_le_one (hy : 0 ≤ y) (k : ℕ) : tail y (k + 1) ≤ 1 := by
  rw [tail_eq hy]
  exact sub_le_self 1 (mul_nonneg (by positivity) (tail_succ_nonneg hy (k + 1)))

/-- Short of 7π the cosine is not quite back at minus one. -/
theorem cos_gt_neg_one {z : ℝ} (hlow : 18 ≤ z) (hhigh : z ≤ 21.9911) :
    -1 + 1 / 10 ^ 10 ≤ cos z := by
  have hpi := Real.pi_gt_d20
  have hpi' := Real.pi_lt_d20
  have habs : |z - 6 * π| ≤ 21.9911 - 6 * π := by
    rw [abs_le]
    constructor <;> linarith
  have hgap : 4.8 / 10 ^ 5 ≤ π - |z - 6 * π| := by linarith
  have hcos : cos z = -cos (π - |z - 6 * π|) := by
    rw [Real.cos_pi_sub, neg_neg, Real.cos_abs, show z - 6 * π = z - (3 : ℕ) * (2 * π) by
      push_cast; ring, Real.cos_sub_nat_mul_two_pi]
  have hquad : cos (π - |z - 6 * π|) ≤ 1 - 2 / π ^ 2 * (π - |z - 6 * π|) ^ 2 := by
    apply Real.cos_le_one_sub_mul_cos_sq
    rw [abs_of_pos (by linarith)]
    linarith [abs_nonneg (z - 6 * π)]
  have hcoeff : 1 / 5 ≤ 2 / π ^ 2 := by
    rw [div_le_div_iff₀ (by norm_num) (by positivity)]
    nlinarith
  have hsquare : (4.8 / 10 ^ 5 : ℝ) ^ 2 ≤ (π - |z - 6 * π|) ^ 2 :=
    pow_le_pow_left₀ (by norm_num) hgap 2
  have hproduct : (1 / 10 ^ 10 : ℝ) ≤ 2 / π ^ 2 * (π - |z - 6 * π|) ^ 2 :=
    calc (1 / 10 ^ 10 : ℝ) ≤ 1 / 5 * (4.8 / 10 ^ 5) ^ 2 := by norm_num
      _ ≤ 2 / π ^ 2 * (π - |z - 6 * π|) ^ 2 :=
        mul_le_mul hcoeff hsquare (by positivity) (by positivity)
  linarith only [hcos, hquad, hproduct]

end DeskCalculator.Series
