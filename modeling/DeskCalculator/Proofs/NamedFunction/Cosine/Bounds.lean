import DeskCalculator.Proofs.Decimal.Rational
import DeskCalculator.Proofs.NamedFunction.Cosine
import DeskCalculator.Proofs.NamedFunction.Series
import Mathlib.Algebra.Order.Floor.Semifield

namespace DeskCalculator.NamedFunction

open Decimal (attach capacity ofUnits scale wellFormed_ofUnits)
open Series (tail tail_eq tail_zero tail_succ_le_one tail_succ_nonneg)

variable {s n : Nat} {x r : Decimal}

/-- The square that `s` units stand for. -/
noncomputable def square (s : Nat) : ℝ := s / scale

theorem square_nonneg (s : Nat) : 0 ≤ square s := by unfold square; positivity

theorem scale_real_pos : (0 : ℝ) < scale := by exact_mod_cast Decimal.scale_pos

theorem scale_real : (scale : ℝ) = 10 ^ 20 := by norm_num [scale]

/-- What comes of a term by the series' own step, before it is cut to the next term. -/
noncomputable def uncut (s n : Nat) : ℝ := termCount s n * (square s / ((2 * n + 1) * (2 * n + 2)))

theorem uncut_nonneg (s n : Nat) : 0 ≤ uncut s n := by
  have := square_nonneg s
  unfold uncut
  positivity

/-- The product and the quotient that make a term come to one that is cut once. -/
theorem termCount_succ (s n : Nat) : termCount s (n + 1) = ⌊uncut s n⌋₊ := by
  have hdivisor : 2 * (n + 1) * (2 * (n + 1) - 1) = (2 * n + 1) * (2 * n + 2) := by
    rw [Nat.mul_comm]
    rfl
  rw [termCount, hdivisor, Nat.div_div_eq_div_mul, ← Nat.floor_div_eq_div (K := ℝ), uncut, square]
  push_cast
  congr 1
  field_simp

theorem termCount_succ_le (s n : Nat) : termCount s (n + 1) ≤ uncut s n := by
  rw [termCount_succ]
  exact Nat.floor_le (uncut_nonneg s n)

theorem uncut_lt (s n : Nat) : uncut s n < termCount s (n + 1) + 1 := by
  rw [termCount_succ]
  exact Nat.lt_floor_add_one _

theorem uncut_le_of (h : termCount s n ≤ scale * (square s ^ n / (2 * n).factorial)) :
    uncut s n ≤ scale * (square s ^ (n + 1) / (2 * (n + 1)).factorial) := by
  have hy := square_nonneg s
  calc uncut s n
      ≤ scale * (square s ^ n / (2 * n).factorial) * (square s / ((2 * n + 1) * (2 * n + 2))) := by
        unfold uncut
        gcongr
    _ = scale * (square s ^ (n + 1) / (2 * (n + 1)).factorial) := by
        rw [show 2 * (n + 1) = 2 * n + 1 + 1 by ring, Nat.factorial_succ, Nat.factorial_succ]
        push_cast
        field_simp
        ring

/-- Cutting makes no term bigger than the series has it. -/
theorem termCount_le (s n : Nat) :
    termCount s n ≤ scale * (square s ^ n / (2 * n).factorial) := by
  induction n with
  | zero => simp [termCount]
  | succ n ih => exact (termCount_succ_le s n).trans (uncut_le_of ih)

/-- No more does the step from it. -/
theorem uncut_le (s n : Nat) :
    uncut s n ≤ scale * (square s ^ (n + 1) / (2 * (n + 1)).factorial) :=
  uncut_le_of (termCount_le s n)

theorem term_cast (s n : Nat) : (term s n : ℝ) = (-1) ^ n * termCount s n := by
  have hsign : ∀ c : Nat, ((attach n.bodd c : Int) : ℝ) = (-1) ^ n * c := by
    intro c
    induction n with
    | zero => simp [attach]
    | succ n ih =>
      have hflip : attach (!n.bodd) c = -attach n.bodd c := by cases n.bodd <;> simp [attach]
      rw [Nat.bodd_succ, hflip, Int.cast_neg, ih, pow_succ]
      ring
  exact hsign _

/-- What a sum is off the cosine, when its last term is taken for all of the series from there
on. -/
noncomputable def drift (s n : Nat) : ℝ :=
  termSum s n - term s n * (1 - tail (square s) n) - scale * Real.cos √(square s)

theorem drift_zero (s : Nat) : drift s 0 = 0 := by
  simp only [drift, termSum, term_zero, tail_zero, Int.cast_natCast]
  ring

/-- A term is cut by less than a unit, and only the part of it counts that the tail leaves. -/
theorem abs_drift_succ_le (s n : Nat) : |drift s (n + 1)| ≤ |drift s n| + 1 := by
  have hy := square_nonneg s
  have hcut : |uncut s n - termCount s (n + 1)| ≤ 1 := by
    rw [abs_of_nonneg (sub_nonneg.mpr (termCount_succ_le s n))]
    linarith [uncut_lt s n]
  have htail : |tail (square s) (n + 1)| ≤ 1 := by
    rw [abs_of_nonneg (tail_succ_nonneg hy n)]
    exact tail_succ_le_one hy n
  -- the tail behind the old term takes up the new one, all but what is cut off it
  have hstep : drift s (n + 1) = drift s n +
      (-1) ^ n * (tail (square s) (n + 1) * (uncut s n - termCount s (n + 1))) := by
    rw [drift, drift, termSum, Int.cast_add, term_cast, term_cast, tail_eq hy n, pow_succ, uncut]
    ring
  calc |drift s (n + 1)|
      ≤ |drift s n| +
          |(-1) ^ n * (tail (square s) (n + 1) * (uncut s n - termCount s (n + 1)))| := by
        rw [hstep]
        exact abs_add_le _ _
    _ = |drift s n| + |tail (square s) (n + 1)| * |uncut s n - termCount s (n + 1)| := by
        rw [abs_mul, abs_neg_one_pow, one_mul, abs_mul]
    _ ≤ |drift s n| + 1 := by
        gcongr
        exact mul_le_one₀ htail (abs_nonneg _) hcut

theorem abs_drift_le (s n : Nat) : |drift s n| ≤ n := by
  induction n with
  | zero => simp [drift_zero]
  | succ n ih =>
    have := abs_drift_succ_le s n
    push_cast
    linarith

/-- A sum whose last term is taken off is above the cosine by its cuts only, and below it by its
cuts and the first term left out. -/
theorem termSum_bounds (s : Nat) (h : Odd n) :
    termSum s n ≤ scale * Real.cos √(square s) + n ∧
      scale * Real.cos √(square s) - n - scale * (square s ^ (n + 1) / (2 * (n + 1)).factorial) ≤
        termSum s n := by
  have hy := square_nonneg s
  have hnext := uncut_le s n
  have hpart := mul_le_of_le_one_right (uncut_nonneg s n) (tail_succ_le_one hy n)
  have hpart' := mul_nonneg (uncut_nonneg s n) (tail_succ_nonneg hy n)
  obtain ⟨hlow, hhigh⟩ := abs_le.mp (abs_drift_le s n)
  have hsum : (termSum s n : ℝ) = drift s n + scale * Real.cos √(square s) -
      uncut s n * tail (square s) (n + 1) := by
    rw [drift, term_cast, h.neg_one_pow, tail_eq hy n, uncut]
    ring
  constructor <;> linarith

/-- A cosine that is found is a sum of forty terms. -/
theorem toRat_of_cosine (hx : x.WellFormed) (h : cosine ({} : Limits).cosTerms x = .ok r) :
    r.toRat = termSum (x.magnitude ^ 2 / scale) 39 / scale := by
  rw [cosine_eq hx (by decide)] at h
  split at h
  · next hfit =>
    cases h
    exact Decimal.toRat_ofUnits (hfit.2 38 (by decide)).2
  · cases h

theorem cosine_ofUnits {u : Nat} {total : Int} (hu : u < capacity)
    (h : u ^ 2 / scale < capacity ∧ (∀ j < 39, Fits (u ^ 2 / scale) j) ∧
      termSum (u ^ 2 / scale) 39 = total) :
    cosine ({} : Limits).cosTerms (ofUnits u) = .ok (ofUnits total) := by
  obtain ⟨hsquare, hfits, htotal⟩ := h
  rw [cosine_eq (wellFormed_ofUnits _) (by decide), Decimal.magnitude_ofUnits hu,
    if_pos ⟨hsquare, hfits⟩, ← htotal]
  rfl

theorem toRat_sq (x : Decimal) : (x.toRat : ℝ) ^ 2 = x.magnitude ^ 2 / scale / scale := by
  have hs := scale_real_pos
  rw [Decimal.toRat, ← Decimal.natAbs_units]
  push_cast
  rw [div_pow, Nat.cast_natAbs, Int.cast_abs, sq_abs]
  field_simp

/-- Cutting makes no square bigger. -/
theorem square_le (x : Decimal) : square (x.magnitude ^ 2 / scale) ≤ (x.toRat : ℝ) ^ 2 := by
  have hs := scale_real_pos
  have hfloor : ((x.magnitude ^ 2 / scale : Nat) : ℝ) ≤ x.magnitude ^ 2 / scale := by
    exact_mod_cast Nat.cast_div_le
  rw [toRat_sq, square]
  gcongr

theorem forty_terms (s : Nat) :
    (termSum s 39 / scale : ℝ) ≤ 1 + 1 / 10 ^ 18 ∧
      Real.cos √(square s) - 39 / 10 ^ 20 - square s ^ 40 / (80).factorial ≤
        (termSum s 39 / scale : ℝ) := by
  obtain ⟨hhigh, hlow⟩ := termSum_bounds s (n := 39) (by decide)
  have hcos := Real.cos_le_one √(square s)
  constructor
  · rw [div_le_iff₀ scale_real_pos, scale_real]
    rw [scale_real] at hhigh
    norm_num at hhigh ⊢
    linarith
  · rw [le_div_iff₀ scale_real_pos, scale_real]
    rw [scale_real] at hlow
    have hleft : (39 / 10 ^ 20 : ℝ) * 10 ^ 20 = 39 := by norm_num
    rw [sub_mul, sub_mul, hleft]
    push_cast at hlow
    linarith

/-- Up to nearly seven half turns the cosine is far enough above minus one, wherever the first term
left out is not small. -/
theorem cos_sub_rest_ge {y : ℝ} (h0 : 0 ≤ y) (hy : y ≤ 21.9911 ^ 2) :
    -1 - 6 / 10 ^ 19 ≤ Real.cos √y - y ^ 40 / (80).factorial := by
  rcases le_total y (18 ^ 2) with hsmall | hlarge
  · have hrest : y ^ 40 / (80).factorial ≤ 6 / 10 ^ 19 :=
      calc y ^ 40 / (80).factorial ≤ (18 ^ 2) ^ 40 / (80).factorial := by gcongr
        _ ≤ 6 / 10 ^ 19 := by norm_num [Nat.factorial]
    have hcos := Real.neg_one_le_cos √y
    linarith
  · have hrest : y ^ 40 / (80).factorial ≤ 1 / 10 ^ 10 :=
      calc y ^ 40 / (80).factorial ≤ (21.9911 ^ 2) ^ 40 / (80).factorial := by gcongr
        _ ≤ 1 / 10 ^ 10 := by norm_num [Nat.factorial]
    have hcos := Series.cos_gt_neg_one (Real.le_sqrt_of_sq_le hlarge)
      (Real.sqrt_le_iff.mpr ⟨by norm_num, hy⟩)
    have hunits : (0 : ℝ) ≤ 6 / 10 ^ 19 := by positivity
    linarith

/-- Cosines of forty terms are at most one, up to what is cut, and at least minus one less the first
term left out, which stays small up to an argument of nearly seven half turns. -/
theorem cosine_bounded (hx : x.WellFormed) (h : cosine ({} : Limits).cosTerms x = .ok r) :
    r.toRat ≤ 1 + 1 / 10 ^ 18 ∧
      -1 - 1 / 10 ^ 18 - x.toRat ^ 80 / (80).factorial ≤ r.toRat ∧
      (|x.toRat| ≤ 21.9911 → -1 - 1 / 10 ^ 18 ≤ r.toRat) := by
  obtain ⟨hhigh, hlow⟩ := forty_terms (x.magnitude ^ 2 / scale)
  have hr : (r.toRat : ℝ) = termSum (x.magnitude ^ 2 / scale) 39 / scale := by
    rw [toRat_of_cosine hx h]
    push_cast
    rfl
  have hsquare := square_le x
  have hsquare0 := square_nonneg (x.magnitude ^ 2 / scale)
  rw [← hr] at hhigh hlow
  generalize square (x.magnitude ^ 2 / scale) = y at hlow hsquare hsquare0
  -- the bounds hold for real numbers, and are cast back one by one
  refine ⟨?_, ?_, ?_⟩
  · apply (Rat.cast_le (K := ℝ)).mp
    push_cast
    exact hhigh
  · have hcos := Real.neg_one_le_cos √y
    have hrest : y ^ 40 / (80).factorial ≤ (x.toRat : ℝ) ^ 80 / (80).factorial :=
      calc y ^ 40 / (80).factorial ≤ ((x.toRat : ℝ) ^ 2) ^ 40 / (80).factorial := by gcongr
        _ = (x.toRat : ℝ) ^ 80 / (80).factorial := by rw [← pow_mul]
    apply (Rat.cast_le (K := ℝ)).mp
    push_cast
    linarith
  · intro habs
    have hbound : |(x.toRat : ℝ)| ≤ 21.9911 := by
      have := (Rat.cast_le (K := ℝ)).mpr habs
      push_cast at this
      exact this
    have hy : y ≤ 21.9911 ^ 2 :=
      calc y ≤ (x.toRat : ℝ) ^ 2 := hsquare
        _ = |(x.toRat : ℝ)| ^ 2 := (sq_abs _).symm
        _ ≤ 21.9911 ^ 2 := by gcongr
    have hcos := cos_sub_rest_ge hsquare0 hy
    apply (Rat.cast_le (K := ℝ)).mp
    push_cast
    linarith

/-- At the end of that range, where the first term left out counts in the twelfth place. -/
theorem cosine_bounded_edge :
    |(ofUnits 2199110000000000000000).toRat| ≤ 21.9911 ∧
      cosine ({} : Limits).cosTerms (ofUnits 2199110000000000000000) =
        .ok (ofUnits (-99999999882335027708)) ∧
      -1 - 1 / 10 ^ 18 ≤ (ofUnits (-99999999882335027708)).toRat := by
  have hx : |(ofUnits 2199110000000000000000).toRat| ≤ 21.9911 := by
    rw [Decimal.toRat_ofUnits (by decide)]
    norm_num [scale]
  have hcosine : cosine ({} : Limits).cosTerms (ofUnits 2199110000000000000000) =
      .ok (ofUnits (-99999999882335027708)) :=
    cosine_ofUnits (u := 2199110000000000000000) (by decide) (by decide +kernel)
  exact ⟨hx, hcosine, (cosine_bounded (wellFormed_ofUnits _) hcosine).2.2 hx⟩

/-- Right below seven half turns forty terms miss the cosine by more than it is above minus one. -/
theorem cosine_below_minus_one :
    (ofUnits 2199114700000000000000).WellFormed ∧
      cosine ({} : Limits).cosTerms (ofUnits 2199114700000000000000) =
        .ok (ofUnits (-100000000000188185172)) ∧
      (ofUnits (-100000000000188185172)).toRat < -1 - 1 / 10 ^ 18 := by
  refine ⟨wellFormed_ofUnits _, ?_, ?_⟩
  · exact cosine_ofUnits (u := 2199114700000000000000) (by decide) (by decide +kernel)
  · rw [Decimal.toRat_ofUnits (by decide)]
    norm_num [scale]

end DeskCalculator.NamedFunction
