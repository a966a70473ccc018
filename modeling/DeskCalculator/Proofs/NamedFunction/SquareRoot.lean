import DeskCalculator.Proofs.Decimal.Rational
import DeskCalculator.Proofs.NamedFunction
import DeskCalculator.Proofs.NamedFunction.Newton
import Mathlib.Analysis.Real.Sqrt

namespace DeskCalculator

open Decimal (capacity fit fit_cast_of_le fit_cast_of_lt ofUnits scale units_ofUnits
  wellFormed_ofUnits)
open Newton (mean Settled Within)

namespace NamedFunction

variable {x r : Decimal} {a g : Nat}

theorem newtonStep_cast (ha : a < capacity) (hg : g < capacity) (h0 : g ≠ 0) :
    newtonStep (ofUnits a) (ofUnits g) =
      if g + a * scale / g < capacity then .ok (ofUnits (mean (a * scale) g))
      else .error .overflow := by
  change (Decimal.div (ofUnits a) (ofUnits g) >>= fun quotient =>
    Decimal.add (ofUnits g) quotient >>= fun sum => Decimal.div sum Decimal.two) = _
  have htwo : Decimal.two = ofUnits (scale * 2 : Nat) := Decimal.whole_eq (by decide)
  rw [Decimal.div_cast ha hg h0]
  by_cases hsum : g + a * scale / g < capacity
  · have hq : a * scale / g < capacity := by omega
    have hm : mean (a * scale) g < capacity := by
      unfold mean
      omega
    have hhalf : (g + a * scale / g) * scale / (scale * 2) = mean (a * scale) g := by
      rw [Nat.mul_comm scale, Nat.mul_div_mul_right _ _ Decimal.scale_pos, mean]
    rw [if_pos hsum, fit_cast_of_lt hq, Outcome.ok_bind, Decimal.add_cast hg hq,
      fit_cast_of_lt hsum, Outcome.ok_bind, htwo, Decimal.div_cast hsum (by decide) (by decide),
      hhalf, fit_cast_of_lt hm]
  · rw [if_neg hsum]
    by_cases hq : a * scale / g < capacity
    · rw [fit_cast_of_lt hq, Outcome.ok_bind, Decimal.add_cast hg hq,
        fit_cast_of_le (Nat.not_lt.mp hsum)]
      rfl
    · rw [fit_cast_of_le (Nat.not_lt.mp hq)]
      rfl

/-- The radicand of a number has a root below 10³⁰. -/
theorem sqrt_radicand_lt (ha : a < capacity) : (a * scale).sqrt < 10 ^ 30 := by
  apply Nat.sqrt_lt.mpr
  calc a * scale < capacity * scale := Nat.mul_lt_mul_of_pos_right ha Decimal.scale_pos
    _ = 10 ^ 30 * 10 ^ 30 := by decide

theorem sqrt_radicand_pos (h0 : 0 < a) : 0 < (a * scale).sqrt :=
  Nat.sqrt_pos.mpr (Nat.mul_pos h0 Decimal.scale_pos)

/-- From the root up to half of the capacity a guess and its quotient have a sum that fits. -/
theorem sum_lt_capacity (h0 : 0 < a) (ha : a < capacity) (hge : (a * scale).sqrt ≤ g)
    (hle : 2 * g ≤ capacity) : g + a * scale / g < capacity := by
  have hs := sqrt_radicand_lt ha
  have hpos := sqrt_radicand_pos h0
  have hq : a * scale / g < (a * scale).sqrt + 3 := by
    apply Nat.div_lt_of_lt_mul
    have hn := (a * scale).sqrt_le_add
    have hg := Nat.mul_le_mul_right ((a * scale).sqrt + 3) hge
    nlinarith
  have hcap : capacity = 10 ^ 40 := rfl
  omega

/-- Where a guess repeats, all later ones repeat it, so that stopping there makes no difference. -/
theorem refine_succ_cast {steps : Nat} (ha : a < capacity) (hg : g < capacity) (h0 : g ≠ 0)
    (hsum : g + a * scale / g < capacity)
    (hrest : NamedFunction.refine (ofUnits a) steps (ofUnits (mean (a * scale) g)) =
      .ok (ofUnits ((mean (a * scale))^[steps] (mean (a * scale) g) : Nat))) :
    NamedFunction.refine (ofUnits a) (steps + 1) (ofUnits g) =
      .ok (ofUnits ((mean (a * scale))^[steps + 1] g : Nat)) := by
  have hmean : mean (a * scale) g < capacity := by
    unfold mean
    omega
  rw [NamedFunction.refine, newtonStep_cast ha hg h0, if_pos hsum, Outcome.ok_bind,
    Function.iterate_succ_apply]
  by_cases heq : ofUnits (mean (a * scale) g) = ofUnits g
  · have hfix : mean (a * scale) g = g := by
      have hm := congrArg Decimal.magnitude heq
      rwa [Decimal.magnitude_ofUnits hmean, Decimal.magnitude_ofUnits hg] at hm
    rw [if_pos heq, hfix, Function.iterate_fixed hfix]
  · rw [if_neg heq]
    exact hrest

theorem refine_cast (h0 : 0 < a) (ha : a < capacity) (hge : (a * scale).sqrt ≤ g)
    (hle : 2 * g ≤ capacity) (steps : Nat) :
    NamedFunction.refine (ofUnits a) steps (ofUnits g) =
      .ok (ofUnits ((mean (a * scale))^[steps] g : Nat)) := by
  have hpos := sqrt_radicand_pos h0
  induction steps generalizing g with
  | zero => rfl
  | succ steps ih =>
    have hsum := sum_lt_capacity h0 ha hge hle
    have hmean : 2 * mean (a * scale) g ≤ capacity := by
      unfold mean
      omega
    have hroot : (a * scale).sqrt ≤ mean (a * scale) g := Newton.sqrt_le_mean (by omega)
    exact refine_succ_cast ha (by omega) (by omega) hsum (ih hroot hmean)

/-- The root of a positive number: as many of Newton's steps as there may be, unless the sum of one
and the number is too big. -/
theorem squareRoot_cast (h0 : 0 < a) (ha : a < capacity) (iterations : Int) :
    squareRoot iterations (ofUnits a) =
      if 0 < iterations ∧ capacity ≤ scale + a then .error .overflow
      else .ok (ofUnits ((mean (a * scale))^[iterations.toNat] scale : Nat)) := by
  have hu : (ofUnits a).units = a := Decimal.units_cast ha
  have hn : (ofUnits a).negative = false := by
    rw [Bool.eq_false_iff, ne_eq, (wellFormed_ofUnits _).negative_iff, hu]
    omega
  have hz : ¬ (ofUnits a).isZero = true := by
    rw [Decimal.isZero_iff_units, hu]
    omega
  have hone : a * scale / scale = a := Nat.mul_div_cancel _ Decimal.scale_pos
  rw [squareRoot, hn, if_neg Bool.false_ne_true, if_neg hz, Decimal.one_eq]
  cases hsteps : iterations.toNat with
  | zero =>
    rw [if_neg (by omega)]
    rfl
  | succ steps =>
    -- only the first sum can overflow, since from then on no guess is above half of the capacity
    by_cases hsum : scale + a < capacity
    · have hmean : 2 * mean (a * scale) scale ≤ capacity := by
        rw [mean, hone]
        omega
      have hroot : (a * scale).sqrt ≤ mean (a * scale) scale := Newton.sqrt_le_mean (by decide)
      rw [if_neg (by omega)]
      exact refine_succ_cast ha (by decide) (by decide) (by rwa [hone])
        (refine_cast h0 ha hroot hmean steps)
    · rw [if_pos ⟨by omega, by omega⟩, NamedFunction.refine,
        newtonStep_cast ha (by decide) (by decide), hone, if_neg hsum]
      rfl

/-- The second guess is above the root by a factor of at most 2³⁵. -/
theorem mean_scale_le (h0 : 0 < a) (ha : a < capacity) :
    mean (a * scale) scale ≤ 2 ^ 35 * (a * scale).sqrt := by
  have hpos := sqrt_radicand_pos h0
  have hn := (a * scale).lt_succ_sqrt
  have hmean : mean (a * scale) scale ≤ max a scale := by
    rw [mean, Nat.mul_div_cancel _ Decimal.scale_pos]
    omega
  refine hmean.trans ?_
  generalize (a * scale).sqrt = s at hpos hn ⊢
  have hs : scale = 10 ^ 20 := rfl
  have hc : capacity = 10 ^ 20 * 10 ^ 20 := rfl
  have hsquare : a * scale < 4 * (s * s) := by nlinarith
  apply max_le
  · apply Nat.mul_self_le_mul_self_iff.mp
    nlinarith
  · apply Nat.mul_self_le_mul_self_iff.mp
    nlinarith

/-- Seventy-five halvings bring a distance of 2³⁵ roots down to where its square counts for less
than twenty more. -/
theorem square_lt {s : Nat} (hpos : 0 < s) (hs : s < 10 ^ 30) :
    (2 ^ 35 * s / 2 ^ 75) ^ 2 / (2 * s) + 1 < 2 ^ 20 := by
  have hdiv : 2 ^ 35 * s / 2 ^ 75 = s / 2 ^ 40 :=
    Nat.mul_div_mul_left s (2 ^ 40) (Nat.two_pow_pos 35)
  have hmul := Nat.div_mul_le_self s (2 ^ 40)
  rw [hdiv]
  generalize s / 2 ^ 40 = q at hmul ⊢
  have hq : q < 2 ^ 60 := by omega
  have hlow := Nat.mul_le_mul_left q hmul
  have hhigh := Nat.mul_lt_mul_of_pos_right hq hpos
  have hlt : q ^ 2 < 2 * s * (2 ^ 20 - 1) := by
    norm_num at hlow hhigh ⊢
    linarith
  have := Nat.div_lt_of_lt_mul hlt
  omega

/-- Halving the distance brings a guess close enough for its square to count, and one such step
close enough for halving again. -/
theorem settled_iterate (h0 : 0 < a) (ha : a < capacity) {steps : Nat} (h : 100 ≤ steps) :
    Settled (a * scale) ((mean (a * scale))^[steps] scale) := by
  have hpos := sqrt_radicand_pos h0
  have hstart := mean_scale_le h0 ha
  have hroot : (a * scale).sqrt ≤ mean (a * scale) scale := Newton.sqrt_le_mean (by decide)
  have hfirst : Within (a * scale) (2 ^ 35 * (a * scale).sqrt) (mean (a * scale) scale) :=
    .of_mean (by omega) hroot
  have hclose := ((hfirst.iterate hpos 75).square hpos).iterate hpos 20
  rw [Nat.div_eq_of_lt (square_lt hpos (sqrt_radicand_lt ha))] at hclose
  obtain ⟨more, rfl⟩ : ∃ more, steps = more + (20 + (1 + (75 + 1))) := ⟨steps - 97, by omega⟩
  rw [Function.iterate_add_apply,
    Function.iterate_add_apply, Function.iterate_add_apply, Function.iterate_add_apply,
    Function.iterate_one]
  exact hclose.settled.iterate hpos _

theorem squareRoot_of_negative (h : x.negative = true) (iterations : Int) :
    squareRoot iterations x = .error (.negativeRoot x.text) := if_pos h

theorem squareRoot_zero (hx : x.WellFormed) (h : x.magnitude = 0) (iterations : Int) :
    squareRoot iterations x = .ok Decimal.zero := by
  have hz : x.isZero = true := (Decimal.isZero_iff_magnitude x).mpr h
  have hn : ¬ x.negative = true := fun hn => (hx.magnitude_pos hn).ne' h
  rw [squareRoot, if_neg hn, if_pos hz]

/-- A number that has a root is not negative, and its root is a settled guess. -/
theorem settled_squareRoot (hx : x.WellFormed) {iterations : Int} (hi : 100 ≤ iterations)
    (h : squareRoot iterations x = .ok r) :
    x.negative = false ∧ r.WellFormed ∧ r.negative = false ∧
      Settled (x.magnitude * scale) r.magnitude := by
  cases hn : x.negative with
  | true =>
    rw [squareRoot_of_negative hn] at h
    cases h
  | false =>
    refine ⟨rfl, ?_⟩
    rcases Nat.eq_zero_or_pos x.magnitude with h0 | h0
    · rw [squareRoot_zero hx h0] at h
      cases h
      exact ⟨Decimal.zero_wellFormed, rfl, .inl (by rw [h0]; rfl)⟩
    · rw [hx.eq_ofUnits_magnitude hn, squareRoot_cast h0 hx.magnitude_lt] at h
      split at h
      · cases h
      · cases h
        have hsteps : 100 ≤ iterations.toNat := by omega
        have hsettled := settled_iterate h0 hx.magnitude_lt hsteps
        have hle := hsettled.le
        have hroot := sqrt_radicand_lt hx.magnitude_lt
        have hcap : capacity = 10 ^ 40 := rfl
        generalize (mean (x.magnitude * scale))^[iterations.toNat] scale = g at hsettled hle ⊢
        have hg : g < capacity := by omega
        refine ⟨wellFormed_ofUnits _, ?_, by rwa [Decimal.magnitude_ofUnits hg]⟩
        rw [Bool.eq_false_iff, ne_eq, (wellFormed_ofUnits _).negative_iff, Decimal.units_cast hg]
        omega

/-- Units of the root count as the root of units of 10⁻⁴⁰. -/
theorem abs_sub_sqrt_le {a g : Nat} (h : Settled (a * scale) g) :
    |(g / scale : ℝ) - √(a / scale : ℝ)| ≤ 1 / scale := by
  have hs : (0 : ℝ) < scale := by exact_mod_cast Decimal.scale_pos
  have hroot : √((a * scale : Nat) : ℝ) = √(a / scale : ℝ) * scale := by
    have hsplit : ((a * scale : Nat) : ℝ) = a / scale * scale ^ 2 := by
      push_cast
      field_simp
    rw [hsplit, Real.sqrt_mul (by positivity), Real.sqrt_sq hs.le]
  have habs := h.abs_sub_sqrt_le
  rw [hroot] at habs
  rw [le_div_iff₀ hs, ← abs_of_pos hs, ← abs_mul, abs_of_pos hs, sub_mul,
    div_mul_cancel₀ _ hs.ne']
  exact habs

/-- From a hundred steps on a root is cut to twenty places, or it is the root of the number right
above that has an exact one. So it is less than one unit off, and exact where that is possible. -/
theorem squareRoot_accurate (hx : x.WellFormed) {iterations : Int}
    (hi : ({} : Limits).sqrtIterations ≤ iterations) (h : squareRoot iterations x = .ok r) :
    r.negative = false ∧
      (r.magnitude ^ 2 ≤ x.magnitude * scale ∧ x.magnitude * scale < (r.magnitude + 1) ^ 2 ∨
        r.magnitude ^ 2 = x.magnitude * scale + 1) ∧
      |(r.toRat : ℝ) - √(x.toRat : ℝ)| ≤ 1 / 10 ^ 20 ∧
      ∀ y : Decimal, y.WellFormed → y.negative = false → y.toRat ^ 2 = x.toRat → r = y := by
  obtain ⟨hn, hr, hrn, hsettled⟩ := settled_squareRoot hx hi h
  refine ⟨hrn, hsettled.sq_le_or, ?_, ?_⟩
  · have habs := abs_sub_sqrt_le hsettled
    rw [Decimal.toRat_of_not_negative hrn, Decimal.toRat_of_not_negative hn]
    have hscale : (scale : ℝ) = 10 ^ 20 := by norm_num [scale]
    push_cast
    rwa [hscale] at habs ⊢
  · intro y hy hyn hsquare
    have hxy : x.magnitude * scale = y.magnitude ^ 2 := by
      have hs := Decimal.scale_rat_pos.ne'
      rw [Decimal.toRat_of_not_negative hyn, Decimal.toRat_of_not_negative hn] at hsquare
      field_simp at hsquare
      rw [Nat.mul_comm]
      exact_mod_cast hsquare.symm
    rw [hxy] at hsettled
    rw [hr.eq_ofUnits_magnitude hrn, hsettled.eq_of_sq, ← hy.eq_ofUnits_magnitude hyn]

/-- The number 1.00000000000000000002 has no exact root, but the number one unit of 10⁻⁴⁰ above it
has: the guesses change between the two roots next to it, and an even number of steps ends at the
lower one. -/
theorem squareRoot_accurate_alternating :
    squareRoot 100 (ofUnits (10 ^ 20 + 2 : Nat)) = .ok (ofUnits (10 ^ 20 : Nat)) ∧
      |((ofUnits (10 ^ 20 : Nat)).toRat : ℝ) - √((ofUnits (10 ^ 20 + 2 : Nat)).toRat : ℝ)| ≤
        1 / 10 ^ 20 := by
  have h : squareRoot 100 (ofUnits (10 ^ 20 + 2 : Nat)) = .ok (ofUnits (10 ^ 20 : Nat)) := by
    rw [squareRoot_cast (by decide) (by decide), if_neg (by decide)]
    decide +kernel
  exact ⟨h, (squareRoot_accurate (wellFormed_ofUnits _) (by decide) h).2.2.1⟩

/-- One more than a number fits, unless the number has nothing but nines before the point. -/
theorem toRat_lt_iff (h : x.negative = false) :
    x.toRat < 10 ^ 20 - 1 ↔ scale + x.magnitude < capacity := by
  have hs : (scale : ℚ) = 10 ^ 20 := by norm_num [scale]
  rw [Decimal.toRat_of_not_negative h, div_lt_iff₀ Decimal.scale_rat_pos, ← Nat.cast_lt (α := ℚ),
    ← Decimal.scale_mul_scale]
  push_cast
  rw [hs]
  constructor <;> intro hlt <;> linarith

/-- A root fails for a negative argument, and as soon as there is a step to do also for one so large
that one more is too big. All other arguments have a root, however many steps there may be. -/
theorem squareRoot_outcome (hx : x.WellFormed) (iterations : Int) :
    (x.toRat < 0 →
      squareRoot iterations x = .error (.negativeRoot x.text) ∧
        (Fault.negativeRoot x.text).kind = .domain) ∧
    (0 ≤ x.toRat → (iterations ≤ 0 ∨ x.toRat < 10 ^ 20 - 1) →
      ∃ r : Decimal, r.WellFormed ∧ squareRoot iterations x = .ok r) ∧
    (0 < iterations → 10 ^ 20 - 1 ≤ x.toRat → squareRoot iterations x = .error .overflow) := by
  refine ⟨?_, ?_, ?_⟩
  · intro h
    exact ⟨squareRoot_of_negative (hx.negative_iff_toRat.mpr h) iterations, rfl⟩
  · intro h hsmall
    have hn : x.negative = false := by
      rw [Bool.eq_false_iff, ne_eq, hx.negative_iff_toRat]
      exact not_lt.mpr h
    rw [toRat_lt_iff hn] at hsmall
    rcases Nat.eq_zero_or_pos x.magnitude with h0 | h0
    · exact ⟨Decimal.zero, Decimal.zero_wellFormed, squareRoot_zero hx h0 iterations⟩
    · have hroot := squareRoot_cast h0 hx.magnitude_lt iterations
      rw [if_neg (by omega), ← hx.eq_ofUnits_magnitude hn] at hroot
      exact ⟨_, wellFormed_ofUnits _, hroot⟩
  · intro hi hlarge
    have hn : x.negative = false := by
      rw [Bool.eq_false_iff, ne_eq, hx.negative_iff_toRat]
      linarith
    have hsum : ¬ scale + x.magnitude < capacity := by
      rw [← toRat_lt_iff hn]
      exact not_lt.mpr hlarge
    have h0 : 0 < x.magnitude := by
      have hs : scale < capacity := by decide
      omega
    rw [hx.eq_ofUnits_magnitude hn, squareRoot_cast h0 hx.magnitude_lt, if_pos ⟨hi, by omega⟩]

/-- Of the numbers next to each other where the first sum stops fitting, the lower one has a root and
the upper one has none. -/
theorem squareRoot_outcome_edge :
    (∃ r : Decimal, r.WellFormed ∧
      squareRoot 100 (ofUnits (10 ^ 40 - 10 ^ 20 - 1 : Nat)) = .ok r) ∧
    squareRoot 100 (ofUnits (10 ^ 40 - 10 ^ 20 : Nat)) = .error .overflow := by
  have hlow := squareRoot_outcome (wellFormed_ofUnits (10 ^ 40 - 10 ^ 20 - 1 : Nat)) 100
  have hhigh := squareRoot_outcome (wellFormed_ofUnits (10 ^ 40 - 10 ^ 20 : Nat)) 100
  rw [Decimal.toRat_ofUnits (by decide)] at hlow hhigh
  norm_num [scale] at hlow hhigh
  exact ⟨hlow, hhigh⟩

/-- The number of twenty nines has a root of ten digits before the point, but there is no getting
there from one. -/
theorem squareRoot_nines :
    (Decimal.whole 99999999999999999999).WellFormed ∧
      0 ≤ (Decimal.whole 99999999999999999999).toRat ∧
      squareRoot ({} : Limits).sqrtIterations (Decimal.whole 99999999999999999999) =
        .error .overflow := by
  refine ⟨Decimal.whole_wellFormed (by decide), ?_, ?_⟩
  · rw [Decimal.toRat_nonneg_iff]
    decide
  · rw [Decimal.whole_eq (by decide), squareRoot_cast (by decide) (by decide),
      if_pos (by decide)]

end NamedFunction

end DeskCalculator
