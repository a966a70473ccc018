import DeskCalculator.Proofs.Decimal.Factorial
import DeskCalculator.Proofs.Decimal.Remainder
import Mathlib.Algebra.Order.Floor.Semifield

namespace DeskCalculator.Decimal

/-- The loop that has come down to `n` with the product `total` takes this many more products, and
ends like this. A product that does not fit is one of them. -/
inductive Multiplies : Decimal → Decimal → Nat → Except Fault Decimal → Prop where
  | last {n total : Decimal} (h : (subMagnitude n one).isZero = true) :
      Multiplies n total 0 (.ok total)
  | refused {n total : Decimal} {fault : Fault} (h : (subMagnitude n one).isZero = false)
      (product : mulMagnitude total (subMagnitude n one) = .error fault) :
      Multiplies n total 1 (.error fault)
  | next {n total longer : Decimal} {count : Nat} {outcome : Except Fault Decimal}
      (h : (subMagnitude n one).isZero = false)
      (product : mulMagnitude total (subMagnitude n one) = .ok longer)
      (rest : Multiplies (subMagnitude n one) longer count outcome) :
      Multiplies n total (count + 1) outcome

variable {n total : Decimal} {count : Nat} {outcome : Except Fault Decimal}

/-- There is one way only in which the loop runs. -/
theorem Multiplies.unique {count' : Nat} {outcome' : Except Fault Decimal}
    (h : Multiplies n total count outcome) (h' : Multiplies n total count' outcome') :
    count' = count ∧ outcome' = outcome := by
  induction h generalizing count' with
  | last hz => cases h' <;> simp_all
  | refused hz product => cases h' <;> simp_all
  | next hz product rest ih =>
    cases h' with
    | last hz' => simp_all
    | refused hz' product' => simp_all
    | next hz' product' rest' =>
      rw [product] at product'
      cases product'
      obtain ⟨rfl, rfl⟩ := ih rest'
      exact ⟨rfl, rfl⟩

/-- With a bound above the products that are left the loop ends as it does without one. -/
theorem Multiplies.multiplyBelow_eq (h : Multiplies n total count outcome) {fuel : Nat}
    (hf : count < fuel) : multiplyBelow fuel n total = outcome := by
  induction h generalizing fuel with
  | last hz =>
    cases fuel with
    | zero => cases hf
    | succ fuel => rw [multiplyBelow, if_pos hz]
  | refused hz product =>
    cases fuel with
    | zero => cases hf
    | succ fuel =>
      rw [multiplyBelow, if_neg (Bool.eq_false_iff.mp hz), product]
      rfl
  | next hz product rest ih =>
    cases fuel with
    | zero => cases hf
    | succ fuel =>
      rw [multiplyBelow, if_neg (Bool.eq_false_iff.mp hz), product]
      exact ih (Nat.lt_of_succ_lt_succ hf)

theorem isZero_subMagnitude_one {k : Nat} (hk : k + 1 < scale) :
    (subMagnitude (ofUnits (scale * (k + 1) : Nat)) one).isZero = true ↔ k = 0 := by
  rw [subMagnitude_one hk]
  exact isZero_integer (Nat.lt_of_succ_lt hk)

/-- The loop ends within `rounds` products if there are no more factors left than that, or if the
product of as many would not fit. -/
theorem exists_multiplies (rounds : Nat) {k t : Nat} (hk : k + 1 < scale) (ht : t < scale)
    (h : k ≤ rounds ∨ scale ≤ t * k.descFactorial rounds) :
    ∃ count outcome, count ≤ rounds ∧
      Multiplies (ofUnits (scale * (k + 1) : Nat)) (ofUnits (scale * t : Nat)) count outcome := by
  induction rounds generalizing k t with
  | zero =>
    have h0 : k = 0 := by
      rcases h with hk0 | hbig
      · exact Nat.le_zero.mp hk0
      · rw [Nat.descFactorial_zero, Nat.mul_one] at hbig
        exact absurd ht (Nat.not_lt.mpr hbig)
    subst h0
    exact ⟨0, _, Nat.le_refl 0, .last ((isZero_subMagnitude_one hk).mpr rfl)⟩
  | succ rounds ih =>
    have hsub := subMagnitude_one hk
    cases k with
    | zero => exact ⟨0, _, Nat.zero_le _, .last ((isZero_subMagnitude_one hk).mpr rfl)⟩
    | succ k =>
      have hz : (subMagnitude (ofUnits (scale * (k + 1 + 1) : Nat)) one).isZero = false := by
        rw [Bool.eq_false_iff, ne_eq, isZero_subMagnitude_one hk]
        exact Nat.succ_ne_zero k
      have hproduct := mulMagnitude_integers (m := t) (n := k + 1) ht (by omega)
      rw [← hsub] at hproduct
      rcases Nat.lt_or_ge (t * (k + 1)) scale with hlt | hge
      · rw [fit_cast_of_lt (scale_mul_lt hlt)] at hproduct
        have hrest : k ≤ rounds ∨ scale ≤ t * (k + 1) * k.descFactorial rounds := by
          rw [Nat.succ_descFactorial_succ, ← Nat.mul_assoc] at h
          exact h.imp_left Nat.le_of_succ_le_succ
        obtain ⟨count, outcome, hle, hrun⟩ := ih (by omega) hlt hrest
        rw [← hsub] at hrun
        exact ⟨count + 1, outcome, Nat.succ_le_succ hle, .next hz hproduct hrun⟩
      · have hbig : capacity ≤ scale * (t * (k + 1)) := by
          rw [← scale_mul_scale]
          exact Nat.mul_le_mul_left scale hge
        rw [fit_cast_of_le hbig] at hproduct
        exact ⟨1, _, Nat.succ_le_succ (Nat.zero_le rounds), .refused hz hproduct⟩

/-- From twenty-two on the twenty largest factors below a number are too much for it. -/
theorem scale_le_descFactorial {k : Nat} (hk : 21 ≤ k) : scale ≤ (k + 1) * k.descFactorial 20 :=
  calc scale ≤ 22 * Nat.descFactorial 21 20 := by decide
    _ ≤ (k + 1) * k.descFactorial 20 :=
      Nat.mul_le_mul (Nat.succ_le_succ hk) (Nat.descFactorial_le 20 hk)

/-- The loop of a factorial ends within twenty products, and within its bound. -/
theorem exists_rounds {k : Nat} (hk : k + 1 < scale) :
    ∃ count outcome, count ≤ 20 ∧ count < k + 1 ∧
      Multiplies (whole (k + 1)) (whole (k + 1)) count outcome := by
  have hrounds : k ≤ min 20 k ∨ scale ≤ (k + 1) * k.descFactorial (min 20 k) := by
    rcases Nat.lt_or_ge k 21 with hlt | hge
    · exact .inl (by omega)
    · rw [Nat.min_eq_left (by omega)]
      exact .inr (scale_le_descFactorial hge)
  obtain ⟨count, outcome, hle, hrun⟩ := exists_multiplies _ hk hk hrounds
  rw [← whole_eq hk] at hrun
  exact ⟨count, outcome, by omega, by omega, hrun⟩

variable {x : Decimal} {k : Nat}

theorem floor_abs_toRat (x : Decimal) : ⌊|x.toRat|⌋₊ = x.magnitude / scale := by
  rw [abs_toRat, Nat.floor_div_eq_div]

/-- The factorial of twenty-one is the last that fits. -/
theorem factorial_lt_scale_iff (k : Nat) : k.factorial < scale ↔ k ≤ 21 := by
  constructor
  · intro h
    by_contra hbig
    have hle := Nat.factorial_le (Nat.not_le.mp hbig)
    exact absurd h (Nat.not_lt.mpr (Nat.le_trans (by decide) hle))
  · intro h
    exact Nat.lt_of_le_of_lt (Nat.factorial_le h) (by decide)

theorem exists_factorial (hx : x.WellFormed) (h0 : x.magnitude / scale ≠ 0)
    (h : x.magnitude / scale ≤ 21) :
    ∃ r : Decimal, r.WellFormed ∧ factorial x = .ok r ∧
      |r.toRat| = (x.magnitude / scale).factorial ∧ r.negative = x.negative := by
  have hs : (scale : ℚ) ≠ 0 := scale_rat_pos.ne'
  have hlt := scale_mul_lt ((factorial_lt_scale_iff _).mpr h)
  have hpos := Nat.mul_pos scale_pos (x.magnitude / scale).factorial_pos
  obtain ⟨r, hr, hfit, hm, hn⟩ := exists_fit_attach hlt x.negative false
  rw [Bool.bne_false] at hfit
  refine ⟨r, hr, ?_, ?_, ?_⟩
  · rw [factorial_eq hx, if_neg h0, hfit]
  · rw [abs_toRat, hm, Nat.cast_mul, mul_div_cancel_left₀ _ hs]
  · rw [Bool.eq_iff_iff, hn, hm, and_iff_left hpos.ne', ne_eq, Bool.not_eq_false]

/-- What a factorial does is run the loop from the integer part on, and put the sign back. -/
theorem exists_run_of_factorial (hx : x.WellFormed) (h0 : x.magnitude / scale ≠ 0) :
    ∃ count outcome, count ≤ 20 ∧
      Multiplies (whole (x.magnitude / scale)) (whole (x.magnitude / scale)) count outcome ∧
      factorial x = outcome >>= fun total => build x.negative total.digits := by
  have hlt := hx.whole_lt
  have hloop := factorial_loop hx
  rw [if_neg h0, ← whole_eq hlt] at hloop
  generalize x.magnitude / scale = n at h0 hlt hloop
  obtain ⟨k, rfl⟩ := Nat.exists_eq_succ_of_ne_zero h0
  obtain ⟨count, outcome, hle, hfuel, hrun⟩ := exists_rounds hlt
  rw [hrun.multiplyBelow_eq hfuel] at hloop
  exact ⟨count, outcome, hle, hrun, hloop⟩

/-- Factorials are exact up to that of twenty-one, and all greater ones are refused. The loop is over
after twenty products at the latest. -/
theorem factorial_exact (hx : x.WellFormed) {n : Nat} (hn : ⌊|x.toRat|⌋₊ = n) :
    (n = 0 → factorial x = .ok one) ∧
    (1 ≤ n → n ≤ 21 → ∃ r : Decimal, r.WellFormed ∧ factorial x = .ok r ∧
      |r.toRat| = n.factorial ∧ r.negative = x.negative) ∧
    (22 ≤ n → factorial x = .error .overflow) ∧
    (1 ≤ n → ∃ count outcome, count ≤ 20 ∧
      (∀ c o, Multiplies (whole n) (whole n) c o ↔ c = count ∧ o = outcome) ∧
      factorial x = outcome >>= fun total => build x.negative total.digits) := by
  rw [floor_abs_toRat] at hn
  subst hn
  refine ⟨?_, ?_, ?_, ?_⟩
  · intro h0
    rw [factorial_eq hx, if_pos h0]
  · intro h1 h21
    exact exists_factorial hx (Nat.ne_of_gt h1) h21
  · intro h22
    have hbig : scale ≤ (x.magnitude / scale).factorial := by
      rw [← Nat.not_lt, factorial_lt_scale_iff]
      omega
    rw [factorial_eq hx, if_neg (by omega)]
    apply fit_attach_of_le
    rw [← scale_mul_scale]
    exact Nat.mul_le_mul_left scale hbig
  · intro h1
    obtain ⟨count, outcome, hle, hrun, hfactorial⟩ := exists_run_of_factorial hx (Nat.ne_of_gt h1)
    refine ⟨count, outcome, hle, fun c o => ⟨hrun.unique, ?_⟩, hfactorial⟩
    rintro ⟨rfl, rfl⟩
    exact hrun

/-- The last factorial that fits, of a negative number with a fraction, and the greatest number, whose
loop would not come to an end in any reasonable time if its products fitted. -/
theorem factorial_exact_edge :
    (∃ r : Decimal, r.WellFormed ∧ factorial (ofUnits (-215 * 10 ^ 19)) = .ok r ∧
      |r.toRat| = Nat.factorial 21 ∧ r.negative = true) ∧
    factorial (ofUnits (10 ^ 40 - 1)) = .error .overflow ∧
    ∃ count outcome, count ≤ 20 ∧
      Multiplies (whole (10 ^ 20 - 1)) (whole (10 ^ 20 - 1)) count outcome := by
  have hsmall : ⌊|(ofUnits (-215 * 10 ^ 19)).toRat|⌋₊ = 21 := by
    rw [floor_abs_toRat]
    decide +kernel
  have hgreat : ⌊|(ofUnits (10 ^ 40 - 1)).toRat|⌋₊ = 10 ^ 20 - 1 := by
    rw [floor_abs_toRat]
    decide +kernel
  obtain ⟨-, hexact, -⟩ := factorial_exact (wellFormed_ofUnits _) hsmall
  obtain ⟨-, -, hover, hloop⟩ := factorial_exact (wellFormed_ofUnits _) hgreat
  obtain ⟨r, hr, hok, hvalue, hsign⟩ := hexact (by decide) (by decide)
  obtain ⟨count, outcome, hle, hrun, -⟩ := hloop (by decide)
  exact ⟨⟨r, hr, hok, hvalue, hsign.trans (by decide +kernel)⟩, hover (by decide), count, outcome, hle,
    (hrun count outcome).mpr ⟨rfl, rfl⟩⟩

end DeskCalculator.Decimal
