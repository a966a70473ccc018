import DeskCalculator.Proofs.Decimal.Arithmetic

namespace DeskCalculator.Decimal

variable {x y : Decimal}

/-- A product is too big just where the exact one needs more than sixty digits. -/
theorem mul_overflow_iff (hx : x.WellFormed) (hy : y.WellFormed) :
    mul x y = .error .overflow ↔ 10 ^ 60 ≤ x.magnitude * y.magnitude := by
  have hlimit : capacity * scale = 10 ^ 60 := by decide
  rw [mul_magnitudes hx hy, fit_eq_overflow_iff, natAbs_attach, Nat.le_div_iff_mul_le scale_pos,
    hlimit]

theorem exists_mul (hx : x.WellFormed) (hy : y.WellFormed)
    (h : x.magnitude * y.magnitude < 10 ^ 60) :
    ∃ r : Decimal, r.WellFormed ∧ mul x y = .ok r ∧
      r.magnitude = x.magnitude * y.magnitude / 10 ^ 20 ∧
      (r.negative = true ↔ x.negative ≠ y.negative ∧ r.magnitude ≠ 0) := by
  have hlt : x.magnitude * y.magnitude / scale < capacity := Nat.div_lt_of_lt_mul h
  rw [mul_magnitudes hx hy]
  exact exists_fit_attach hlt x.negative y.negative

/-- What is above the window is zero just where the product is not too big. -/
theorem isZero_above_window {product : List Nat} {n : Nat} (h : Digits.Buffer n product) :
    Digits.isZero (product.drop 60) = false ↔ 10 ^ 60 ≤ n := by
  have htop := h.below.value_drop (by omega) 60
  rw [h.holds] at htop
  rw [Bool.eq_false_iff, ne_eq, Digits.isZero_iff_value (b := 10) (by omega), htop,
    Nat.div_eq_zero_iff]
  omega

/-- A product is the exact one cut toward zero. Each line of it is a full work space that holds its
multiple, it is added to what the lines before it come to without a carry left over, and only the
window's test at the end refuses a product. -/
theorem mul_exact (hx : x.WellFormed) (hy : y.WellFormed) :
    (mul x y = .error .overflow ↔ 10 ^ 60 ≤ x.magnitude * y.magnitude) ∧
    (x.magnitude * y.magnitude < 10 ^ 60 →
      ∃ r : Decimal, r.WellFormed ∧ mul x y = .ok r ∧
        r.magnitude = x.magnitude * y.magnitude / 10 ^ 20 ∧
        (r.negative = true ↔ x.negative ≠ y.negative ∧ r.magnitude ≠ 0)) ∧
    (∀ i d, y.digits[i]? = some d →
      Digits.Buffer (10 ^ i * (d * x.magnitude)) (Digits.row x.digits d i) ∧
        ∃ total next, Digits.multiply x.digits (y.digits.take i) = .ok total ∧
          Digits.Buffer (x.magnitude * Digits.value 10 (y.digits.take i)) total ∧
          Digits.add (Digits.row x.digits d i) total = .ok next ∧
          Digits.multiply x.digits (y.digits.take (i + 1)) = .ok next) ∧
    ∃ product, Digits.multiply x.digits y.digits = .ok product ∧
      Digits.Buffer (x.magnitude * y.magnitude) product ∧
      (mul x y = .error .overflow ↔ Digits.isZero (product.drop 60) = false) := by
  refine ⟨mul_overflow_iff hx hy, exists_mul hx hy, ?_, ?_⟩
  · intro i d hd
    exact Digits.multiply_row hx.digit_lt hy.digit_lt hx.length hy.length hd
  · obtain ⟨product, hrun, hbuffer⟩ :=
      Digits.buffer_multiply hx.digit_lt hy.digit_lt hx.length hy.length.le
    refine ⟨product, hrun, hbuffer, ?_⟩
    rw [isZero_above_window hbuffer]
    exact mul_overflow_iff hx hy

/-- The product next below the limit is the greatest number, and the one at the limit is too big. Of
two operands of full width the last line reaches up to the top of the work space. -/
theorem mul_exact_edge :
    (∃ r : Decimal, r.WellFormed ∧
      mul (ofUnits (10 ^ 30 - 1)) (ofUnits (-(10 ^ 30 + 1))) = .ok r ∧
        r.magnitude = 10 ^ 40 - 1 ∧ r.negative = true) ∧
    mul (ofUnits (10 ^ 30)) (ofUnits (10 ^ 30)) = .error .overflow ∧
    Digits.Buffer (10 ^ 39 * (9 * (10 ^ 40 - 1)))
      (Digits.row (ofUnits (10 ^ 40 - 1)).digits 9 39) := by
  obtain ⟨-, hfound, -⟩ :=
    mul_exact (wellFormed_ofUnits (10 ^ 30 - 1)) (wellFormed_ofUnits (-(10 ^ 30 + 1)))
  obtain ⟨hover, -⟩ := mul_exact (wellFormed_ofUnits (10 ^ 30)) (wellFormed_ofUnits (10 ^ 30))
  obtain ⟨-, -, hline, -⟩ :=
    mul_exact (wellFormed_ofUnits (10 ^ 40 - 1)) (wellFormed_ofUnits (10 ^ 40 - 1))
  obtain ⟨r, hr, hok, hm, hn⟩ := hfound (by decide +kernel)
  have hgreatest : r.magnitude = 10 ^ 40 - 1 := hm.trans (by decide +kernel)
  have hsign : r.negative = true := hn.mpr ⟨by decide +kernel, by simp [hgreatest]⟩
  refine ⟨⟨r, hr, hok, hgreatest, hsign⟩, hover.mpr (by decide +kernel), ?_⟩
  have hmagnitude : (ofUnits (10 ^ 40 - 1)).magnitude = 10 ^ 40 - 1 := by decide +kernel
  have htop := (hline 39 9 (by decide +kernel)).1
  rwa [hmagnitude] at htop

theorem div_eq_divideByZero_iff (hx : x.WellFormed) (hy : y.WellFormed) :
    div x y = .error .divideByZero ↔ y.magnitude = 0 := by
  constructor
  · intro h
    by_contra h0
    rw [div_magnitudes hx hy h0] at h
    unfold fit at h
    split at h <;> simp at h
  · intro h0
    exact div_by_zero (by simp [units, h0]) x

theorem div_overflow_iff (hx : x.WellFormed) (hy : y.WellFormed) :
    div x y = .error .overflow ↔
      y.magnitude ≠ 0 ∧ 10 ^ 40 ≤ x.magnitude * 10 ^ 20 / y.magnitude := by
  by_cases h0 : y.magnitude = 0
  · rw [(div_eq_divideByZero_iff hx hy).mpr h0]
    simp [h0]
  · rw [div_magnitudes hx hy h0, fit_eq_overflow_iff, natAbs_attach]
    exact (and_iff_right h0).symm

/-- A quotient is the exact one cut toward zero; it is refused just where the divisor is zero or the
quotient needs more than forty digits. -/
theorem div_exact (hx : x.WellFormed) (hy : y.WellFormed) :
    (div x y = .error .divideByZero ↔ y.magnitude = 0) ∧
    (div x y = .error .overflow ↔
      y.magnitude ≠ 0 ∧ 10 ^ 40 ≤ x.magnitude * 10 ^ 20 / y.magnitude) ∧
    (y.magnitude ≠ 0 → x.magnitude * 10 ^ 20 / y.magnitude < 10 ^ 40 →
      ∃ r : Decimal, r.WellFormed ∧ div x y = .ok r ∧
        r.magnitude = x.magnitude * 10 ^ 20 / y.magnitude ∧
        (r.negative = true ↔ x.negative ≠ y.negative ∧ r.magnitude ≠ 0)) := by
  refine ⟨div_eq_divideByZero_iff hx hy, div_overflow_iff hx hy, ?_⟩
  intro h0 h
  rw [div_magnitudes hx hy h0]
  exact exists_fit_attach h x.negative y.negative

/-- A zero divisor, a divisor just below one, and a quotient of nothing but what is cut off, which is
zero and has no sign. -/
theorem div_exact_edge :
    div (ofUnits 1) (ofUnits 0) = .error .divideByZero ∧
    div (ofUnits (10 ^ 40 - 1)) (ofUnits (10 ^ 20 - 1)) = .error .overflow ∧
    ∃ r : Decimal, r.WellFormed ∧ div (ofUnits (-2)) (ofUnits (3 * 10 ^ 20)) = .ok r ∧
      r.magnitude = 0 ∧ r.negative = false := by
  obtain ⟨hzero, -⟩ := div_exact (wellFormed_ofUnits 1) (wellFormed_ofUnits 0)
  obtain ⟨-, hover, -⟩ :=
    div_exact (wellFormed_ofUnits (10 ^ 40 - 1)) (wellFormed_ofUnits (10 ^ 20 - 1))
  obtain ⟨-, -, hfound⟩ := div_exact (wellFormed_ofUnits (-2)) (wellFormed_ofUnits (3 * 10 ^ 20))
  obtain ⟨r, hr, hok, hm, hn⟩ := hfound (by decide +kernel) (by decide +kernel)
  have hr0 : r.magnitude = 0 := hm.trans (by decide +kernel)
  refine ⟨hzero.mpr (by decide +kernel), hover.mpr (by decide +kernel), r, hr, hok, hr0, ?_⟩
  rw [Bool.eq_false_iff, ne_eq, hn]
  exact fun h => h.2 hr0

end DeskCalculator.Decimal
