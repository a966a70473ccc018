import DeskCalculator.Proofs.Decimal.Sum
import Mathlib.Order.Compare

namespace DeskCalculator.Decimal

variable {x y z : Decimal}

theorem compare_map {α β : Type} [LinearOrder α] [LinearOrder β] {f : α → β} (hf : StrictMono f)
    (a b : α) : Ord.compare (f a) (f b) = Ord.compare a b := by
  rw [← cmp_eq_compare, ← cmp_eq_compare]
  exact hf.cmp_map_eq a b

theorem compareMagnitude_eq (hx : x.WellFormed) (hy : y.WellFormed) :
    compareMagnitude x y = Ord.compare x.magnitude y.magnitude :=
  Digits.compare_eq (hx.length.trans hy.length.symm) hx.digit_lt hy.digit_lt

/-- The sign decides where it differs, and turns the order of absolute values round where both numbers
have it. -/
theorem compare_units (hx : x.WellFormed) (hy : y.WellFormed) :
    compare x y = Ord.compare x.units y.units := by
  have hmagnitude := compareMagnitude_eq hx hy
  unfold compare
  cases hnx : x.negative <;> cases hny : y.negative <;> dsimp only
  case false.false =>
    rw [hmagnitude, units_of_not_negative hnx, units_of_not_negative hny]
    exact (compare_map Int.natCast_strictMono _ _).symm
  case false.true =>
    have hlt : y.units < x.units := by
      rw [units_of_not_negative hnx]
      exact Int.lt_of_lt_of_le (hy.negative_iff.mp hny) (Int.natCast_nonneg _)
    exact (compare_gt_iff_gt.mpr hlt).symm
  case true.false =>
    have hlt : x.units < y.units := by
      rw [units_of_not_negative hny]
      exact Int.lt_of_lt_of_le (hx.negative_iff.mp hnx) (Int.natCast_nonneg _)
    exact (compare_lt_iff_lt.mpr hlt).symm
  case true.true =>
    have hflip : StrictAnti fun n : Nat => -(n : Int) := Int.natCast_strictMono.neg
    have hc := hflip.cmp_map_eq x.magnitude y.magnitude
    rw [cmp_eq_compare, cmp_eq_compare] at hc
    rw [hmagnitude, Nat.compare_swap, ← hc, units_eq_attach, units_eq_attach, hnx, hny]
    rfl

theorem compare_toRat (hx : x.WellFormed) (hy : y.WellFormed) :
    compare x y = Ord.compare x.toRat y.toRat := by
  rw [compare_units hx hy]
  exact (compare_map (Int.cast_strictMono.div_const scale_rat_pos) _ _).symm

/-- However two numbers are compared, the answer is that for the two values. -/
structure ComparesAs (x y : Decimal) (p q : ℚ) : Prop where
  order : compare x y = Ord.compare p q
  beq : (x == y) = true ↔ p = q
  bne : (x != y) = true ↔ p ≠ q
  lt : x < y ↔ p < q
  le : x ≤ y ↔ p ≤ q
  gt : x > y ↔ p > q
  ge : x ≥ y ↔ p ≥ q

theorem comparesAs (hx : x.WellFormed) (hy : y.WellFormed) : ComparesAs x y x.toRat y.toRat := by
  have hxy := compare_toRat hx hy
  have hyx := compare_toRat hy hx
  have hbeq : (x == y) = true ↔ x.toRat = y.toRat := by
    change (compare x y == .eq) = true ↔ _
    rw [hxy, beq_iff_eq, compare_eq_iff_eq]
  refine ⟨hxy, hbeq, ?_, ?_, ?_, ?_, ?_⟩
  · rw [bne, Bool.not_eq_true', ← Bool.not_eq_true, hbeq]
  · change compare x y = .lt ↔ _
    rw [hxy, compare_lt_iff_lt]
  · change compare x y ≠ .gt ↔ _
    rw [hxy, compare_le_iff_le]
  · change compare y x = .lt ↔ _
    rw [hyx, compare_lt_iff_lt]
  · change compare y x ≠ .gt ↔ _
    rw [hyx, compare_le_iff_le]

theorem toRat_inj (hx : x.WellFormed) (hy : y.WellFormed) : x.toRat = y.toRat ↔ x = y := by
  constructor
  · intro h
    have hunits : x.units = y.units := by
      have hs : (scale : ℚ) ≠ 0 := scale_rat_pos.ne'
      rw [toRat, toRat, div_left_inj' hs] at h
      exact_mod_cast h
    rw [← hx.ofUnits_units, hunits, hy.ofUnits_units]
  · rintro rfl
    rfl

/-- The sign of a difference, where there is one. -/
theorem compare_sub (hx : x.WellFormed) (hy : y.WellFormed) (h : sub x y ≠ .error .overflow) :
    ∃ d : Decimal, d.WellFormed ∧ sub x y = .ok d ∧ compare x y = Ord.compare d.toRat 0 := by
  have hsub := sub_exactly hx hy
  have hfits : |x.toRat - y.toRat| < 10 ^ 20 := by
    by_contra hbig
    exact h (hsub.overflow (not_lt.mp hbig))
  obtain ⟨d, hd, hok, hvalue⟩ := hsub.found hfits
  refine ⟨d, hd, hok, ?_⟩
  have hshift : StrictMono fun q : ℚ => q - y.toRat := fun p q hpq => sub_lt_sub_right hpq _
  have hc := compare_map hshift x.toRat y.toRat
  rw [sub_self] at hc
  rw [compare_toRat hx hy, hvalue, hc]

/-- Comparison is the order of the values, a total one on well-formed numbers, and equal numbers are
the same digits with the same sign. -/
theorem compare_exact (hx : x.WellFormed) (hy : y.WellFormed) (hz : z.WellFormed) :
    ComparesAs x y x.toRat y.toRat ∧
    (compare y x = (compare x y).swap ∧ (x ≤ y → y ≤ x → x = y) ∧
      (x ≤ y → y ≤ z → x ≤ z) ∧ (x ≤ y ∨ y ≤ x)) ∧
    (compare x y = .eq ↔ x.negative = y.negative ∧ x.digits = y.digits) ∧
    ((x == y) = true → hash x = hash y) ∧
    (sub x y ≠ .error .overflow →
      ∃ d : Decimal, d.WellFormed ∧ sub x y = .ok d ∧ compare x y = Ord.compare d.toRat 0) := by
  have hxy := comparesAs hx hy
  have hyz := comparesAs hy hz
  have hxz := comparesAs hx hz
  refine ⟨hxy, ⟨?_, ?_, ?_, ?_⟩, ?_, ?_, compare_sub hx hy⟩
  · rw [compare_toRat hy hx, hxy.order]
    exact Std.OrientedOrd.eq_swap
  · intro hle hge
    exact (toRat_inj hx hy).mp (le_antisymm (hxy.le.mp hle) (hxy.ge.mp hge))
  · intro hle hle'
    exact hxz.le.mpr (le_trans (hxy.le.mp hle) (hyz.le.mp hle'))
  · exact (le_total x.toRat y.toRat).imp hxy.le.mpr hxy.ge.mpr
  · rw [hxy.order, compare_eq_iff_eq, toRat_inj hx hy]
    obtain ⟨negative, ds⟩ := x
    obtain ⟨negative', ds'⟩ := y
    rw [Decimal.mk.injEq]
  · intro h
    rw [(toRat_inj hx hy).mp (hxy.beq.mp h)]

/-- Of negative numbers the one with the greater digits comes first; two that are too far apart for
their difference are still compared. -/
theorem compare_exact_negative :
    compare (ofUnits (-15 * 10 ^ 19)) (ofUnits (-1)) = .lt ∧
    ofUnits (-15 * 10 ^ 19) ≤ ofUnits (10 ^ 40 - 1) ∧
    (∃ d : Decimal, sub (ofUnits (-15 * 10 ^ 19)) (ofUnits (-1)) = .ok d ∧ d.toRat < 0) ∧
    sub (ofUnits (1 - 10 ^ 40)) (ofUnits (10 ^ 40 - 1)) = .error .overflow ∧
    compare (ofUnits (1 - 10 ^ 40)) (ofUnits (10 ^ 40 - 1)) = .lt := by
  have hleast := wellFormed_ofUnits (1 - 10 ^ 40)
  have hx := wellFormed_ofUnits (-15 * 10 ^ 19)
  have hy := wellFormed_ofUnits (-1)
  have hz := wellFormed_ofUnits (10 ^ 40 - 1)
  obtain ⟨hvalues, ⟨-, -, htrans, -⟩, -, -, hsub⟩ := compare_exact hx hy hz
  obtain ⟨hgreatest, -⟩ := compare_exact hy hz hx
  obtain ⟨hfar, -⟩ := compare_exact hleast hz hx
  have hlt : compare (ofUnits (-15 * 10 ^ 19)) (ofUnits (-1)) = .lt := by
    rw [hvalues.order, toRat_ofUnits (by decide), toRat_ofUnits (by decide), compare_lt_iff_lt]
    norm_num [scale]
  refine ⟨hlt, htrans ?_ ?_, ?_, ?_, ?_⟩
  · rw [hvalues.le, toRat_ofUnits (by decide), toRat_ofUnits (by decide)]
    norm_num [scale]
  · rw [hgreatest.le, toRat_ofUnits (by decide), toRat_ofUnits (by decide)]
    norm_num [scale]
  · have hfits : sub (ofUnits (-15 * 10 ^ 19)) (ofUnits (-1)) ≠ .error .overflow := by
      rw [sub_eq hx hy, units_ofUnits (by decide), units_ofUnits (by decide),
        fit_of_lt (by decide)]
      intro h
      cases h
    obtain ⟨d, -, hok, hsign⟩ := hsub hfits
    exact ⟨d, hok, compare_lt_iff_lt.mp (hsign ▸ hlt)⟩
  · rw [sub_eq hleast hz, units_ofUnits (by decide), units_ofUnits (by decide)]
    exact fit_of_le (by decide)
  · rw [hfar.order, toRat_ofUnits (by decide), toRat_ofUnits (by decide), compare_lt_iff_lt]
    norm_num [scale]

end DeskCalculator.Decimal
