import DeskCalculator.Proofs.Decimal.Units
import DeskCalculator.Proofs.Digits.Product
import DeskCalculator.Proofs.Digits.Quotient

namespace DeskCalculator.Decimal

variable {x y : Decimal}

theorem addMagnitude_eq (hx : x.WellFormed) (hy : y.WellFormed) :
    addMagnitude x y = fit (x.magnitude + y.magnitude : Nat) := by
  have ha := Digits.add_eq (hx.length.trans hy.length.symm)
  rw [hx.length, ← capacity_eq_pow] at ha
  change (Digits.add x.digits y.digits >>= build false) = _
  rw [ha]
  by_cases h : Digits.value 10 x.digits + Digits.value 10 y.digits < capacity
  · rw [if_pos h]
    exact (build_ofNat false h).trans (fit_cast_of_lt h).symm
  · rw [if_neg h]
    exact (fit_cast_of_le (Nat.not_lt.mp h)).symm

theorem subMagnitude_eq (hx : x.WellFormed) (hy : y.WellFormed) :
    subMagnitude x y = ofUnits (x.magnitude - y.magnitude) := by
  have hl : x.digits.length = y.digits.length := hx.length.trans hy.length.symm
  have hc := Digits.compare_eq_lt_iff hl hx.digit_lt hy.digit_lt
  unfold subMagnitude compareMagnitude magnitude
  split
  · rename_i hlt
    have hlt := hc.mp hlt
    have hs := Digits.subtract_eq hl.symm hy.digit_lt hx.digit_lt (Nat.le_of_lt hlt)
    have hv := hy.magnitude_lt
    unfold magnitude at hv
    rw [hy.length] at hs
    rw [hs, signed_eq_ofUnits true (Digits.length_ofNat _ _ _) (Digits.below_ofNat (by omega) _ _),
      (Digits.value_ofNat (by omega) _ _).1, ← capacity_eq_pow, Nat.mod_eq_of_lt (by omega),
      attach, if_pos rfl]
    congr 1
    omega
  · rename_i hge
    have hge : Digits.value 10 y.digits ≤ Digits.value 10 x.digits :=
      Nat.le_of_not_lt fun hlt => hge (hc.mpr hlt)
    have hs := Digits.subtract_eq hl hx.digit_lt hy.digit_lt hge
    have hv := hx.magnitude_lt
    unfold magnitude at hv
    rw [hx.length] at hs
    rw [hs, signed_eq_ofUnits false (Digits.length_ofNat _ _ _)
        (Digits.below_ofNat (by omega) _ _), (Digits.value_ofNat (by omega) _ _).1,
      ← capacity_eq_pow, Nat.mod_eq_of_lt (by omega), attach, if_neg Bool.false_ne_true]
    congr 1
    omega

/-- Forty digits of a number, from some digit on, are a quotient of the number; it fits if the
digits above them are zero. -/
theorem window_eq (negative : Bool) {low total n : Nat} (ht : low + Digits.width ≤ total)
    (hn : n < 10 ^ total) :
    (if Digits.isZero ((Digits.ofNat 10 total n).1.drop (low + Digits.width)) = true then
        build negative (((Digits.ofNat 10 total n).1.drop low).take Digits.width)
      else .error .overflow) = fit (attach negative (n / 10 ^ low)) := by
  have hb := Digits.below_ofNat (b := 10) (by omega) total n
  have hl := Digits.length_ofNat 10 total n
  have hv := (Digits.value_ofNat (b := 10) (by omega) total n).1
  rw [Nat.mod_eq_of_lt hn] at hv
  generalize (Digits.ofNat 10 total n).1 = ds at hb hv hl
  have htop := hb.value_drop (by omega) (low + Digits.width)
  have hwindow := (hb.drop low).value_take (by omega) Digits.width
  rw [hv, Nat.pow_add, ← Nat.div_div_eq_div_mul, ← capacity_eq_pow] at htop
  rw [hb.value_drop (by omega), hv, ← capacity_eq_pow] at hwindow
  by_cases h : n / 10 ^ low < capacity
  · rw [Nat.div_eq_of_lt h] at htop
    rw [Nat.mod_eq_of_lt h] at hwindow
    have hlen : ((ds.drop low).take Digits.width).length = Digits.width := by
      rw [List.length_take, List.length_drop, hl]
      omega
    rw [if_pos ((Digits.isZero_iff_value (by omega) _).mpr htop),
      build_eq negative hlen ((hb.drop _).take _), hwindow, fit_attach_of_lt h]
  · have hne : Digits.isZero (ds.drop (low + Digits.width)) ≠ true := by
      intro hz
      rw [(Digits.isZero_iff_value (by omega) _).mp hz] at htop
      have := Nat.div_pos (Nat.not_lt.mp h) (by decide)
      omega
    rw [if_neg hne, fit_attach_of_le (Nat.not_lt.mp h)]

/-- The window of a product leaves out its lowest twenty digits. -/
theorem mulMagnitude_eq (hx : x.WellFormed) (hy : y.WellFormed) :
    mulMagnitude x y = fit (x.magnitude * y.magnitude / scale : Nat) := by
  have hm := Digits.multiply_eq hx.digit_lt hy.digit_lt hx.length hy.length.le
  have hp : x.magnitude * y.magnitude < 10 ^ Digits.productWidth :=
    calc x.magnitude * y.magnitude < capacity * capacity :=
        Nat.mul_lt_mul'' hx.magnitude_lt hy.magnitude_lt
      _ ≤ 10 ^ Digits.productWidth := by decide
  have hfit : Digits.fractionWidth + Digits.width ≤ Digits.productWidth := by decide
  change (Digits.multiply x.digits y.digits >>= fun product => _) = _
  rw [hm]
  exact window_eq false hfit hp

theorem negate_map_fit (u : Int) : negate <$> fit u = fit (-u) := by
  by_cases h : u.natAbs < capacity
  · rw [fit_of_lt h, fit_of_lt (by rwa [Int.natAbs_neg])]
    exact congrArg Except.ok (negate_ofUnits h)
  · rw [fit_of_le (Nat.not_lt.mp h), fit_of_le (by rw [Int.natAbs_neg]; exact Nat.not_lt.mp h)]
    rfl

/-- A difference of two absolute values always fits. -/
theorem fit_sub_magnitude (hx : x.WellFormed) (hy : y.WellFormed) :
    fit (x.magnitude - y.magnitude) = .ok (ofUnits (x.magnitude - y.magnitude)) := by
  have hmx := hx.magnitude_lt
  have hmy := hy.magnitude_lt
  exact fit_of_lt (by omega)

theorem add_eq (hx : x.WellFormed) (hy : y.WellFormed) : add x y = fit (x.units + y.units) := by
  unfold add units
  cases x.negative <;> cases y.negative
  · exact addMagnitude_eq hx hy
  · simp only [subMagnitude_eq hx hy, if_pos, Bool.false_eq_true, if_false]
    exact (fit_sub_magnitude hx hy).symm
  · simp only [subMagnitude_eq hy hx, if_pos, Bool.false_eq_true, if_false]
    rw [Int.add_comm]
    exact (fit_sub_magnitude hy hx).symm
  · simp only [addMagnitude_eq hx hy, if_pos, negate_map_fit]
    congr 1
    push_cast
    ring

theorem sub_eq (hx : x.WellFormed) (hy : y.WellFormed) : sub x y = fit (x.units - y.units) := by
  unfold sub units
  cases x.negative <;> cases y.negative
  · simp only [subMagnitude_eq hx hy, Bool.false_eq_true, if_false]
    exact (fit_sub_magnitude hx hy).symm
  · simp only [addMagnitude_eq hx hy, if_pos, Bool.false_eq_true, if_false]
    congr 1
    push_cast
    ring
  · simp only [addMagnitude_eq hx hy, if_pos, Bool.false_eq_true, if_false, negate_map_fit]
    congr 1
    push_cast
    ring
  · simp only [subMagnitude_eq hy hx, if_pos]
    rw [show -(x.magnitude : Int) - -(y.magnitude : Int) = y.magnitude - x.magnitude by ring]
    exact (fit_sub_magnitude hy hx).symm

/-- A quotient that is truncated toward zero has the sign of the parts and the quotient of their
absolute values. -/
theorem attach_tdiv (p q : Bool) (m n : Nat) :
    (attach p m).tdiv (attach q n) = attach (p != q) (m / n) := by
  cases p <;> cases q <;> simp [attach]

theorem attach_mul (p q : Bool) (m n : Nat) :
    attach p m * attach q n = attach (p != q) (m * n) := by
  cases p <;> cases q <;> simp [attach]

theorem build_digits_ofUnits (negative : Bool) {n : Nat} (h : n < capacity) :
    build negative (ofUnits n).digits = .ok (ofUnits (attach negative n)) :=
  build_ofNat negative h

theorem mul_magnitudes (hx : x.WellFormed) (hy : y.WellFormed) :
    mul x y = fit (attach (x.negative != y.negative) (x.magnitude * y.magnitude / scale)) := by
  change (mulMagnitude x y >>= fun product => build (x.negative != y.negative) product.digits) = _
  rw [mulMagnitude_eq hx hy]
  by_cases h : x.magnitude * y.magnitude / scale < capacity
  · rw [fit_cast_of_lt h, fit_attach_of_lt h]
    exact build_digits_ofUnits _ h
  · rw [fit_cast_of_le (Nat.not_lt.mp h), fit_attach_of_le (Nat.not_lt.mp h)]
    rfl

theorem mul_eq (hx : x.WellFormed) (hy : y.WellFormed) :
    mul x y = fit ((x.units * y.units).tdiv scale) := by
  have ht := attach_tdiv (x.negative != y.negative) false (x.magnitude * y.magnitude) scale
  rw [Bool.bne_false] at ht
  rw [mul_magnitudes hx hy, units_eq_attach, units_eq_attach, attach_mul, ← ht]
  rfl

theorem div_by_zero (h : y.units = 0) (x : Decimal) : div x y = .error .divideByZero :=
  if_pos ((isZero_iff_units y).mpr h)

theorem div_magnitudes (hx : x.WellFormed) (hy : y.WellFormed) (h0 : y.magnitude ≠ 0) :
    div x y = fit (attach (x.negative != y.negative) (x.magnitude * scale / y.magnitude)) := by
  have hz : y.isZero ≠ true := fun h => h0 ((isZero_iff_magnitude y).mp h)
  have hd := Digits.divide_eq Digits.fractionWidth hx.digit_lt hy.digit_lt hx.length hy.length
    (Nat.pos_of_ne_zero h0)
  have hp : x.magnitude * scale / y.magnitude < 10 ^ (Digits.width + Digits.fractionWidth) :=
    calc x.magnitude * scale / y.magnitude ≤ x.magnitude * scale := Nat.div_le_self _ _
      _ < capacity * scale := Nat.mul_lt_mul_of_pos_right hx.magnitude_lt scale_pos
  have hfit : 0 + Digits.width ≤ Digits.width + Digits.fractionWidth := by decide
  have hwindow := window_eq (x.negative != y.negative) hfit hp
  rw [Nat.pow_zero, Nat.div_one, Nat.zero_add] at hwindow
  rw [div, if_neg hz, hd]
  exact hwindow

theorem div_eq (hx : x.WellFormed) (hy : y.WellFormed) (h0 : y.units ≠ 0) :
    div x y = fit ((x.units * scale).tdiv y.units) := by
  have hm : y.magnitude ≠ 0 := by
    rw [← natAbs_units]
    exact Int.natAbs_ne_zero.mpr h0
  have hs := attach_mul x.negative false x.magnitude scale
  rw [Bool.bne_false] at hs
  rw [div_magnitudes hx hy hm, units_eq_attach, units_eq_attach, ← attach_tdiv, ← hs]
  rfl

theorem mod_by_zero (h : y.units = 0) (x : Decimal) : mod x y = .error .divideByZero :=
  if_pos ((isZero_iff_units y).mpr h)

theorem mod_eq (hx : x.WellFormed) (hy : y.WellFormed) (h0 : y.units ≠ 0) :
    mod x y = .ok (ofUnits (attach (decide (y.units < 0)) (x.units.natAbs % y.units.natAbs))) := by
  have hz : y.isZero ≠ true := fun h => h0 ((isZero_iff_units y).mp h)
  have hpos : 0 < y.magnitude := by
    rw [← natAbs_units]
    exact Int.natAbs_pos.mpr h0
  have hd := Digits.divide_eq 0 hx.digit_lt hy.digit_lt hx.length hy.length hpos
  have hlt : x.magnitude % y.magnitude < capacity :=
    Nat.lt_trans (Nat.mod_lt _ hpos) hy.magnitude_lt
  have hs : y.negative = decide (y.units < 0) := by
    rw [Bool.eq_iff_iff, decide_eq_true_iff]
    exact hy.negative_iff
  rw [mod, if_neg hz, hd, natAbs_units, natAbs_units, Nat.pow_zero, Nat.mul_one, ← hs]
  have hb := Digits.below_ofNat (b := 10) (by omega) (Digits.width + 1)
    (x.magnitude % y.magnitude)
  have hl := Digits.length_ofNat 10 (Digits.width + 1) (x.magnitude % y.magnitude)
  have hv := (Digits.value_ofNat (b := 10) (by omega) (Digits.width + 1)
    (x.magnitude % y.magnitude)).1
  have hp : x.magnitude % y.magnitude < 10 ^ (Digits.width + 1) :=
    Nat.lt_of_lt_of_le hlt (by decide)
  rw [Nat.mod_eq_of_lt hp] at hv
  change build y.negative
    ((Digits.ofNat 10 (Digits.width + 1) (x.magnitude % y.magnitude)).1.take Digits.width) = _
  generalize (Digits.ofNat 10 (Digits.width + 1) (x.magnitude % y.magnitude)).1 = ds at hb hl hv
  have hlow := hb.value_take (by omega) Digits.width
  rw [hv, ← capacity_eq_pow, Nat.mod_eq_of_lt hlt] at hlow
  have hlen : (ds.take Digits.width).length = Digits.width := by
    rw [List.length_take, hl]
    decide
  rw [build_eq _ hlen (hb.take _), hlow]

variable {m n : Nat}

theorem units_attach (h : n < capacity) (p : Bool) : (ofUnits (attach p n)).units = attach p n :=
  units_ofUnits (by rwa [natAbs_attach])

theorem units_cast (h : n < capacity) : (ofUnits n).units = n := units_attach h false

theorem attach_ne_zero (h : n ≠ 0) (p : Bool) : attach p n ≠ 0 := by
  rw [← Int.natAbs_ne_zero, natAbs_attach]
  exact h

theorem add_cast (hm : m < capacity) (hn : n < capacity) :
    add (ofUnits m) (ofUnits n) = fit (m + n : Nat) := by
  rw [add_eq (wellFormed_ofUnits _) (wellFormed_ofUnits _), units_cast hm, units_cast hn,
    Nat.cast_add]

theorem mul_attach (hm : m < capacity) (hn : n < capacity) (p q : Bool) :
    mul (ofUnits (attach p m)) (ofUnits (attach q n)) = fit (attach (p != q) (m * n / scale)) := by
  have ht := attach_tdiv (p != q) false (m * n) scale
  rw [Bool.bne_false] at ht
  rw [mul_eq (wellFormed_ofUnits _) (wellFormed_ofUnits _), units_attach hm, units_attach hn,
    attach_mul, ← ht]
  rfl

theorem div_ofUnits {u v : Int} (hu : u.natAbs < capacity) (hv : v.natAbs < capacity) (h0 : v ≠ 0) :
    div (ofUnits u) (ofUnits v) = fit ((u * scale).tdiv v) := by
  have hne : (ofUnits v).units ≠ 0 := by rwa [units_ofUnits hv]
  rw [div_eq (wellFormed_ofUnits _) (wellFormed_ofUnits _) hne, units_ofUnits hu, units_ofUnits hv]

theorem div_attach (hm : m < capacity) (hn : n < capacity) (h0 : n ≠ 0) (p q : Bool) :
    div (ofUnits (attach p m)) (ofUnits (attach q n)) = fit (attach (p != q) (m * scale / n)) := by
  have hs := attach_mul p false m scale
  rw [Bool.bne_false] at hs
  rw [div_ofUnits (by rwa [natAbs_attach]) (by rwa [natAbs_attach]) (attach_ne_zero h0 q),
    ← attach_tdiv, ← hs]
  rfl

theorem div_cast (hm : m < capacity) (hn : n < capacity) (h0 : n ≠ 0) :
    div (ofUnits m) (ofUnits n) = fit (m * scale / n : Nat) :=
  div_attach hm hn h0 false false

end DeskCalculator.Decimal
