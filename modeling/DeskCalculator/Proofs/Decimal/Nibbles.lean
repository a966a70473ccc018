import DeskCalculator.Decimal.Nibbles
import DeskCalculator.Proofs.Decimal.Factorial

namespace DeskCalculator

namespace Digits

theorem below_complementFrom (carry : Nat) (ds : List Nat) :
    Below 16 (complementFrom carry ds) := by
  induction ds generalizing carry with
  | nil => exact below_nil 16
  | cons d ds ih => exact below_cons.mpr ⟨Nat.mod_lt _ (by omega), ih _⟩

theorem length_complementFrom (carry : Nat) (ds : List Nat) :
    (complementFrom carry ds).length = ds.length := by
  induction ds generalizing carry with
  | nil => rfl
  | cons d ds ih => simp [complementFrom, ih]

/-- Each nibble is taken from fifteen, and the carry is added to the lowest of them. -/
theorem value_complementFrom {ds : List Nat} (hb : Below 16 ds) (carry : Nat) :
    value 16 (complementFrom carry ds) =
      (16 ^ ds.length - 1 - value 16 ds + carry) % 16 ^ ds.length := by
  induction ds generalizing carry with
  | nil => simp [complementFrom, Nat.mod_one]
  | cons d ds ih =>
    obtain ⟨hd, hds⟩ := below_cons.mp hb
    have hlt := hds.value_lt (by omega)
    have hsum : 16 * 16 ^ ds.length - 1 - (d + 16 * value 16 ds) + carry =
        15 - d + carry + 16 * (16 ^ ds.length - 1 - value 16 ds) := by omega
    rw [complementFrom, value_cons, ih hds, List.length_cons, Nat.pow_succ', value_cons, hsum,
      Nat.mod_mul, Nat.add_mul_mod_self_left, Nat.add_mul_div_left _ _ (by omega),
      Nat.add_comm ((15 - d + carry) / 16)]

/-- The complement stands for the negative number, modulo the power of sixteen that the nibbles
reach. -/
theorem value_complement {ds : List Nat} (hb : Below 16 ds) :
    (value 16 (complement ds) : Int) = -(value 16 ds : Int) % 16 ^ ds.length := by
  have hlt := hb.value_lt (by omega)
  have hone : 16 ^ ds.length - 1 - value 16 ds + 1 = 16 ^ ds.length - value 16 ds := by omega
  rw [complement, value_complementFrom hb, hone, Int.natCast_emod, Nat.cast_sub hlt.le]
  push_cast
  rw [Int.sub_eq_add_neg, Int.add_emod_left]

end Digits

namespace Decimal

open Digits (Below)

theorem sixteen_eq : sixteen = ofUnits (scale * 16 : Nat) := whole_eq (by decide)

theorem sixteen_wellFormed : sixteen.WellFormed := whole_wellFormed (by decide)

theorem value_sixteen : Digits.value 10 sixteen.digits = scale * 16 := by
  rw [sixteen_eq]
  exact magnitude_ofUnits (by decide)

variable {ds : List Nat}

/-- What a division by sixteen leaves is a nibble with twenty digits behind it. -/
theorem value_remainder_sixteen (hl : ds.length = Digits.width) (hb : Below 10 ds) :
    Digits.value 10 ((Digits.divide ds sixteen.digits 0).2.drop Digits.fractionWidth) =
      Digits.value 10 ds / scale % 16 := by
  have hpos : 0 < Digits.value 10 sixteen.digits := by rw [value_sixteen]; decide
  rw [Digits.divide_eq 0 hb sixteen_wellFormed.digit_lt hl sixteen_wellFormed.length hpos]
  have hr := Digits.below_ofNat (b := 10) (by omega) (Digits.width + 1)
    (Digits.value 10 ds * 10 ^ 0 % Digits.value 10 sixteen.digits)
  have hlt : Digits.value 10 ds % (scale * 16) < 10 ^ (Digits.width + 1) :=
    Nat.lt_of_lt_of_le (Nat.mod_lt _ (by decide)) (by decide)
  rw [hr.value_drop (by decide), (Digits.value_ofNat (by decide) _ _).1, value_sixteen,
    Nat.pow_zero, Nat.mul_one, Nat.mod_eq_of_lt hlt]
  exact Nat.mod_mul_right_div_self _ scale 16

/-- The quotient by sixteen has no more than twenty digits, also with the fraction counted in. -/
theorem value_quotient_sixteen (hl : ds.length = Digits.width) (hb : Below 10 ds) :
    ∃ qs : List Nat, (Digits.divide ds sixteen.digits 0).1.take Digits.integerWidth = qs ∧
      qs.length = Digits.integerWidth ∧ Below 10 qs ∧
      Digits.value 10 qs = Digits.value 10 ds / scale / 16 := by
  have hpos : 0 < Digits.value 10 sixteen.digits := by rw [value_sixteen]; decide
  rw [Digits.divide_eq 0 hb sixteen_wellFormed.digit_lt hl sixteen_wellFormed.length hpos]
  have hq := Digits.below_ofNat (b := 10) (by omega) (Digits.width + 0)
    (Digits.value 10 ds * 10 ^ 0 / Digits.value 10 sixteen.digits)
  have hlt : Digits.value 10 ds < capacity := by
    have := hb.value_lt (by omega)
    rwa [hl] at this
  have hsmall : Digits.value 10 ds / (scale * 16) < scale := by
    rw [Nat.div_lt_iff_lt_mul (by decide), ← Nat.mul_assoc, scale_mul_scale]
    omega
  refine ⟨_, rfl, ?_, hq.take _, ?_⟩
  · rw [List.length_take, Digits.length_ofNat]
    decide
  · rw [hq.value_take (by omega), (Digits.value_ofNat (by omega) _ _).1, value_sixteen,
      Nat.pow_zero, Nat.mul_one, Nat.div_div_eq_div_mul,
      Nat.mod_eq_of_lt (Nat.lt_of_lt_of_le hsmall (by decide)), ← scale_eq_pow,
      Nat.mod_eq_of_lt hsmall]

/-- The nibbles are the digits of the integer part in base sixteen. -/
theorem nibblesFrom_eq (count : Nat) (hl : ds.length = Digits.width) (hb : Below 10 ds) :
    nibblesFrom count ds = (Digits.ofNat 16 count (Digits.value 10 ds / scale)).1 := by
  induction count generalizing ds with
  | zero => rfl
  | succ count ih =>
    obtain ⟨qs, he, hql, hqb, hqv⟩ := value_quotient_sixteen hl hb
    have hrest := ih (length_zeros_append hql) (below_zeros_append hqb)
    rw [value_zeros_append, Nat.mul_div_cancel_left _ scale_pos, hqv] at hrest
    simp only [nibblesFrom, Digits.ofNat]
    rw [value_remainder_sixteen hl hb, he, hrest]

/-- What stands before the point, cut toward zero. -/
def integerPart (x : Decimal) : Int := x.units.tdiv scale

theorem integerPart_eq_attach (x : Decimal) :
    x.integerPart = attach x.negative (x.magnitude / scale) := by
  have h := attach_tdiv x.negative false x.magnitude scale
  rw [Bool.bne_false] at h
  rw [integerPart, units_eq_attach]
  exact h

theorem integerPart_nonpos {x : Decimal} (h : x.negative = true) : x.integerPart ≤ 0 := by
  rw [integerPart_eq_attach, h]
  exact Int.neg_nonpos_of_nonneg (Int.natCast_nonneg _)

theorem negative_of_integerPart_neg {x : Decimal} (h : x.integerPart < 0) : x.negative = true := by
  cases hn : x.negative with
  | true => rfl
  | false =>
    rw [integerPart_eq_attach, hn] at h
    exact absurd h (Int.not_lt.mpr (Int.natCast_nonneg _))

theorem WellFormed.natAbs_integerPart_lt {x : Decimal} (hx : x.WellFormed) :
    x.integerPart.natAbs < scale := by
  rw [integerPart_eq_attach, natAbs_attach]
  exact hx.whole_lt

/-- Without their sign the nibbles reach over the whole integer part. -/
theorem WellFormed.nibblesFrom_digits {x : Decimal} (hx : x.WellFormed) :
    (nibblesFrom Digits.integerWidth x.digits).length = Digits.integerWidth ∧
      Below 16 (nibblesFrom Digits.integerWidth x.digits) ∧
      Digits.value 16 (nibblesFrom Digits.integerWidth x.digits) = x.magnitude / scale := by
  have hlt : x.magnitude / scale < 16 ^ Digits.integerWidth :=
    Nat.lt_trans hx.whole_lt (by decide)
  rw [nibblesFrom_eq _ hx.length hx.digit_lt]
  refine ⟨Digits.length_ofNat _ _ _, Digits.below_ofNat (by omega) _ _, ?_⟩
  rw [(Digits.value_ofNat (by omega) _ _).1]
  exact Nat.mod_eq_of_lt hlt

theorem WellFormed.length_nibbles {x : Decimal} (hx : x.WellFormed) :
    x.nibbles.length = Digits.integerWidth := by
  obtain ⟨hl, -, -⟩ := hx.nibblesFrom_digits
  unfold nibbles
  cases x.negative with
  | true => exact (Digits.length_complementFrom 1 _).trans hl
  | false => exact hl

/-- The nibbles are those of the integer part in two's complement. -/
theorem WellFormed.value_nibbles {x : Decimal} (hx : x.WellFormed) :
    (Digits.value 16 x.nibbles : Int) = x.integerPart % 16 ^ 20 := by
  have hlt := hx.natAbs_integerPart_lt
  obtain ⟨hl, hb, hv⟩ := hx.nibblesFrom_digits
  have hc := Digits.value_complement hb
  rw [hl, hv] at hc
  rw [integerPart_eq_attach] at hlt ⊢
  rw [natAbs_attach] at hlt
  unfold nibbles
  cases x.negative with
  | true => exact hc
  | false =>
    change (Digits.value 16 (nibblesFrom Digits.integerWidth x.digits) : Int) =
      ((x.magnitude / scale : Nat) : Int) % 16 ^ 20
    rw [hv]
    have hs : scale ≤ 16 ^ 20 := by decide
    omega

theorem WellFormed.below_nibbles {x : Decimal} (hx : x.WellFormed) : Below 16 x.nibbles := by
  unfold nibbles
  cases x.negative with
  | true => exact Digits.below_complementFrom _ _
  | false =>
    rw [nibblesFrom_eq _ hx.length hx.digit_lt]
    exact Digits.below_ofNat (by omega) _ _

/-- A well-formed number has a character for each digit and each nibble. -/
theorem WellFormed.isPrintable {x : Decimal} (hx : x.WellFormed) : x.isPrintable = true := by
  have hn := hx.below_nibbles
  have hd := hx.digit_lt
  simp only [Decimal.isPrintable, Bool.and_eq_true, List.all_eq_true, decide_eq_true_eq]
  exact ⟨hd, hn⟩

end Decimal

end DeskCalculator
