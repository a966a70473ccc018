import DeskCalculator.Proofs.Decimal.FromNibbles
import DeskCalculator.Proofs.Decimal.Sum
import Mathlib.Data.Int.Bitwise

namespace DeskCalculator

namespace Digits

/-- The lowest bits of an integer in two's complement. -/
def lowBits (count : Nat) (m : Int) : Nat := (m % 2 ^ count).toNat

variable {m n : Int}

theorem cast_lowBits (count : Nat) (m : Int) : (lowBits count m : Int) = m % 2 ^ count :=
  Int.toNat_of_nonneg (Int.emod_nonneg m (by positivity))

theorem testBit_lowBits (count : Nat) (m : Int) (i : Nat) :
    (lowBits count m).testBit i = (decide (i < count) && m.testBit i) := by
  cases m with
  | ofNat k =>
    have h : lowBits count (Int.ofNat k) = k % 2 ^ count := by
      have hc := cast_lowBits count (Int.ofNat k)
      rw [Int.ofNat_eq_natCast] at hc ⊢
      exact_mod_cast hc
    rw [h, Nat.testBit_mod_two_pow]
    rfl
  | negSucc k =>
    have hlt : k % 2 ^ count < 2 ^ count := Nat.mod_lt k (Nat.two_pow_pos count)
    have h : lowBits count (Int.negSucc k) = 2 ^ count - (k % 2 ^ count + 1) := by
      have hc := cast_lowBits count (Int.negSucc k)
      rw [Int.negSucc_emod k (by positivity)] at hc
      zify [Nat.succ_le_of_lt hlt]
      omega
    rw [h, Nat.testBit_two_pow_sub_succ hlt, Nat.testBit_mod_two_pow]
    change _ = (decide (i < count) && !k.testBit i)
    cases decide (i < count) <;> simp

/-- Bits that are left out do not matter for those that are kept. -/
theorem lowBits_land (count : Nat) (m n : Int) :
    lowBits count (Int.land m n) = lowBits count m &&& lowBits count n := by
  apply Nat.eq_of_testBit_eq
  intro i
  rw [Nat.testBit_and, testBit_lowBits, testBit_lowBits, testBit_lowBits, Int.testBit_land]
  cases decide (i < count) <;> simp

theorem land_neg_iff (m n : Int) : Int.land m n < 0 ↔ m < 0 ∧ n < 0 := by
  cases m <;> cases n <;> simp [Int.land] <;> omega

theorem land_swap (m n : Int) : Int.land m n = Int.land n m := by
  cases m <;> cases n <;> simp [Int.land, Nat.and_comm, Nat.or_comm]

/-- A bitwise and has no bits but those of its operands. -/
theorem land_le (hm : 0 ≤ m) (n : Int) : Int.land m n ≤ m := by
  obtain ⟨j, rfl⟩ := Int.eq_ofNat_of_zero_le hm
  have hr : 0 ≤ Int.land j n := by
    rw [← Int.not_lt, land_neg_iff]
    omega
  obtain ⟨k, hk⟩ := Int.eq_ofNat_of_zero_le hr
  have hbits : k &&& j = k := by
    apply Nat.eq_of_testBit_eq
    intro i
    have hi : k.testBit i = (j.testBit i && n.testBit i) := by
      have h := Int.testBit_land j n i
      rwa [hk] at h
    rw [Nat.testBit_and, hi]
    cases j.testBit i <;> simp
  rw [hk]
  exact_mod_cast hbits ▸ Nat.and_le_right

/-- Of two integers that are not both negative it lies between zero and the greater one. -/
theorem land_bounds (h : ¬ (m < 0 ∧ n < 0)) : 0 ≤ Int.land m n ∧ Int.land m n ≤ max m n := by
  refine ⟨by rwa [← Int.not_lt, land_neg_iff], ?_⟩
  rcases Int.lt_or_le m 0 with hneg | hpos
  · have hle := land_le (m := n) (by omega) m
    rw [land_swap]
    omega
  · have hle := land_le hpos n
    omega

theorem le_land (count : Nat) (hm : -2 ^ count ≤ m) (hn : -2 ^ count ≤ n) (hm0 : m < 0)
    (hn0 : n < 0) : -2 ^ count ≤ Int.land m n := by
  obtain ⟨j, rfl⟩ := Int.eq_negSucc_of_lt_zero hm0
  obtain ⟨k, rfl⟩ := Int.eq_negSucc_of_lt_zero hn0
  have hj : j < 2 ^ count := by
    zify
    omega
  have hk : k < 2 ^ count := by
    zify
    omega
  have h := Nat.or_lt_two_pow hj hk
  change -2 ^ count ≤ Int.negSucc (j ||| k)
  zify at h
  omega

theorem land_add_mul {a c : Nat} (ha : a < 16) (hc : c < 16) (b d : Nat) :
    (a + 16 * b) &&& (c + 16 * d) = (a &&& c) + 16 * (b &&& d) := by
  have hab : (a + 16 * b) % 2 ^ 4 = a ∧ (a + 16 * b) / 2 ^ 4 = b := by omega
  have hcd : (c + 16 * d) % 2 ^ 4 = c ∧ (c + 16 * d) / 2 ^ 4 = d := by omega
  have h := Nat.mod_add_div ((a + 16 * b) &&& (c + 16 * d)) (2 ^ 4)
  rw [Nat.and_mod_two_pow, Nat.and_div_two_pow, hab.1, hab.2, hcd.1, hcd.2] at h
  exact h.symm

theorem below_zipWith_land {xs : List Nat} (hx : Below 16 xs) (ys : List Nat) :
    Below 16 (List.zipWith (· &&& ·) xs ys) := by
  induction xs generalizing ys with
  | nil => simp [below_nil]
  | cons x xs ih =>
    obtain ⟨hx, hxs⟩ := below_cons.mp hx
    cases ys with
    | nil => exact below_nil 16
    | cons y ys => exact below_cons.mpr ⟨Nat.lt_of_le_of_lt Nat.and_le_left hx, ih hxs ys⟩

theorem value_zipWith_land {xs ys : List Nat} (hx : Below 16 xs) (hy : Below 16 ys) :
    value 16 (List.zipWith (· &&& ·) xs ys) = value 16 xs &&& value 16 ys := by
  induction xs generalizing ys with
  | nil => simp
  | cons x xs ih =>
    obtain ⟨hx, hxs⟩ := below_cons.mp hx
    cases ys with
    | nil => simp
    | cons y ys =>
      obtain ⟨hy, hys⟩ := below_cons.mp hy
      rw [List.zipWith_cons_cons, value_cons, value_cons, value_cons, ih hxs hys,
        land_add_mul hx hy]

end Digits

namespace Decimal

open Digits (lowBits)

variable {x y : Decimal}

theorem WellFormed.value_nibbles_eq (hx : x.WellFormed) :
    Digits.value 16 x.nibbles = lowBits 80 x.integerPart := by
  have h := hx.value_nibbles
  have hc := Digits.cast_lowBits 80 x.integerPart
  zify
  rw [h, hc]
  norm_num

/-- The nibbles that two numbers have in common. -/
theorem value_common (hx : x.WellFormed) (hy : y.WellFormed) :
    Digits.value 16 (List.zipWith (· &&& ·) x.nibbles y.nibbles) =
      lowBits 80 (Int.land x.integerPart y.integerPart) := by
  rw [Digits.value_zipWith_land hx.below_nibbles hy.below_nibbles, hx.value_nibbles_eq,
    hy.value_nibbles_eq, Digits.lowBits_land]

/-- With the sign bits it needs far fewer bits than there are. -/
theorem land_integerPart_of_negative (hx : x.WellFormed) (hy : y.WellFormed)
    (hnx : x.negative = true) (hny : y.negative = true) :
    -2 ^ 79 ≤ Int.land x.integerPart y.integerPart ∧
      Int.land x.integerPart y.integerPart ≤ 0 := by
  have hmx := hx.natAbs_integerPart_lt
  have hmy := hy.natAbs_integerPart_lt
  have hs : scale ≤ 2 ^ 79 := by decide
  by_cases h : x.integerPart < 0 ∧ y.integerPart < 0
  · have hlow := Digits.le_land 79 (by omega) (by omega) h.1 h.2
    exact ⟨hlow, Int.le_of_lt ((Digits.land_neg_iff _ _).mpr h)⟩
  · -- One of the integer parts is zero, and has no bits in common with the other.
    have hbounds := Digits.land_bounds h
    have hx0 := integerPart_nonpos hnx
    have hy0 := integerPart_nonpos hny
    omega

theorem land_integerPart_of_nonneg (hx : x.WellFormed) (hy : y.WellFormed)
    (h : ¬ (x.integerPart < 0 ∧ y.integerPart < 0)) :
    0 ≤ Int.land x.integerPart y.integerPart ∧
      Int.land x.integerPart y.integerPart < scale := by
  have hmx := hx.natAbs_integerPart_lt
  have hmy := hy.natAbs_integerPart_lt
  have hbounds := Digits.land_bounds h
  omega

/-- The complement of the common nibbles of negative numbers is the size of the result. -/
theorem value_complement_common (hx : x.WellFormed) (hy : y.WellFormed)
    (hnx : x.negative = true) (hny : y.negative = true) :
    (Digits.value 16 (Digits.complement (List.zipWith (· &&& ·) x.nibbles y.nibbles)) : Int) =
      -Int.land x.integerPart y.integerPart := by
  have hmx := hx.natAbs_integerPart_lt
  have hmy := hy.natAbs_integerPart_lt
  have hlength : (List.zipWith (· &&& ·) x.nibbles y.nibbles).length = 20 := by
    simp [hx.length_nibbles, hy.length_nibbles]
  have hvalue := Digits.value_complement (Digits.below_zipWith_land hx.below_nibbles y.nibbles)
  rw [hlength, value_common hx hy, Digits.cast_lowBits] at hvalue
  obtain ⟨hlow, hhigh⟩ := land_integerPart_of_negative hx hy hnx hny
  rw [hvalue]
  omega

/-- The result is the integer that the bits stand for, if it has no more than twenty digits. -/
theorem bitAnd_eq (hx : x.WellFormed) (hy : y.WellFormed) :
    bitAnd x y = fit (scale * Int.land x.integerPart y.integerPart) := by
  unfold bitAnd
  cases hn : x.negative && y.negative with
  | true =>
    obtain ⟨hnx, hny⟩ := Bool.and_eq_true_iff.mp hn
    have hvalue := value_complement_common hx hy hnx hny
    rw [if_pos rfl, ofNibbles_eq, negate_map_fit, hvalue, Int.mul_neg, Int.neg_neg]
  | false =>
    have hvalue := Digits.cast_lowBits 80 (Int.land x.integerPart y.integerPart)
    have hnot : ¬ (x.integerPart < 0 ∧ y.integerPart < 0) := by
      rintro ⟨hxneg, hyneg⟩
      rw [negative_of_integerPart_neg hxneg, negative_of_integerPart_neg hyneg] at hn
      cases hn
    obtain ⟨hnonneg, hlt⟩ := land_integerPart_of_nonneg hx hy hnot
    have hs : scale ≤ 2 ^ 80 := by decide
    rw [Int.emod_eq_of_lt hnonneg (by omega)] at hvalue
    rw [if_neg Bool.false_ne_true, ofNibbles_eq, value_common hx hy, hvalue]

/-- Bitwise and is that of the integer parts, with the bits of a sign going on for ever. It overflows
only for negative numbers, and is negative just where both integer parts are. -/
theorem bitAnd_exact (hx : x.WellFormed) (hy : y.WellFormed) :
    Exactly (Int.land x.integerPart y.integerPart : ℚ) (bitAnd x y) ∧
    (bitAnd x y = .error .overflow → x.negative = true ∧ y.negative = true) ∧
    (∀ r, bitAnd x y = .ok r →
      (r.negative = true ↔ x.integerPart < 0 ∧ y.integerPart < 0)) := by
  have hs : (scale : ℚ) ≠ 0 := scale_rat_pos.ne'
  rw [bitAnd_eq hx hy]
  refine ⟨?_, ?_, ?_⟩
  · have hexact := exactly_fit (scale * Int.land x.integerPart y.integerPart)
    rwa [Int.cast_mul, Int.cast_natCast, mul_div_cancel_left₀ _ hs] at hexact
  · intro hover
    rw [fit_eq_overflow_iff, natAbs_scale_mul, ← scale_mul_scale] at hover
    have hbig := Nat.le_of_mul_le_mul_left hover scale_pos
    by_cases h : x.integerPart < 0 ∧ y.integerPart < 0
    · exact ⟨negative_of_integerPart_neg h.1, negative_of_integerPart_neg h.2⟩
    · have hbounds := land_integerPart_of_nonneg hx hy h
      omega
  · intro r hr
    rw [← Digits.land_neg_iff, ← scale_mul_neg_iff]
    unfold fit at hr
    split at hr
    · rename_i hlt
      cases hr
      rw [(wellFormed_ofUnits _).negative_iff, units_ofUnits hlt]
    · cases hr

/-- Negative numbers with a fraction, and two integers whose common bits need more than twenty
digits. -/
theorem bitAnd_exact_negative :
    bitAnd (ofUnits (-(10 ^ 40 - 10 ^ 20))) (ofUnits (-(2 ^ 66 * 10 ^ 20))) = .error .overflow ∧
    ∃ r : Decimal, r.WellFormed ∧
      bitAnd (ofUnits (-(65 * 10 ^ 19))) (ofUnits (-(1025 * 10 ^ 18))) = .ok r ∧
      r.toRat = -14 ∧ r.negative = true := by
  obtain ⟨hbig, -⟩ := bitAnd_exact (wellFormed_ofUnits (-(10 ^ 40 - 10 ^ 20)))
    (wellFormed_ofUnits (-(2 ^ 66 * 10 ^ 20)))
  obtain ⟨hsmall, -, hsign⟩ := bitAnd_exact (wellFormed_ofUnits (-(65 * 10 ^ 19)))
    (wellFormed_ofUnits (-(1025 * 10 ^ 18)))
  have hbits : Int.land (ofUnits (-(10 ^ 40 - 10 ^ 20))).integerPart
      (ofUnits (-(2 ^ 66 * 10 ^ 20))).integerPart = -2 ^ 67 := by decide +kernel
  have hcommon : Int.land (ofUnits (-(65 * 10 ^ 19))).integerPart
      (ofUnits (-(1025 * 10 ^ 18))).integerPart = -14 := by decide +kernel
  rw [hbits] at hbig
  rw [hcommon] at hsmall
  obtain ⟨r, hr, hok, hvalue⟩ := hsmall.found (by norm_num)
  refine ⟨hbig.overflow (by norm_num), r, hr, hok, by rw [hvalue]; norm_num, ?_⟩
  exact (hsign r hok).mpr (by decide +kernel)

end Decimal

end DeskCalculator
