import DeskCalculator.Decimal
import DeskCalculator.Proofs.Digits.Sum

namespace DeskCalculator.Decimal

/-- The units that make one. -/
def scale : Nat := 10 ^ 20

/-- The first count of units that has no number. -/
def capacity : Nat := 10 ^ 40

/-- A count of units with a sign put on it. -/
def attach (negative : Bool) (n : Nat) : Int := if negative then -(n : Int) else n

def ofUnits (u : Int) : Decimal :=
  signed (decide (u < 0)) (Digits.ofNat 10 Digits.width u.natAbs).1

def fit (u : Int) : Except Fault Decimal :=
  if u.natAbs < capacity then .ok (ofUnits u) else .error .overflow

theorem scale_pos : 0 < scale := by decide

theorem scale_mul_scale : scale * scale = capacity := by decide

theorem scale_eq_pow : scale = 10 ^ Digits.integerWidth := rfl

theorem capacity_eq_pow : capacity = 10 ^ Digits.width := rfl

theorem natAbs_attach (negative : Bool) (n : Nat) : (attach negative n).natAbs = n := by
  cases negative <;> simp [attach]

theorem units_eq_attach (x : Decimal) : x.units = attach x.negative x.magnitude := rfl

theorem wellFormed_signed (negative : Bool) {ds : List Nat} (hl : ds.length = Digits.width)
    (hb : Digits.Below 10 ds) : (signed negative ds).WellFormed where
  length := hl
  digit_lt := hb
  nonzero_of_negative := by
    intro h
    simp only [signed, Bool.and_eq_true, Bool.not_eq_true'] at h
    exact h.2

theorem wellFormed_ofUnits (u : Int) : (ofUnits u).WellFormed :=
  wellFormed_signed _ (Digits.length_ofNat _ _ _) (Digits.below_ofNat (by omega) _ _)

theorem WellFormed.magnitude_lt {x : Decimal} (hx : x.WellFormed) : x.magnitude < capacity := by
  have h := Digits.Below.value_lt (by omega) hx.digit_lt
  rwa [hx.length] at h

theorem natAbs_units (x : Decimal) : x.units.natAbs = x.magnitude := natAbs_attach _ _

theorem WellFormed.natAbs_units_lt {x : Decimal} (hx : x.WellFormed) :
    x.units.natAbs < capacity := by
  rw [natAbs_units]
  exact hx.magnitude_lt

theorem isZero_iff_magnitude (x : Decimal) : x.isZero = true ↔ x.magnitude = 0 :=
  Digits.isZero_iff_value (by omega) x.digits

theorem isZero_iff_units (x : Decimal) : x.isZero = true ↔ x.units = 0 := by
  rw [isZero_iff_magnitude, ← natAbs_units, Int.natAbs_eq_zero]

theorem WellFormed.magnitude_pos {x : Decimal} (hx : x.WellFormed) (h : x.negative = true) :
    0 < x.magnitude := by
  have hz := hx.nonzero_of_negative h
  rcases Nat.eq_zero_or_pos x.magnitude with hm | hm
  · rw [(Digits.isZero_iff_value (by omega) x.digits).mpr hm] at hz
    cases hz
  · exact hm

theorem WellFormed.negative_iff {x : Decimal} (hx : x.WellFormed) :
    x.negative = true ↔ x.units < 0 := by
  unfold units
  cases hn : x.negative with
  | false => simp
  | true =>
    have hm := hx.magnitude_pos hn
    simpa using hm

/-- Digits and a sign make the number of their value. -/
theorem signed_eq_ofUnits (negative : Bool) {ds : List Nat} (hl : ds.length = Digits.width)
    (hb : Digits.Below 10 ds) :
    signed negative ds = ofUnits (attach negative (Digits.value 10 ds)) := by
  have he := hb.ofNat_value (by omega)
  rw [hl] at he
  have hz := Digits.isZero_iff_value (b := 10) (by omega) ds
  cases negative with
  | false => simp [ofUnits, signed, attach, he]
  | true =>
    by_cases h0 : Digits.value 10 ds = 0
    · simp [ofUnits, signed, attach, he, hz.mpr h0]
    · have hpos : 0 < Digits.value 10 ds := Nat.pos_of_ne_zero h0
      simp [ofUnits, signed, attach, he, hpos]

/-- A well-formed number is settled by its units. -/
theorem WellFormed.ofUnits_units {x : Decimal} (hx : x.WellFormed) : ofUnits x.units = x := by
  have h := signed_eq_ofUnits x.negative hx.length hx.digit_lt
  have hs : signed x.negative x.digits = x := by
    cases hn : x.negative with
    | false => rw [signed, Bool.false_and, ← hn]
    | true => rw [signed, hx.nonzero_of_negative hn, Bool.not_false, Bool.and_true, ← hn]
  exact h.symm.trans hs

theorem units_ofUnits {u : Int} (h : u.natAbs < capacity) : (ofUnits u).units = u := by
  have hv : Digits.value 10 (Digits.ofNat 10 Digits.width u.natAbs).1 = u.natAbs := by
    rw [(Digits.value_ofNat (by omega) _ _).1]
    exact Nat.mod_eq_of_lt h
  have hz := Digits.isZero_iff_value (b := 10) (by omega)
    (Digits.ofNat 10 Digits.width u.natAbs).1
  rw [hv] at hz
  simp only [units, ofUnits, signed, magnitude, hv]
  by_cases hu : u < 0
  · have hf : Digits.isZero (Digits.ofNat 10 Digits.width u.natAbs).1 = false := by
      rw [Bool.eq_false_iff]
      intro ht
      have := hz.mp ht
      omega
    rw [hf, decide_eq_true hu, Bool.not_false, Bool.and_true, if_pos rfl]
    omega
  · rw [decide_eq_false hu, Bool.false_and, if_neg Bool.false_ne_true]
    omega

theorem magnitude_ofUnits {n : Nat} (h : n < capacity) : (ofUnits n).magnitude = n := by
  have hu : (ofUnits n).units = n := units_ofUnits h
  rw [← natAbs_units, hu, Int.natAbs_natCast]

theorem fit_of_lt {u : Int} (h : u.natAbs < capacity) : fit u = .ok (ofUnits u) := if_pos h

theorem fit_of_le {u : Int} (h : capacity ≤ u.natAbs) : fit u = .error .overflow :=
  if_neg (Nat.not_lt.mpr h)

theorem fit_attach_of_lt {n : Nat} (h : n < capacity) (negative : Bool) :
    fit (attach negative n) = .ok (ofUnits (attach negative n)) :=
  fit_of_lt (by rwa [natAbs_attach])

theorem fit_attach_of_le {n : Nat} (h : capacity ≤ n) (negative : Bool) :
    fit (attach negative n) = .error .overflow :=
  fit_of_le (by rwa [natAbs_attach])

theorem fit_cast_of_lt {n : Nat} (h : n < capacity) : fit n = .ok (ofUnits n) :=
  fit_attach_of_lt h false

theorem fit_cast_of_le {n : Nat} (h : capacity ≤ n) : fit n = .error .overflow :=
  fit_attach_of_le h false

theorem fit_eq_overflow_iff {u : Int} : fit u = .error .overflow ↔ capacity ≤ u.natAbs := by
  by_cases h : u.natAbs < capacity
  · simp [fit_of_lt h, h]
  · simp [fit_of_le (Nat.not_lt.mp h), Nat.not_lt.mp h]

theorem units_of_fit {u : Int} {x : Decimal} (h : fit u = .ok x) : x.units = u := by
  unfold fit at h
  split at h
  · next hlt =>
    cases h
    exact units_ofUnits hlt
  · cases h

/-- What fits is a number of that many units, negative just where the signs differ and it is not
zero. -/
theorem exists_fit_attach {n : Nat} (h : n < capacity) (p q : Bool) :
    ∃ r : Decimal, r.WellFormed ∧ fit (attach (p != q) n) = .ok r ∧ r.magnitude = n ∧
      (r.negative = true ↔ p ≠ q ∧ r.magnitude ≠ 0) := by
  have hw := wellFormed_ofUnits (attach (p != q) n)
  have hu : (ofUnits (attach (p != q) n)).units = attach (p != q) n :=
    units_ofUnits (by rwa [natAbs_attach])
  have hm : (ofUnits (attach (p != q) n)).magnitude = n := by
    rw [← natAbs_units, hu, natAbs_attach]
  refine ⟨_, hw, fit_attach_of_lt h (p != q), hm, ?_⟩
  rw [hw.negative_iff, hu, hm]
  cases p <;> cases q <;> simp [attach, Nat.pos_iff_ne_zero]

theorem WellFormed.fit_units {x : Decimal} (hx : x.WellFormed) : fit x.units = .ok x := by
  rw [fit_of_lt hx.natAbs_units_lt, hx.ofUnits_units]

theorem build_eq (negative : Bool) {ds : List Nat} (hl : ds.length = Digits.width)
    (hb : Digits.Below 10 ds) :
    build negative ds = .ok (ofUnits (attach negative (Digits.value 10 ds))) := by
  rw [build, ofDigits, if_pos hl, ← signed_eq_ofUnits negative hl hb]
  rfl

/-- The digits of a count that fits, with a sign, make a number. -/
theorem build_ofNat (negative : Bool) {n : Nat} (h : n < capacity) :
    build negative (Digits.ofNat 10 Digits.width n).1 = .ok (ofUnits (attach negative n)) := by
  rw [build_eq negative (Digits.length_ofNat _ _ _) (Digits.below_ofNat (by omega) _ _),
    (Digits.value_ofNat (by omega) _ _).1, ← capacity_eq_pow, Nat.mod_eq_of_lt h]

theorem negate_eq {x : Decimal} (hx : x.WellFormed) : x.negate = ofUnits (-x.units) := by
  rw [negate, signed_eq_ofUnits _ hx.length hx.digit_lt]
  unfold units magnitude attach
  cases x.negative <;> simp

theorem negate_ofUnits {u : Int} (h : u.natAbs < capacity) :
    (ofUnits u).negate = ofUnits (-u) := by
  rw [negate_eq (wellFormed_ofUnits u), units_ofUnits h]

theorem WellFormed.negate {x : Decimal} (hx : x.WellFormed) : x.negate.WellFormed := by
  rw [negate_eq hx]
  exact wellFormed_ofUnits _

theorem units_negate {x : Decimal} (hx : x.WellFormed) : x.negate.units = -x.units := by
  rw [negate_eq hx, units_ofUnits]
  rw [Int.natAbs_neg]
  exact hx.natAbs_units_lt

/-- Twenty digits before the point and zeros behind it. -/
theorem value_zeros_append (ds : List Nat) :
    Digits.value 10 (Digits.zeros Digits.fractionWidth ++ ds) = scale * Digits.value 10 ds := by
  rw [Digits.value_append, Digits.value_zeros, Digits.length_zeros, Nat.zero_add]
  rfl

theorem length_zeros_append {ds : List Nat} (h : ds.length = Digits.integerWidth) :
    (Digits.zeros Digits.fractionWidth ++ ds).length = Digits.width := by
  rw [List.length_append, Digits.length_zeros, h]

theorem below_zeros_append {ds : List Nat} (h : Digits.Below 10 ds) :
    Digits.Below 10 (Digits.zeros Digits.fractionWidth ++ ds) :=
  Digits.below_append.mpr ⟨Digits.below_zeros (by omega) _, h⟩

theorem whole_eq {n : Nat} (h : n < scale) : whole n = ofUnits (scale * n : Nat) := by
  have hs := signed_eq_ofUnits false (length_zeros_append (Digits.length_ofNat 10 _ n))
    (below_zeros_append (Digits.below_ofNat (by omega) _ n))
  rw [value_zeros_append, (Digits.value_ofNat (by omega) _ _).1, ← scale_eq_pow,
    Nat.mod_eq_of_lt h] at hs
  exact hs

theorem whole_wellFormed {n : Nat} (h : n < scale) : (whole n).WellFormed := by
  rw [whole_eq h]
  exact wellFormed_ofUnits _

theorem zero_eq : Decimal.zero = ofUnits 0 := by decide

theorem natAbs_scale_mul (v : Int) : (scale * v : Int).natAbs = scale * v.natAbs := by
  rw [Int.natAbs_mul, Int.natAbs_natCast]

theorem scale_mul_neg_iff {v : Int} : (scale * v : Int) < 0 ↔ v < 0 := by
  have hs : (0 : Int) < scale := by decide
  constructor
  · intro h
    exact Int.not_le.mp fun hv => Int.not_lt.mpr (Int.mul_nonneg (Int.le_of_lt hs) hv) h
  · exact Int.mul_neg_of_pos_of_neg hs

theorem scale_mul_lt {n : Nat} (h : n < scale) : scale * n < capacity := by
  rw [← scale_mul_scale]
  exact Nat.mul_lt_mul_of_pos_left h scale_pos

theorem natAbs_scale_mul_lt {v : Int} (h : v.natAbs < scale) :
    (scale * v : Int).natAbs < capacity := by
  rw [natAbs_scale_mul]
  exact scale_mul_lt h

theorem capacity_le_natAbs_scale_mul {v : Int} (h : scale ≤ v.natAbs) :
    capacity ≤ (scale * v : Int).natAbs := by
  rw [natAbs_scale_mul, ← scale_mul_scale]
  exact Nat.mul_le_mul_left scale h

theorem ofInt_eq (n : Int) : ofInt n = fit (scale * n) := by
  obtain ⟨hv, hr⟩ := Digits.value_ofNat (b := 10) (by omega) Digits.integerWidth n.natAbs
  have hl := Digits.length_ofNat 10 Digits.integerWidth n.natAbs
  have hb := Digits.below_ofNat (b := 10) (by omega) Digits.integerWidth n.natAbs
  unfold ofInt
  generalize Digits.ofNat 10 Digits.integerWidth n.natAbs = parts at hv hr hl hb
  obtain ⟨ds, rest⟩ := parts
  dsimp only at hv hr hl hb ⊢
  by_cases hn : n.natAbs < scale
  · have h0 : rest = 0 := hr.trans (Nat.div_eq_of_lt hn)
    have hv : Digits.value 10 ds = n.natAbs := hv.trans (Nat.mod_eq_of_lt hn)
    subst h0
    change build (decide (n < 0)) (Digits.zeros Digits.fractionWidth ++ ds) = _
    rw [build_eq _ (length_zeros_append hl) (below_zeros_append hb), value_zeros_append, hv,
      fit_of_lt]
    · unfold attach
      by_cases hneg : n < 0
      · rw [decide_eq_true hneg, if_pos rfl, Nat.cast_mul, ← Int.mul_neg,
          show -(n.natAbs : Int) = n by omega]
      · rw [decide_eq_false hneg, if_neg Bool.false_ne_true, Nat.cast_mul,
          show (n.natAbs : Int) = n by omega]
    · exact natAbs_scale_mul_lt hn
  · have h1 : 0 < rest := by
      rw [hr]
      exact Nat.div_pos (Nat.not_lt.mp hn) scale_pos
    obtain ⟨m, rfl⟩ := Nat.exists_eq_succ_of_ne_zero (Nat.pos_iff_ne_zero.mp h1)
    rw [fit_of_le (capacity_le_natAbs_scale_mul (Nat.not_lt.mp hn))]
    rfl

end DeskCalculator.Decimal
