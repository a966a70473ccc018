import DeskCalculator.Proofs.Decimal.Units
import Mathlib.Tactic.FieldSimp
import Mathlib.Tactic.Positivity

namespace DeskCalculator.Decimal

def toRat (x : Decimal) : ℚ := x.units / scale

variable {x y : Decimal}

theorem scale_rat_pos : (0 : ℚ) < scale := by exact_mod_cast scale_pos

theorem toRat_ofUnits {u : Int} (h : u.natAbs < capacity) : (ofUnits u).toRat = u / scale := by
  rw [toRat, units_ofUnits h]

theorem units_of_not_negative (h : x.negative = false) : x.units = x.magnitude := by
  simp [units, h]

theorem WellFormed.eq_ofUnits_magnitude (hx : x.WellFormed) (h : x.negative = false) :
    x = ofUnits x.magnitude := by
  rw [← units_of_not_negative h, hx.ofUnits_units]

theorem toRat_of_not_negative (h : x.negative = false) : x.toRat = x.magnitude / scale := by
  simp [toRat, units_of_not_negative h]

theorem toRat_nonneg_iff (x : Decimal) : 0 ≤ x.toRat ↔ 0 ≤ x.units := by
  rw [toRat, le_div_iff₀ scale_rat_pos, zero_mul]
  exact_mod_cast Iff.rfl

/-- The values that a number can have are those below 10²⁰ in size. -/
theorem abs_div_scale_lt (u : Int) : |(u : ℚ) / scale| < 10 ^ 20 ↔ u.natAbs < capacity := by
  have hcapacity : (10 : ℚ) ^ 20 * scale = (capacity : Nat) := by norm_num [scale, capacity]
  rw [abs_div, Nat.abs_cast, div_lt_iff₀ scale_rat_pos, hcapacity, ← Int.cast_abs,
    ← Nat.cast_natAbs, Nat.cast_lt]

theorem toRat_negate (hx : x.WellFormed) : x.negate.toRat = -x.toRat := by
  rw [toRat, toRat, units_negate hx]
  push_cast
  ring

theorem WellFormed.negative_iff_toRat (hx : x.WellFormed) : x.negative = true ↔ x.toRat < 0 := by
  rw [hx.negative_iff, ← not_le, ← not_le, toRat_nonneg_iff]

end DeskCalculator.Decimal
