import DeskCalculator.Proofs.Decimal.Nibbles

namespace DeskCalculator.Decimal

open Outcome (Yields)

variable {F : Fault → Prop} {x y : Decimal}

theorem fit_yields (ho : F .overflow) (u : Int) : Yields F WellFormed (fit u) := by
  unfold fit
  split
  · exact wellFormed_ofUnits u
  · exact ho

theorem build_yields (negative : Bool) {ds : List Nat} (hl : ds.length = Digits.width)
    (hb : Digits.Below 10 ds) : Yields F WellFormed (build negative ds) := by
  rw [build_eq negative hl hb]
  exact wellFormed_ofUnits _

theorem ofInt_yields (ho : F .overflow) (n : Int) : Yields F WellFormed (ofInt n) := by
  rw [ofInt_eq]
  exact fit_yields ho _

theorem zero_wellFormed : Decimal.zero.WellFormed := by
  rw [zero_eq]
  exact wellFormed_ofUnits 0

theorem one_wellFormed : one.WellFormed := whole_wellFormed (by decide)

theorem two_wellFormed : two.WellFormed := whole_wellFormed (by decide)

theorem addMagnitude_yields (ho : F .overflow) (hx : x.WellFormed) (hy : y.WellFormed) :
    Yields F WellFormed (addMagnitude x y) := by
  rw [addMagnitude_eq hx hy]
  exact fit_yields ho _

theorem subMagnitude_wellFormed (hx : x.WellFormed) (hy : y.WellFormed) :
    (subMagnitude x y).WellFormed := by
  rw [subMagnitude_eq hx hy]
  exact wellFormed_ofUnits _

theorem mulMagnitude_yields (ho : F .overflow) (hx : x.WellFormed) (hy : y.WellFormed) :
    Yields F WellFormed (mulMagnitude x y) := by
  rw [mulMagnitude_eq hx hy]
  exact fit_yields ho _

theorem add_yields (ho : F .overflow) (hx : x.WellFormed) (hy : y.WellFormed) :
    Yields F WellFormed (add x y) := by
  rw [add_eq hx hy]
  exact fit_yields ho _

theorem sub_yields (ho : F .overflow) (hx : x.WellFormed) (hy : y.WellFormed) :
    Yields F WellFormed (sub x y) := by
  rw [sub_eq hx hy]
  exact fit_yields ho _

theorem mul_yields (ho : F .overflow) (hx : x.WellFormed) (hy : y.WellFormed) :
    Yields F WellFormed (mul x y) := by
  rw [mul_eq hx hy]
  exact fit_yields ho _

theorem div_yields (ho : F .overflow) (hz : F .divideByZero) (hx : x.WellFormed)
    (hy : y.WellFormed) : Yields F WellFormed (div x y) := by
  by_cases h0 : y.units = 0
  · rw [div_by_zero h0]
    exact hz
  · rw [div_eq hx hy h0]
    exact fit_yields ho _

theorem mod_yields (hz : F .divideByZero) (hx : x.WellFormed) (hy : y.WellFormed) :
    Yields F WellFormed (mod x y) := by
  by_cases h0 : y.units = 0
  · rw [mod_by_zero h0]
    exact hz
  · rw [mod_eq hx hy h0]
    exact wellFormed_ofUnits _

theorem factorial_yields (ho : F .overflow) (hx : x.WellFormed) :
    Yields F WellFormed x.factorial := by
  rw [factorial_eq hx]
  split
  · exact one_wellFormed
  · exact fit_yields ho _

theorem addNibble_yields {total power : Decimal} (ho : F .overflow) (ht : total.WellFormed)
    (hp : power.WellFormed) (nibble : Nat) :
    Yields F WellFormed (addNibble total power nibble) := by
  unfold addNibble
  split
  · exact ht
  · refine (ofInt_yields ho _).bind ?_
    intro n hn
    refine (mul_yields ho hn hp).bind ?_
    intro multiple hm
    exact add_yields ho ht hm

theorem addNibbles_yields {total power : Decimal} (ho : F .overflow) (ht : total.WellFormed)
    (hp : power.WellFormed) (nibbles : List Nat) :
    Yields F WellFormed (addNibbles total power nibbles) := by
  induction nibbles generalizing total power with
  | nil => exact ht
  | cons nibble nibbles ih =>
    cases nibbles with
    | nil => exact addNibble_yields ho ht hp nibble
    | cons next nibbles =>
      refine (addNibble_yields ho ht hp nibble).bind ?_
      intro total ht
      refine (mul_yields ho hp sixteen_wellFormed).bind ?_
      intro power hp
      exact ih ht hp

theorem ofNibbles_yields (ho : F .overflow) (nibbles : List Nat) :
    Yields F WellFormed (ofNibbles nibbles) :=
  addNibbles_yields ho zero_wellFormed one_wellFormed _

theorem bitAnd_yields (ho : F .overflow) (x y : Decimal) :
    Yields F WellFormed (bitAnd x y) := by
  unfold bitAnd
  split
  · exact (ofNibbles_yields ho _).map fun result hr => hr.negate
  · exact ofNibbles_yields ho _

end DeskCalculator.Decimal
