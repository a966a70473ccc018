import DeskCalculator.Proofs.Decimal.Arithmetic
import DeskCalculator.Proofs.NamedFunction

namespace DeskCalculator.NamedFunction

open Decimal (attach capacity fit_attach_of_le fit_attach_of_lt ofUnits scale wellFormed_ofUnits)

variable {s n u : Nat} {x r : Decimal}

/-- The units of the term with number `n`, its sign aside; `s` counts the units of the square. -/
def termCount (s : Nat) : Nat → Nat
  | 0 => scale
  | n + 1 => termCount s n * s / scale / (2 * (n + 1) * (2 * (n + 1) - 1))

/-- Terms with an odd number are taken off. -/
def term (s n : Nat) : Int := attach n.bodd (termCount s n)

theorem term_zero (s : Nat) : term s 0 = scale := rfl

/-- The sum of the terms up to number `n`. -/
def termSum (s : Nat) : Nat → Int
  | 0 => scale
  | n + 1 => termSum s n + term s (n + 1)

/-- What is computed on the way from term number `n` to the next sum is not too big. -/
def Fits (s n : Nat) : Prop :=
  termCount s n * s / scale < capacity ∧ (termSum s (n + 1)).natAbs < capacity

instance (s n : Nat) : Decidable (Fits s n) := inferInstanceAs (Decidable (_ ∧ _))

theorem divisor_lt (hn : n ≤ 5 * 10 ^ 9) : 2 * n * (2 * n - 1) < scale :=
  calc 2 * n * (2 * n - 1) ≤ 10 ^ 10 * (10 ^ 10 - 1) := Nat.mul_le_mul (by omega) (by omega)
    _ < scale := by decide

theorem ofInt_divisor (h0 : 0 < n) (hn : n ≤ 5 * 10 ^ 9) :
    Decimal.ofInt (2 * n * (2 * n - 1)) = .ok (ofUnits (scale * (2 * n * (2 * n - 1)) : Nat)) := by
  have hcast : (2 * n * (2 * n - 1) : Int) = ((2 * n * (2 * n - 1) : Nat) : Int) := by
    rw [Nat.cast_mul, Nat.cast_mul, Nat.cast_sub (by omega)]
    rfl
  rw [Decimal.ofInt_eq, hcast, ← Nat.cast_mul,
    Decimal.fit_cast_of_lt (Decimal.scale_mul_lt (divisor_lt hn))]

/-- The term that comes after one of either sign. -/
theorem nextTerm_attach (hu : u < capacity) (hs : s < capacity) (h0 : 0 < n)
    (hn : n ≤ 5 * 10 ^ 9) (p : Bool) :
    nextTerm (ofUnits (-(s : Int))) n (ofUnits (attach p u)) =
      if u * s / scale < capacity then
        .ok (ofUnits (attach (!p) (u * s / scale / (2 * n * (2 * n - 1)))))
      else .error .overflow := by
  change (Decimal.mul (ofUnits (attach p u)) (ofUnits (attach true s)) >>= fun product =>
    Decimal.ofInt (2 * n * (2 * n - 1)) >>= fun divisor => Decimal.div product divisor) = _
  rw [Decimal.mul_attach hu hs, Bool.bne_true]
  by_cases hp : u * s / scale < capacity
  · have hpos : 0 < 2 * n * (2 * n - 1) := Nat.mul_pos (by omega) (by omega)
    have hd : scale * (2 * n * (2 * n - 1)) < capacity := Decimal.scale_mul_lt (divisor_lt hn)
    have hd0 : scale * (2 * n * (2 * n - 1)) ≠ 0 := (Nat.mul_pos Decimal.scale_pos hpos).ne'
    have hdiv := Decimal.div_attach hp hd hd0 (!p) false
    have hquotient : u * s / scale * scale / (scale * (2 * n * (2 * n - 1))) =
        u * s / scale / (2 * n * (2 * n - 1)) := by
      rw [Nat.mul_comm _ scale, Nat.mul_div_mul_left _ _ Decimal.scale_pos]
    have hlt : u * s / scale / (2 * n * (2 * n - 1)) < capacity :=
      (Nat.div_le_self _ _).trans_lt hp
    rw [hquotient, Bool.bne_false, fit_attach_of_lt hlt] at hdiv
    rw [if_pos hp, fit_attach_of_lt hp, Outcome.ok_bind, ofInt_divisor h0 hn, Outcome.ok_bind]
    exact hdiv
  · rw [if_neg hp, fit_attach_of_le (Nat.not_lt.mp hp)]
    rfl

theorem nextTerm_eq (hs : s < capacity) (ht : termCount s n < capacity)
    (hn : n + 1 ≤ 5 * 10 ^ 9) :
    nextTerm (ofUnits (-(s : Int))) (n + 1) (ofUnits (term s n)) =
      if termCount s n * s / scale < capacity then .ok (ofUnits (term s (n + 1)))
      else .error .overflow := by
  rw [term, nextTerm_attach ht hs n.succ_pos hn, term, termCount, Nat.bodd_succ]

theorem termCount_lt (h : Fits s n) : termCount s (n + 1) < capacity :=
  (Nat.div_le_self _ _).trans_lt h.1

theorem term_eq_zero_iff : term s n = 0 ↔ termCount s n = 0 := by
  rw [term, ← Int.natAbs_eq_zero, Decimal.natAbs_attach]

/-- A step of the loop, which is the last one where the term is zero. -/
theorem addTerms_succ (hs : s < capacity) (k : Nat) (hn : n + 1 ≤ 5 * 10 ^ 9)
    (ht : termCount s n < capacity) (hsum : (termSum s n).natAbs < capacity) :
    addTerms (ofUnits (-(s : Int))) (k + 1) (n + 1) (ofUnits (term s n))
        (ofUnits (termSum s n)) =
      if Fits s n then
        if termCount s (n + 1) = 0 then .ok (ofUnits (termSum s (n + 1)))
        else addTerms (ofUnits (-(s : Int))) k (n + 2) (ofUnits (term s (n + 1)))
          (ofUnits (termSum s (n + 1)))
      else .error .overflow := by
  rw [addTerms, nextTerm_eq hs ht hn]
  by_cases hp : termCount s n * s / scale < capacity
  · have ht' : termCount s (n + 1) < capacity := (Nat.div_le_self _ _).trans_lt hp
    have hadd : Decimal.add (ofUnits (termSum s n)) (ofUnits (term s (n + 1))) =
        Decimal.fit (termSum s (n + 1)) := by
      rw [Decimal.add_eq (wellFormed_ofUnits _) (wellFormed_ofUnits _),
        Decimal.units_ofUnits hsum, term, Decimal.units_attach ht']
      rfl
    rw [if_pos hp, Outcome.ok_bind, hadd]
    by_cases hfit : (termSum s (n + 1)).natAbs < capacity
    · -- numbers that fit are equal where their units are, and the units differ by the term
      have hsame : ofUnits (termSum s (n + 1)) = ofUnits (termSum s n) ↔
          termCount s (n + 1) = 0 := by
        rw [← term_eq_zero_iff]
        constructor
        · intro heq
          have hu := congrArg Decimal.units heq
          rw [Decimal.units_ofUnits hfit, Decimal.units_ofUnits hsum, termSum] at hu
          omega
        · intro hzero
          rw [termSum, hzero, Int.add_zero]
      rw [if_pos ⟨hp, hfit⟩, Decimal.fit_of_lt hfit, Outcome.ok_bind]
      simp only [hsame]
    · rw [if_neg fun h => hfit h.2, Decimal.fit_of_le (Nat.not_lt.mp hfit)]
      rfl
  · rw [if_neg hp, if_neg fun h => hp h.1]
    rfl

theorem termCount_of_zero (h : termCount s n = 0) (k : Nat) : termCount s (n + k) = 0 := by
  induction k with
  | zero => exact h
  | succ k ih => simp [termCount, ih]

theorem termSum_of_zero (h : termCount s n = 0) (k : Nat) : termSum s (n + k) = termSum s n := by
  induction k with
  | zero => rfl
  | succ k ih =>
    have hzero := term_eq_zero_iff.mpr (termCount_of_zero h (k + 1))
    rw [← Nat.add_assoc] at hzero ⊢
    rw [termSum, hzero, ih, Int.add_zero]

/-- Behind a term that is zero nothing more is added, so that all of it fits. -/
theorem fits_of_zero (h : termCount s n = 0) (hsum : (termSum s n).natAbs < capacity) (k : Nat) :
    Fits s (n + k) := by
  have hlast := termSum_of_zero h (k + 1)
  rw [← Nat.add_assoc] at hlast
  refine ⟨?_, by rwa [hlast]⟩
  rw [termCount_of_zero h k, Nat.zero_mul]
  decide

/-- The loop comes to the sum of as many terms as there may be, if all of them fit. -/
theorem addTerms_eq (hs : s < capacity) (k : Nat) (hn : n + k ≤ 5 * 10 ^ 9)
    (ht : termCount s n < capacity) (hsum : (termSum s n).natAbs < capacity) :
    addTerms (ofUnits (-(s : Int))) k (n + 1) (ofUnits (term s n)) (ofUnits (termSum s n)) =
      if ∀ j < k, Fits s (n + j) then .ok (ofUnits (termSum s (n + k))) else .error .overflow := by
  induction k generalizing n with
  | zero => simp [addTerms]
  | succ k ih =>
    have hall : (∀ j < k + 1, Fits s (n + j)) ↔ Fits s n ∧ ∀ j < k, Fits s (n + 1 + j) := by
      simp only [Nat.forall_lt_succ_left, Nat.add_zero, Nat.add_assoc, Nat.add_comm 1]
    have hlast : n + (k + 1) = n + 1 + k := by omega
    rw [addTerms_succ hs k (by omega) ht hsum, hlast]
    simp only [hall]
    by_cases hfit : Fits s n
    · rw [if_pos hfit]
      simp only [hfit, true_and]
      by_cases hzero : termCount s (n + 1) = 0
      · rw [if_pos hzero, if_pos fun j _ => fits_of_zero hzero hfit.2 j, termSum_of_zero hzero]
      · rw [if_neg hzero]
        exact ih (by omega) (termCount_lt hfit) hfit.2
    · rw [if_neg hfit, if_neg fun h => hfit h.1]

/-- The cosine of a number whose square is `s` units. -/
theorem cosine_eq (hx : x.WellFormed) {terms : Int} (hterms : terms ≤ 5 * 10 ^ 9) :
    cosine terms x =
      if x.magnitude ^ 2 / scale < capacity ∧
          ∀ j < (terms - 1).toNat, Fits (x.magnitude ^ 2 / scale) j then
        .ok (ofUnits (termSum (x.magnitude ^ 2 / scale) (terms - 1).toNat))
      else .error .overflow := by
  have hsquare : Decimal.mul x x = Decimal.fit (x.magnitude ^ 2 / scale : Nat) := by
    rw [Decimal.mul_magnitudes hx hx, bne_self_eq_false, ← Nat.pow_two]
    rfl
  change (Decimal.mul x x >>= fun square =>
    addTerms square.negate (terms - 1).toNat 1 Decimal.one Decimal.one) = _
  rw [hsquare]
  generalize x.magnitude ^ 2 / scale = s
  by_cases hs : s < capacity
  · have hscale : scale < capacity := by decide
    have hterm : termCount s 0 < capacity := by rwa [termCount]
    have hsum : (termSum s 0).natAbs < capacity := by rwa [termSum, Int.natAbs_natCast]
    have hloop := addTerms_eq hs (terms - 1).toNat (by omega) hterm hsum
    have hnegate : (ofUnits (s : Int)).negate = ofUnits (-(s : Int)) :=
      Decimal.negate_ofUnits hs
    rw [term_zero, termSum] at hloop
    simp only [Nat.zero_add] at hloop
    rw [Decimal.fit_cast_of_lt hs, Outcome.ok_bind, hnegate, Decimal.one_eq]
    simp only [hs, true_and]
    exact hloop
  · rw [Decimal.fit_cast_of_le (Nat.not_lt.mp hs), if_neg fun h => hs h.1]
    rfl

end DeskCalculator.NamedFunction
