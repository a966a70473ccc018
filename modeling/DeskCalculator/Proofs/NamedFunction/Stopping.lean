import DeskCalculator.Proofs.Decimal.Remainder
import DeskCalculator.Proofs.NamedFunction.Cosine
import DeskCalculator.Proofs.NamedFunction.SquareRoot

namespace DeskCalculator.NamedFunction

open Decimal (WellFormed fit ofUnits scale wellFormed_ofUnits)

variable {x guess minusSquare term total : Decimal} {n : Nat}

/-- Newton's steps, as many as asked for, whether or not a guess repeats. -/
def newtonSteps (x : Decimal) : Nat → Decimal → Except Fault Decimal
  | 0, guess => .ok guess
  | steps + 1, guess => do newtonSteps x steps (← newtonStep x guess)

/-- Adds as many terms as asked for, from number `n` on, whether or not they change the sum. -/
def addAllTerms (minusSquare : Decimal) : Nat → Nat → Decimal → Decimal → Except Fault Decimal
  | 0, _, _, total => .ok total
  | terms + 1, n, term, total => do
    let term ← nextTerm minusSquare n term
    addAllTerms minusSquare terms (n + 1) term (← Decimal.add total term)

/-- A guess that a step keeps is kept by all steps. -/
theorem newtonSteps_fixed (h : newtonStep x guess = .ok guess) (steps : Nat) :
    newtonSteps x steps guess = .ok guess := by
  induction steps with
  | zero => rfl
  | succ steps ih => rw [newtonSteps, h, Outcome.ok_bind, ih]

theorem refine_eq_newtonSteps (x : Decimal) (steps : Nat) (guess : Decimal) :
    NamedFunction.refine x steps guess = newtonSteps x steps guess := by
  induction steps generalizing guess with
  | zero => rfl
  | succ steps ih =>
    rw [NamedFunction.refine, newtonSteps]
    cases hstep : newtonStep x guess with
    | error fault => rfl
    | ok better =>
      rw [Outcome.ok_bind, Outcome.ok_bind]
      by_cases hsame : better = guess
      · -- the steps that are left out would all come to the same guess
        subst hsame
        rw [if_pos rfl, newtonSteps_fixed hstep]
      · rw [if_neg hsame, ih]

/-- Only zero leaves a sum as it is. -/
theorem eq_zero_of_add (ht : total.WellFormed) (hm : term.WellFormed)
    (h : Decimal.add total term = .ok total) : term = Decimal.zero := by
  rw [Decimal.add_eq ht hm] at h
  have hunits := Decimal.units_of_fit h
  have hzero : term.units = 0 := by omega
  rw [← hm.ofUnits_units, hzero, Decimal.zero_eq]

theorem add_zero (ht : total.WellFormed) : Decimal.add total Decimal.zero = .ok total := by
  have hzero : Decimal.zero.units = 0 := by decide
  rw [Decimal.add_eq ht Decimal.zero_wellFormed, hzero, Int.add_zero, ht.fit_units]

/-- Behind a term that is zero comes another one, as long as the divisor fits. -/
theorem nextTerm_zero (hm : minusSquare.WellFormed) (h0 : 0 < n) (hn : n ≤ 5 * 10 ^ 9) :
    nextTerm minusSquare n Decimal.zero = .ok Decimal.zero := by
  have hunits : Decimal.zero.units = 0 := by decide
  have hfit : fit 0 = .ok Decimal.zero := by decide
  have hpos : 0 < 2 * n * (2 * n - 1) := Nat.mul_pos (by omega) (by omega)
  have hlt := Decimal.scale_mul_lt (divisor_lt hn)
  have hdivisor : (ofUnits (scale * (2 * n * (2 * n - 1)) : Nat)).units ≠ 0 := by
    rw [Decimal.units_cast hlt]
    exact_mod_cast (Nat.mul_pos Decimal.scale_pos hpos).ne'
  change (Decimal.mul Decimal.zero minusSquare >>= fun product =>
    Decimal.ofInt (2 * n * (2 * n - 1)) >>= fun divisor => Decimal.div product divisor) = _
  rw [Decimal.mul_eq Decimal.zero_wellFormed hm, hunits, Int.zero_mul, Int.zero_tdiv, hfit,
    Outcome.ok_bind, ofInt_divisor h0 hn, Outcome.ok_bind,
    Decimal.div_eq Decimal.zero_wellFormed (wellFormed_ofUnits _) hdivisor, hunits, Int.zero_mul,
    Int.zero_tdiv, hfit]

/-- From a term that is zero on the sum stays as it is. -/
theorem addAllTerms_zero (hm : minusSquare.WellFormed) (ht : total.WellFormed) (terms : Nat)
    (h0 : 0 < n) (hn : n + terms ≤ 5 * 10 ^ 9 + 1) :
    addAllTerms minusSquare terms n Decimal.zero total = .ok total := by
  induction terms generalizing n with
  | zero => rfl
  | succ terms ih =>
    rw [addAllTerms, nextTerm_zero hm h0 (by omega), Outcome.ok_bind, add_zero ht, Outcome.ok_bind]
    exact ih (by omega) (by omega)

theorem addTerms_eq_addAllTerms (hm : minusSquare.WellFormed) (terms : Nat)
    (hterm : term.WellFormed) (ht : total.WellFormed) (h0 : 0 < n)
    (hn : n + terms ≤ 5 * 10 ^ 9 + 1) :
    addTerms minusSquare terms n term total = addAllTerms minusSquare terms n term total := by
  induction terms generalizing n term total with
  | zero => rfl
  | succ terms ih =>
    rw [addTerms, addAllTerms]
    have hnext := nextTerm_yields hm n hterm
    cases hterm' : nextTerm minusSquare n term with
    | error fault => rfl
    | ok term' =>
      have hw := hnext.of_ok hterm'
      rw [Outcome.ok_bind, Outcome.ok_bind]
      have hadd := Decimal.add_yields (F := Outcome.OfArithmetic) trivial ht hw
      cases hsum : Decimal.add total term' with
      | error fault => rfl
      | ok sum =>
        rw [Outcome.ok_bind, Outcome.ok_bind]
        by_cases hsame : sum = total
        · -- the term was zero, and so are those that are left out
          subst hsame
          rw [if_pos rfl, eq_zero_of_add ht hw hsum,
            addAllTerms_zero hm ht terms n.succ_pos (by omega)]
        · rw [if_neg hsame]
          exact ih hw (hadd.of_ok hsum) n.succ_pos (by omega)

/-- A root of a positive number is what as many of Newton's steps come to as there may be, and a
cosine the sum of as many terms, whether or not they stop before; faults are the same as well. The
root of zero takes no step at all. -/
theorem stopping_changes_nothing (hx : x.WellFormed) (iterations terms : Int) :
    (0 < x.toRat → squareRoot iterations x = newtonSteps x iterations.toNat Decimal.one) ∧
    (x.toRat = 0 → squareRoot iterations x = .ok Decimal.zero) ∧
    (terms ≤ 5 * 10 ^ 9 → cosine terms x = Decimal.mul x x >>= fun square =>
      addAllTerms square.negate (terms - 1).toNat 1 Decimal.one Decimal.one) := by
  refine ⟨?_, ?_, ?_⟩
  · intro hpos
    have hn : x.negative = false := by
      rw [Bool.eq_false_iff, ne_eq, hx.negative_iff_toRat]
      exact not_lt.mpr hpos.le
    have hz : x.isZero = false := by
      rw [Bool.eq_false_iff, ne_eq, Decimal.isZero_iff_magnitude, ← Decimal.toRat_eq_zero_iff]
      exact hpos.ne'
    rw [squareRoot, hn, hz, if_neg Bool.false_ne_true, if_neg Bool.false_ne_true,
      refine_eq_newtonSteps]
  · intro hzero
    exact squareRoot_zero hx ((Decimal.toRat_eq_zero_iff x).mp hzero) iterations
  · intro hterms
    change (Decimal.mul x x >>= fun square =>
      addTerms square.negate (terms - 1).toNat 1 Decimal.one Decimal.one) = _
    have hsquare := Decimal.mul_yields (F := Outcome.OfArithmetic) trivial hx hx
    cases hmul : Decimal.mul x x with
    | error fault => rfl
    | ok square =>
      exact addTerms_eq_addAllTerms (hsquare.of_ok hmul).negate _ Decimal.one_wellFormed
        Decimal.one_wellFormed Nat.one_pos (by omega)

/-- The root of four repeats its guess after a few steps, and of the cosine of three the last terms
are zero. -/
theorem stopping_changes_nothing_early :
    newtonSteps (ofUnits (4 * 10 ^ 20 : Nat)) 100 Decimal.one = .ok (ofUnits (2 * 10 ^ 20 : Nat)) ∧
      squareRoot 100 Decimal.zero = .ok Decimal.zero ∧
      cosine 40 (ofUnits (3 * 10 ^ 20)) =
        Decimal.mul (ofUnits (3 * 10 ^ 20)) (ofUnits (3 * 10 ^ 20)) >>= fun square =>
          addAllTerms square.negate 39 1 Decimal.one Decimal.one := by
  have hpos : 0 < (ofUnits (4 * 10 ^ 20 : Nat)).toRat := by
    rw [Decimal.toRat_ofUnits (by decide)]
    norm_num [scale]
  have hroot : squareRoot 100 (ofUnits (4 * 10 ^ 20 : Nat)) = .ok (ofUnits (2 * 10 ^ 20 : Nat)) := by
    rw [squareRoot_cast (by decide) (by decide), if_neg (by decide)]
    decide +kernel
  have hzero : Decimal.zero.toRat = 0 := (Decimal.toRat_eq_zero_iff _).mpr (by decide)
  obtain ⟨hsteps, -, -⟩ := stopping_changes_nothing (wellFormed_ofUnits (4 * 10 ^ 20 : Nat)) 100 40
  obtain ⟨-, hnone, -⟩ := stopping_changes_nothing Decimal.zero_wellFormed 100 40
  obtain ⟨-, -, hterms⟩ := stopping_changes_nothing (wellFormed_ofUnits (3 * 10 ^ 20)) 100 40
  exact ⟨(hsteps hpos).symm.trans hroot, hnone hzero, hterms (by decide)⟩

/-- A step from one takes half of it where the number is zero, whose root is no half. -/
theorem squareRoot_zero_step :
    Decimal.zero.WellFormed ∧ 0 ≤ Decimal.zero.toRat ∧
      newtonSteps Decimal.zero 1 Decimal.one = .ok (ofUnits (5 * 10 ^ 19)) ∧
      squareRoot 1 Decimal.zero = .ok Decimal.zero ∧ Decimal.zero ≠ ofUnits (5 * 10 ^ 19) := by
  refine ⟨Decimal.zero_wellFormed, ?_, ?_, ?_, ?_⟩
  · rw [Decimal.toRat_nonneg_iff]
    decide
  · decide +kernel
  · rfl
  · decide

end DeskCalculator.NamedFunction
