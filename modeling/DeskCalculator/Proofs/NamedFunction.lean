import DeskCalculator.NamedFunction
import DeskCalculator.Proofs.Decimal.Safety

namespace DeskCalculator.NamedFunction

open Decimal (WellFormed)
open Outcome (Meets OfArithmetic Yields)

variable {x guess : Decimal}

theorem newtonStep_yields (hx : x.WellFormed) (hg : guess.WellFormed) :
    Yields OfArithmetic WellFormed (newtonStep x guess) := by
  refine (Decimal.div_yields trivial trivial hx hg).bind ?_
  intro quotient hq
  refine (Decimal.add_yields trivial hg hq).bind ?_
  intro sum hs
  exact Decimal.div_yields trivial trivial hs Decimal.two_wellFormed

theorem refine_yields (hx : x.WellFormed) (steps : Nat) (hg : guess.WellFormed) :
    Yields OfArithmetic WellFormed (NamedFunction.refine x steps guess) := by
  induction steps generalizing guess with
  | zero => exact hg
  | succ steps ih =>
    refine (newtonStep_yields hx hg).bind ?_
    intro better hb
    split
    · exact hb
    · exact ih hb

theorem squareRoot_yields (iterations : Int) (hx : x.WellFormed) :
    Yields OfArithmetic WellFormed (squareRoot iterations x) := by
  unfold squareRoot
  split
  · exact trivial
  · split
    · exact Decimal.zero_wellFormed
    · exact refine_yields hx _ Decimal.one_wellFormed

theorem nextTerm_yields {minusSquare term : Decimal} (hm : minusSquare.WellFormed) (n : Nat)
    (ht : term.WellFormed) : Yields OfArithmetic WellFormed (nextTerm minusSquare n term) := by
  refine (Decimal.mul_yields trivial ht hm).bind ?_
  intro product hp
  refine (Decimal.ofInt_yields trivial _).bind ?_
  intro divisor hd
  exact Decimal.div_yields trivial trivial hp hd

theorem addTerms_yields {minusSquare term total : Decimal} (hm : minusSquare.WellFormed)
    (terms n : Nat) (ht : term.WellFormed) (hs : total.WellFormed) :
    Yields OfArithmetic WellFormed (addTerms minusSquare terms n term total) := by
  induction terms generalizing n term total with
  | zero => exact hs
  | succ terms ih =>
    refine (nextTerm_yields hm n ht).bind ?_
    intro term ht
    refine (Decimal.add_yields trivial hs ht).bind ?_
    intro sum hsum
    split
    · exact hsum
    · exact ih (n + 1) ht hsum

theorem cosine_yields (terms : Int) (hx : x.WellFormed) :
    Yields OfArithmetic WellFormed (cosine terms x) := by
  refine (Decimal.mul_yields trivial hx hx).bind ?_
  intro square hs
  exact addTerms_yields hs.negate _ _ Decimal.one_wellFormed Decimal.one_wellFormed

theorem apply_yields (limits : Limits) (hx : x.WellFormed) (f : NamedFunction) :
    Yields OfArithmetic WellFormed (f.apply limits x) := by
  cases f with
  | zero => exact Decimal.zero_wellFormed
  | same => exact hx
  | sqrt => exact squareRoot_yields _ hx
  | cos => exact cosine_yields _ hx

/-- A name that no function has is the input's fault. -/
theorem find_meets (name : String) : Meets (fun _ => True) (find name) := by
  unfold find
  split
  · exact trivial
  · exact trivial

theorem call_meets (limits : Limits) (name : String) (hx : x.WellFormed) :
    Meets WellFormed (call limits name x) := by
  refine (find_meets name).bind ?_
  intro f _
  exact (apply_yields limits hx f).mono fun _ h => h.ofInput

end DeskCalculator.NamedFunction
