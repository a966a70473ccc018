import DeskCalculator.Decimal.Text

namespace DeskCalculator

/-- How far the approximations go; below one they do no step. -/
structure Limits where
  sqrtIterations : Int := 100
  cosTerms : Int := 40
deriving DecidableEq, Repr

inductive NamedFunction where
  | zero
  | same
  | sqrt
  | cos
deriving DecidableEq, Repr

namespace NamedFunction

def name : NamedFunction → String
  | zero => "zero"
  | same => "same"
  | sqrt => "sqrt"
  | cos => "cos"

def all : List NamedFunction := [zero, same, sqrt, cos]

def find (name : String) : Except Fault NamedFunction :=
  match all.find? (·.name == name) with
  | some f => .ok f
  | none => .error (.unknownFunction name)

/-- Newton's step from a guess to the mean of `guess` and `x / guess`. -/
def newtonStep (x guess : Decimal) : Except Fault Decimal := do
  let quotient ← Decimal.div x guess
  Decimal.div (← Decimal.add guess quotient) Decimal.two

/-- Newton's steps, until a guess repeats or as many as allowed are done. -/
def refine (x : Decimal) : Nat → Decimal → Except Fault Decimal
  | 0, guess => .ok guess
  | steps + 1, guess => do
    let better ← newtonStep x guess
    if better = guess then .ok better else refine x steps better

def squareRoot (iterations : Int) (x : Decimal) : Except Fault Decimal :=
  if x.negative then .error (.negativeRoot x.text)
  else if x.isZero then .ok Decimal.zero
  else refine x iterations.toNat Decimal.one

/-- The term after the one with number `n - 1`, which is `term`. -/
def nextTerm (minusSquare : Decimal) (n : Nat) (term : Decimal) : Except Fault Decimal := do
  let product ← Decimal.mul term minusSquare
  Decimal.div product (← Decimal.ofInt (2 * n * (2 * n - 1)))

/-- Adds the terms from number `n` on, until one leaves the sum as it is or as many as allowed are
added. -/
def addTerms (minusSquare : Decimal) : Nat → Nat → Decimal → Decimal → Except Fault Decimal
  | 0, _, _, total => .ok total
  | terms + 1, n, term, total => do
    let term ← nextTerm minusSquare n term
    let sum ← Decimal.add total term
    if sum = total then .ok sum else addTerms minusSquare terms (n + 1) term sum

/-- The Taylor series 1 - x²/2! + x⁴/4! - … of the cosine; its first term is number zero. -/
def cosine (terms : Int) (x : Decimal) : Except Fault Decimal := do
  let square ← Decimal.mul x x
  addTerms square.negate (terms - 1).toNat 1 Decimal.one Decimal.one

def apply (limits : Limits) (x : Decimal) : NamedFunction → Except Fault Decimal
  | zero => .ok Decimal.zero
  | same => .ok x
  | sqrt => squareRoot limits.sqrtIterations x
  | cos => cosine limits.cosTerms x

def call (limits : Limits) (name : String) (x : Decimal) : Except Fault Decimal := do
  (← find name).apply limits x

end NamedFunction

end DeskCalculator
