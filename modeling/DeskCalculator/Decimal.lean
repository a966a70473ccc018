import DeskCalculator.Digits

namespace DeskCalculator

/-- A sign and forty digits, the least significant first, twenty of them behind the point. -/
structure Decimal where
  negative : Bool
  digits : List Nat
deriving DecidableEq, Repr

namespace Decimal

/-- Forty digits below ten, and no sign on zero. -/
structure WellFormed (x : Decimal) : Prop where
  length : x.digits.length = Digits.width
  digit_lt : ∀ d ∈ x.digits, d < 10
  nonzero_of_negative : x.negative = true → Digits.isZero x.digits = false

/-- The absolute value in units of 10⁻²⁰. -/
def magnitude (x : Decimal) : Nat := Digits.value 10 x.digits

/-- The value in units of 10⁻²⁰. -/
def units (x : Decimal) : Int := if x.negative then -(x.magnitude : Int) else x.magnitude

/-- A sign on zero is dropped. -/
def signed (negative : Bool) (digits : List Nat) : Decimal :=
  ⟨negative && !Digits.isZero digits, digits⟩

def zero : Decimal := ⟨false, Digits.zeros Digits.width⟩

/-- The integer `n`, of which the lowest twenty digits are kept. -/
def whole (n : Nat) : Decimal :=
  ⟨false, Digits.zeros Digits.fractionWidth ++ (Digits.ofNat 10 Digits.integerWidth n).1⟩

def one : Decimal := whole 1

def two : Decimal := whole 2

def sixteen : Decimal := whole 16

/-- So many digits do not make a number. -/
structure Miscount where
  count : Nat
deriving DecidableEq, Repr

def Miscount.message (miscount : Miscount) : String :=
  s!"FixedDecimal needs {Digits.width} digits, got {miscount.count}"

/-- A number has exactly forty digits. -/
def ofDigits (negative : Bool) (digits : List Nat) : Except Miscount Decimal :=
  if digits.length = Digits.width then .ok (signed negative digits)
  else .error ⟨digits.length⟩

/-- The number that computed digits make; a wrong count of them is no fault of the input. -/
def build (negative : Bool) (digits : List Nat) : Except Fault Decimal :=
  (ofDigits negative digits).mapError fun miscount => .unexpected miscount.message

def ofInt (n : Int) : Except Fault Decimal :=
  match Digits.ofNat 10 Digits.integerWidth n.natAbs with
  | (ds, 0) => build (decide (n < 0)) (Digits.zeros Digits.fractionWidth ++ ds)
  | _ => .error .overflow

def isZero (x : Decimal) : Bool := Digits.isZero x.digits

def negate (x : Decimal) : Decimal := signed (!x.negative) x.digits

/-- The digits before the point. -/
def integerDigits (x : Decimal) : List Nat := x.digits.drop Digits.fractionWidth

def compareMagnitude (x y : Decimal) : Ordering := Digits.compare x.digits y.digits

def compare (x y : Decimal) : Ordering :=
  match x.negative, y.negative with
  | true, false => .lt
  | false, true => .gt
  | false, false => compareMagnitude x y
  | true, true => (compareMagnitude x y).swap

instance : Ord Decimal := ⟨compare⟩

/-- Numbers are equal where neither comes before the other. -/
instance : BEq Decimal := ⟨fun x y => compare x y == .eq⟩

instance : Hashable Decimal := ⟨fun x => hash (x.negative, x.digits)⟩

instance : LT Decimal := ⟨fun x y => compare x y = .lt⟩

instance : LE Decimal := ⟨fun x y => compare x y ≠ .gt⟩

instance (x y : Decimal) : Decidable (x < y) := inferInstanceAs (Decidable (compare x y = .lt))

instance (x y : Decimal) : Decidable (x ≤ y) := inferInstanceAs (Decidable (compare x y ≠ .gt))

def addMagnitude (x y : Decimal) : Except Fault Decimal := do
  build false (← Digits.add x.digits y.digits)

/-- The smaller absolute value is taken from the larger; the sign tells which was which. -/
def subMagnitude (x y : Decimal) : Decimal :=
  if compareMagnitude x y = .lt then signed true (Digits.subtract y.digits x.digits)
  else signed false (Digits.subtract x.digits y.digits)

/-- A product has twice as many digits behind the point; the lower half of them is dropped. -/
def mulMagnitude (x y : Decimal) : Except Fault Decimal := do
  let product ← Digits.multiply x.digits y.digits
  if Digits.isZero (product.drop (Digits.fractionWidth + Digits.width)) then
    build false ((product.drop Digits.fractionWidth).take Digits.width)
  else throw .overflow

def add (x y : Decimal) : Except Fault Decimal :=
  match x.negative, y.negative with
  | false, false => addMagnitude x y
  | true, true => negate <$> addMagnitude x y
  | true, false => .ok (subMagnitude y x)
  | false, true => .ok (subMagnitude x y)

def sub (x y : Decimal) : Except Fault Decimal :=
  match x.negative, y.negative with
  | true, false => negate <$> addMagnitude x y
  | false, true => addMagnitude x y
  | true, true => .ok (subMagnitude y x)
  | false, false => .ok (subMagnitude x y)

def mul (x y : Decimal) : Except Fault Decimal := do
  let product ← mulMagnitude x y
  build (x.negative != y.negative) product.digits

def div (x y : Decimal) : Except Fault Decimal :=
  if y.isZero then .error .divideByZero
  else
    let quotient := (Digits.divide x.digits y.digits Digits.fractionWidth).1
    if Digits.isZero (quotient.drop Digits.width) then
      build (x.negative != y.negative) (quotient.take Digits.width)
    else .error .overflow

/-- What an integer quotient of the absolute values leaves, with the sign of the divisor. -/
def mod (x y : Decimal) : Except Fault Decimal :=
  if y.isZero then .error .divideByZero
  else
    let remainder := (Digits.divide x.digits y.digits 0).2
    build y.negative (remainder.take Digits.width)

/-- Multiplies by the integers below `n`, down to one. -/
def multiplyBelow : Nat → Decimal → Decimal → Except Fault Decimal
  | 0, _, total => .ok total
  | fuel + 1, n, total =>
    let below := subMagnitude n one
    if below.isZero then .ok total
    else do multiplyBelow fuel below (← mulMagnitude total below)

/-- The factorial of the integer part, with the sign of `x`; where that part is zero, one. -/
def factorial (x : Decimal) : Except Fault Decimal := do
  let n ← build false (Digits.zeros Digits.fractionWidth ++ x.integerDigits)
  if n.isZero then return one
  else
    let total ← multiplyBelow (Digits.value 10 x.integerDigits) n n
    build x.negative total.digits

end Decimal

end DeskCalculator
