import DeskCalculator.Decimal

namespace DeskCalculator.Decimal

def addNibble (total power : Decimal) (nibble : Nat) : Except Fault Decimal :=
  if nibble = 0 then .ok total
  else do add total (← mul (← ofInt nibble) power)

/-- Adds each nibble times its power of sixteen. The power is not taken further than the last
nibble needs, so that only the value itself can overflow. -/
def addNibbles (total power : Decimal) : List Nat → Except Fault Decimal
  | [] => .ok total
  | [nibble] => addNibble total power nibble
  | nibble :: next :: nibbles => do
    let total ← addNibble total power nibble
    addNibbles total (← mul power sixteen) (next :: nibbles)

/-- The number that unsigned nibbles stand for; zeros at the top do not matter. -/
def ofNibbles (nibbles : List Nat) : Except Fault Decimal :=
  addNibbles zero one (Digits.trim nibbles)

/-- Divides by sixteen over and over; the remainders are the nibbles. -/
def nibblesFrom : Nat → List Nat → List Nat
  | 0, _ => []
  | count + 1, ds =>
    let (quotient, remainder) := Digits.divide ds sixteen.digits 0
    Digits.value 10 (remainder.drop Digits.fractionWidth) ::
      nibblesFrom count (Digits.zeros Digits.fractionWidth ++ quotient.take Digits.integerWidth)

/-- The integer part as twenty nibbles. -/
def nibbles (x : Decimal) : List Nat :=
  let unsigned := nibblesFrom Digits.integerWidth x.digits
  if x.negative then Digits.complement unsigned else unsigned

/-- Bitwise and of the integer parts; where both numbers are negative, so is the result. -/
def bitAnd (x y : Decimal) : Except Fault Decimal :=
  let common := List.zipWith (· &&& ·) x.nibbles y.nibbles
  if x.negative && y.negative then negate <$> ofNibbles (Digits.complement common)
  else ofNibbles common

/-- How many of the nibbles of a negative number are shown: those up to the highest that is not F,
at least one F above them, rounded up to four, eight or sixteen. -/
def shownWidth (nibbles : List Nat) : Nat :=
  let needed := max 1 (nibbles.reverse.dropWhile (· == 15)).length + 1
  if needed < 4 then 4
  else if needed < 8 then 8
  else if needed < 16 then 16
  else needed

def hexDigits (x : Decimal) : List Nat :=
  let shown := if x.negative then x.nibbles.take (shownWidth x.nibbles) else x.nibbles
  shown.take 1 ++ Digits.trim (shown.drop 1)

def hexText (x : Decimal) : String :=
  String.ofList ('0' :: 'x' :: Digits.characters x.hexDigits)

/-- Whether every digit has a decimal character, and every nibble a hexadecimal one. -/
def isPrintable (x : Decimal) : Bool :=
  x.digits.all (· < 10) && x.nibbles.all (· < 16)

end DeskCalculator.Decimal
