import DeskCalculator.Decimal

namespace DeskCalculator.Decimal

/-- No zero at the top but a lone units digit, none at the end of a fraction, and a point only before
one. -/
def characters (x : Decimal) : List Char :=
  let (start, stop) := Digits.bounds x.digits
  let whole := Digits.characters ((x.digits.take stop).drop Digits.fractionWidth)
  let fraction := Digits.characters ((x.digits.take Digits.fractionWidth).drop start)
  (if x.negative then ['-'] else []) ++ whole ++ (if fraction.isEmpty then [] else '.' :: fraction)

def text (x : Decimal) : String := String.ofList x.characters

instance : ToString Decimal := ⟨text⟩

end DeskCalculator.Decimal
