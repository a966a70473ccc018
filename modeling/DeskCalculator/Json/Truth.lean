import DeskCalculator.Digits
import DeskCalculator.Json

namespace DeskCalculator.Json

def signedExponent : List Char → Int
  | '-' :: digits => -(Digits.natOfCharacters digits : Int)
  | '+' :: digits => Digits.natOfCharacters digits
  | digits => Digits.natOfCharacters digits

/-- The digits of a number as it is written, and the power of ten that they count; no digits for
the words that stand for numbers. -/
def scientific (literal : List Char) : List Char × Int :=
  let significand := literal.takeWhile fun c => c != 'e' && c != 'E'
  let places := ((significand.dropWhile (· != '.')).filter Char.isDigit).length
  (significand.filter Char.isDigit,
   signedExponent (literal.drop (significand.length + 1)) - places)

/-- Whether `n` times the given power of ten is more than 2⁻¹⁰⁷⁵, half the least positive number
of double precision; a number up to there is rounded to zero. With `k` digits in `n`, and 324 more
places behind the point, it is below 10⁻³²⁴, which is less. -/
def roundsToNonzero (n : Nat) : Int → Bool
  | .ofNat _ => n != 0
  | .negSucc places =>
    n != 0 && places + 1 < (toString n).length + 324 && Nat.pow 10 (places + 1) < n * Nat.pow 2 1075

def isTrueReal (literal : List Char) : Bool :=
  match scientific literal with
  | ([], _) => true
  | (digits, exponent) => roundsToNonzero (Digits.natOfCharacters digits) exponent

/-- All is true but null, false, zero and what is empty. -/
def isTrue : Json → Bool
  | null => false
  | bool b => b
  | int n => n != 0
  | real literal => isTrueReal literal.toList
  | str s => !s.isEmpty
  | arr items => !items.isEmpty
  | obj members => !members.isEmpty

end DeskCalculator.Json
