import DeskCalculator.Fault

namespace DeskCalculator.Digits

/-- The digits that a number keeps behind the point. -/
abbrev fractionWidth : Nat := 20

/-- The digits that a number keeps before the point. -/
abbrev integerWidth : Nat := 20

abbrev width : Nat := fractionWidth + integerWidth

/-- Room for a product of two numbers and one last carry. -/
abbrev productWidth : Nat := width + width + 1

/-- The number that digits stand for, the least significant first. -/
def value (base : Nat) : List Nat → Nat
  | [] => 0
  | d :: ds => d + base * value base ds

def zeros (count : Nat) : List Nat := List.replicate count 0

def isZero (ds : List Nat) : Bool := ds.all (· == 0)

/-- The lowest digits of `n`, as many as asked for, and what is left of it above them. -/
def ofNat (base : Nat) : Nat → Nat → List Nat × Nat
  | 0, n => ([], n)
  | count + 1, n =>
    let (ds, rest) := ofNat base count (n / base)
    (n % base :: ds, rest)

/-- Fills up with zeros at the top. -/
def pad (count : Nat) (ds : List Nat) : List Nat := ds ++ zeros (count - ds.length)

/-- Leaves out the zeros at the top. -/
def trim (ds : List Nat) : List Nat := (ds.reverse.dropWhile (· == 0)).reverse

/-- Of two lists of one length the highest digit in which they differ decides. -/
def compare : List Nat → List Nat → Ordering
  | x :: xs, y :: ys => (compare xs ys).then (Ord.compare x y)
  | _, _ => .eq

/-- The digits of a sum, as far as the shorter list goes, and the last carry. -/
def addFrom (carry : Nat) : List Nat → List Nat → List Nat × Nat
  | x :: xs, y :: ys =>
    let (zs, last) := addFrom ((x + y + carry) / 10) xs ys
    ((x + y + carry) % 10 :: zs, last)
  | _, _ => ([], carry)

def add (xs ys : List Nat) : Except Fault (List Nat) :=
  match addFrom 0 xs ys with
  | (zs, 0) => .ok zs
  | _ => .error .overflow

def subtractFrom (borrow : Nat) : List Nat → List Nat → List Nat
  | x :: xs, y :: ys =>
    if y + borrow ≤ x then (x - (y + borrow)) :: subtractFrom 0 xs ys
    else (10 + x - (y + borrow)) :: subtractFrom 1 xs ys
  | _, _ => []

/-- A difference, as far as the shorter list goes; a last borrow is dropped. -/
def subtract (xs ys : List Nat) : List Nat := subtractFrom 0 xs ys

/-- The difference of two lists that have the most significant digit first. -/
def subtractReversed (xs ys : List Nat) : List Nat :=
  (subtract xs.reverse ys.reverse).reverse

/-- The digits of `digit` times a number plus `carry`, the last carry on top. -/
def scaleFrom (digit carry : Nat) : List Nat → List Nat
  | [] => [carry]
  | d :: ds => (digit * d + carry) % 10 :: scaleFrom digit ((digit * d + carry) / 10) ds

/-- One line of a written multiplication: a multiple by one digit, moved up by `shift` places. -/
def row (ds : List Nat) (digit shift : Nat) : List Nat :=
  pad productWidth (zeros shift ++ scaleFrom digit 0 ds)

/-- Adds a line for each digit that is not zero. A line that does not fit is no fault of the
input. -/
def addRows (xs : List Nat) (shift : Nat) : List Nat → List Nat → Except Fault (List Nat)
  | [], total => .ok total
  | digit :: digits, total =>
    if digit = 0 then addRows xs (shift + 1) digits total
    else if productWidth ≤ shift + xs.length then
      .error (.unexpected "list assignment index out of range")
    else do addRows xs (shift + 1) digits (← add (row xs digit shift) total)

def multiply (xs ys : List Nat) : Except Fault (List Nat) :=
  addRows xs 0 ys (zeros productWidth)

/-- Ten times the remainder plus the digit brought down; its top digit, always zero, goes. -/
def bringDown (digit : Nat) (remainder : List Nat) : List Nat := digit :: remainder.dropLast

/-- Takes the divisor out of the remainder as often as it goes, at most `fuel` times. -/
def takeOut (divisor : List Nat) : Nat → List Nat → Nat × List Nat
  | 0, remainder => (0, remainder)
  | fuel + 1, remainder =>
    if compare remainder divisor = .lt then (0, remainder)
    else
      let (count, rest) := takeOut divisor fuel (subtract remainder divisor)
      (count + 1, rest)

/-- Long division: for each digit brought down one digit of the quotient, the highest first, and
the last remainder. A remainder holds a positive divisor no more often than its own value. -/
def divideFrom (divisor remainder : List Nat) : List Nat → List Nat × List Nat
  | [] => ([], remainder)
  | digit :: digits =>
    let current := bringDown digit remainder
    let (count, rest) := takeOut divisor (value 10 current) current
    let (quotient, last) := divideFrom divisor rest digits
    (count :: quotient, last)

/-- Quotient and remainder of two numbers of `width` digits, after `extra` zeros were brought down
behind the dividend. The remainder has one digit more than the divisor. -/
def divide (dividend divisor : List Nat) (extra : Nat) : List Nat × List Nat :=
  let (quotient, remainder) := divideFrom (divisor ++ [0]) (zeros (width + 1))
    ((dividend.take width).reverse ++ zeros extra)
  (quotient.reverse, remainder)

def complementFrom (carry : Nat) : List Nat → List Nat
  | [] => []
  | nibble :: nibbles =>
    (15 - nibble + carry) % 16 :: complementFrom ((15 - nibble + carry) / 16) nibbles

/-- The negative of a number in base sixteen, modulo sixteen to its length. -/
def complement (nibbles : List Nat) : List Nat := complementFrom 1 nibbles

/-- What a character counts as a digit, in a base up to sixteen; letters count in either case. -/
def ofCharacter? (base : Nat) (c : Char) : Option Nat :=
  let digit :=
    if '0' ≤ c ∧ c ≤ '9' then some (c.toNat - '0'.toNat)
    else if 'a' ≤ c ∧ c ≤ 'f' then some (c.toNat - 'a'.toNat + 10)
    else if 'A' ≤ c ∧ c ≤ 'F' then some (c.toNat - 'A'.toNat + 10)
    else none
  digit.filter (· < base)

/-- The number that decimal digits write, the most significant first. -/
def natOfCharacters (cs : List Char) : Nat :=
  cs.foldl (fun n c => 10 * n + (c.toNat - '0'.toNat)) 0

def character (digit : Nat) : Char := (Nat.digitChar digit).toUpper

/-- The digits as they are written, the most significant first. -/
def characters (ds : List Nat) : List Char := ds.reverse.map character

/-- The digits from the first index up to the second are printed: zeros at the end of the fraction
and at the top are left out, but the units digit is kept. -/
def bounds (ds : List Nat) : Nat × Nat :=
  (((ds.take fractionWidth).takeWhile (· == 0)).length,
   (ds.take (fractionWidth + 1)).length + (trim (ds.drop (fractionWidth + 1))).length)

end DeskCalculator.Digits
