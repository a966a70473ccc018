import DeskCalculator.Decimal.Nibbles

namespace DeskCalculator

/-- The digits so far, the last one read first. A binary numeral keeps its value instead, so that
it may have any number of digits. -/
inductive Numeral where
  | whole (digits : List Nat)
  | fractional (digits fraction : List Nat)
  | hexadecimal (digits : List Nat)
  | binary (value : Decimal)
deriving DecidableEq, Repr

namespace Numeral

def base : Numeral → Nat
  | whole _ | fractional _ _ => 10
  | hexadecimal _ => 16
  | binary _ => 2

/-- Among hexadecimal digits a `b` is a digit. -/
def isMarker (numeral : Numeral) (c : Char) : Bool :=
  c == 'x' || (c == 'b' && numeral.base != 16)

/-- A radix marker follows a single zero and nothing else. -/
def mark (c : Char) : Numeral → Except Fault Numeral
  | whole [0] => .ok (if c = 'x' then hexadecimal [0] else binary Decimal.zero)
  | _ => .error (.badRadixMarker c)

/-- The zero in front of a marker counts as a digit. -/
def append (digit : Nat) : Numeral → Except Fault Numeral
  | whole ds =>
    if ds.length < Digits.integerWidth then .ok (whole (digit :: ds))
    else .error .integerPartOverflow
  | fractional ds fs =>
    if fs.length < Digits.fractionWidth then .ok (fractional ds (digit :: fs))
    else .error .fractionalPartOverflow
  | hexadecimal ds =>
    if ds.length < Digits.integerWidth then .ok (hexadecimal (digit :: ds))
    else .error .integerPartOverflow
  | binary v => do
    return binary (← Decimal.addMagnitude (← Decimal.mulMagnitude v Decimal.two)
      (Decimal.whole digit))

def value : Numeral → Except Fault Decimal
  | whole ds =>
    Decimal.build false (Digits.zeros Digits.fractionWidth ++ Digits.pad Digits.integerWidth ds)
  | fractional ds fs =>
    Decimal.build false
      (Digits.zeros (Digits.fractionWidth - fs.length) ++ fs ++
        Digits.pad Digits.integerWidth ds)
  | hexadecimal ds => Decimal.ofNibbles ds
  | binary v => .ok v

/-- The numeral after one more character, and whether an underscore was seen since the last digit;
nothing where the character ends the literal. -/
def next (numeral : Numeral) (separated : Bool) (c : Char) :
    Except Fault (Option (Numeral × Bool)) :=
  if numeral.isMarker c then
    (numeral.mark c).map fun marked => some (marked, separated)
  else if c = '.' then
    match numeral with
    | whole ds => .ok (some (fractional ds [], separated))
    | _ => .ok none
  else if c = '_' then
    if separated then .error .doubleSeparator else .ok (some (numeral, true))
  else
    match Digits.ofCharacter? numeral.base c with
    | some digit => (numeral.append digit).map fun longer => some (longer, false)
    | none => .ok none

/-- The value of the longest continuation of the numeral, and the text behind it. -/
def scan (numeral : Numeral) (separated : Bool) : List Char → Except Fault Decimal × List Char
  | [] => (numeral.value, [])
  | c :: cs =>
    match numeral.next separated c with
    | .error fault => (.error fault, c :: cs)
    | .ok none => (numeral.value, c :: cs)
    | .ok (some (longer, separated)) => scan longer separated cs

theorem length_scan_le (numeral : Numeral) (separated : Bool) (cs : List Char) :
    (numeral.scan separated cs).2.length ≤ cs.length := by
  induction cs generalizing numeral separated with
  | nil => simp [scan]
  | cons c cs ih =>
    unfold scan
    split
    · exact Nat.le_refl _
    · exact Nat.le_refl _
    · exact Nat.le_succ_of_le (ih _ _)

end Numeral

namespace Decimal

/-- The literal at the start of a text, and the text behind it. Where no digit stands, nothing is
read. -/
def readLiteral : List Char → Except Fault Decimal × List Char
  | [] => (.error .noInput, [])
  | c :: cs =>
    match Digits.ofCharacter? 10 c with
    | some digit => Numeral.scan (.whole [digit]) false cs
    | none => (.error .noInput, c :: cs)

theorem length_readLiteral_lt {cs rest : List Char} {x : Decimal}
    (h : readLiteral cs = (.ok x, rest)) : rest.length < cs.length := by
  cases cs with
  | nil => simp [readLiteral] at h
  | cons c cs =>
    simp only [readLiteral] at h
    split at h
    · rename_i d _
      have := Numeral.length_scan_le (.whole [d]) false cs
      rw [h] at this
      exact Nat.lt_succ_of_le this
    · simp at h

/-- A literal that takes up the whole text. -/
def readWhole (cs : List Char) : Except Fault Decimal :=
  match readLiteral cs with
  | (.ok x, []) => .ok x
  | (.ok _, c :: _) => .error (.badCharacter c)
  | (.error fault, _) => .error fault

/-- A literal that takes up the whole text, with or without a minus sign. -/
def parse (text : String) : Except Fault Decimal :=
  match text.toList with
  | '-' :: cs => negate <$> readWhole cs
  | cs => readWhole cs

end Decimal

end DeskCalculator
