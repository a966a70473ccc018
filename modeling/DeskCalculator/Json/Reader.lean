import DeskCalculator.Digits
import DeskCalculator.Json

namespace DeskCalculator.Json

/-- Why a text was not read. -/
inductive Refusal where
  /-- It is no JSON. -/
  | malformed
  /-- A whole number in it has more digits than `digitLimit`. -/
  | tooManyDigits
deriving DecidableEq, Repr

def isSpace (c : Char) : Bool := c == ' ' || c == '\t' || c == '\n' || c == '\r'

def skip (cs : List Char) : List Char := cs.dropWhile isSpace

/-- The unit that four hexadecimal digits write. -/
def unit? (a b c d : Char) : Option Nat := do
  let a ← Digits.ofCharacter? 16 a
  let b ← Digits.ofCharacter? 16 b
  let c ← Digits.ofCharacter? 16 c
  let d ← Digits.ofCharacter? 16 d
  return Digits.value 16 [d, c, b, a]

/-- The character that a backslash and a letter write. -/
def named? : Char → Option Char
  | '\x22' => some '\x22'
  | '\\' => some '\\'
  | '/' => some '/'
  | 'b' => some '\x08'
  | 'f' => some '\x0c'
  | 'n' => some '\n'
  | 'r' => some '\r'
  | 't' => some '\t'
  | _ => none

/-- The code points up to the closing quote, surrogates still apart. -/
def readPoints : List Char → Option (List Nat × List Char)
  | [] => none
  | '\x22' :: rest => some ([], rest)
  | '\\' :: 'u' :: a :: b :: c :: d :: rest => do
    let unit ← unit? a b c d
    let (points, rest) ← readPoints rest
    return (unit :: points, rest)
  | '\\' :: name :: rest => do
    let c ← named? name
    let (points, rest) ← readPoints rest
    return (c.toNat :: points, rest)
  | c :: rest => do
    if c < ' ' then none
    let (points, rest) ← readPoints rest
    return (c.toNat :: points, rest)

def isHigh (n : Nat) : Bool := 0xD800 ≤ n && n < 0xDC00

def isLow (n : Nat) : Bool := 0xDC00 ≤ n && n < 0xE000

/-- Joins surrogates; one that stands alone becomes a replacement character. -/
def joinSurrogates : List Nat → List Char
  | [] => []
  | [n] => [if isHigh n || isLow n then '\uFFFD' else Char.ofNat n]
  | n :: m :: rest =>
    if isHigh n && isLow m then
      Char.ofNat (0x10000 + (n - 0xD800) * 0x400 + (m - 0xDC00)) :: joinSurrogates rest
    else (if isHigh n || isLow n then '\uFFFD' else Char.ofNat n) :: joinSurrogates (m :: rest)

/-- The string behind an opening quote. -/
def readString (cs : List Char) : Except Refusal (String × List Char) :=
  match readPoints cs with
  | some (points, rest) => .ok (String.ofList (joinSurrogates points), rest)
  | none => .error .malformed

/-- The digits of a whole number: a lone zero, or digits that begin with another one. -/
def wholeDigits (cs : List Char) : List Char :=
  match cs with
  | '0' :: _ => ['0']
  | _ => cs.takeWhile Char.isDigit

/-- A point with digits behind it, or nothing. -/
def fractionPart (cs : List Char) : List Char :=
  match cs with
  | '.' :: rest =>
    match rest.takeWhile Char.isDigit with
    | [] => []
    | digits => '.' :: digits
  | _ => []

def signPart : List Char → List Char
  | '+' :: _ => ['+']
  | '-' :: _ => ['-']
  | _ => []

/-- An exponent with digits, or nothing. -/
def exponentPart (cs : List Char) : List Char :=
  match cs with
  | mark :: rest =>
    if mark = 'e' ∨ mark = 'E' then
      match (rest.drop (signPart rest).length).takeWhile Char.isDigit with
      | [] => []
      | digits => mark :: signPart rest ++ digits
    else []
  | [] => []

/-- A number without its sign. -/
def readUnsigned (negative : Bool) (cs : List Char) : Except Refusal (Json × List Char) :=
  match wholeDigits cs with
  | [] => .error .malformed
  | whole =>
    let behind := cs.drop whole.length
    let fraction := fractionPart behind
    let exponent := exponentPart (behind.drop fraction.length)
    let rest := behind.drop (fraction.length + exponent.length)
    if !(fraction.isEmpty && exponent.isEmpty) then
      .ok (real (String.ofList ((if negative then ['-'] else []) ++ whole ++ fraction ++ exponent)),
        rest)
    else if digitLimit < whole.length then .error .tooManyDigits
    else
      let n := Digits.natOfCharacters whole
      .ok (int (if negative then -(n : Int) else n), rest)

/-- The words that stand for values. -/
def words : List (List Char × Json) :=
  [("null".toList, null), ("true".toList, bool true), ("false".toList, bool false),
   ("NaN".toList, real "NaN"), ("Infinity".toList, real "Infinity"),
   ("-Infinity".toList, real "-Infinity")]

def readWord (cs : List Char) : Option (Json × List Char) :=
  words.findSome? fun (word, value) =>
    if word.isPrefixOf cs then some (value, cs.drop word.length) else none

def readScalar (cs : List Char) : Except Refusal (Json × List Char) :=
  match readWord cs, cs with
  | some found, _ => .ok found
  | none, '-' :: rest => readUnsigned true rest
  | none, cs => readUnsigned false cs

mutual

/-- The value at the start of a text, blanks aside. `depth` bounds the calls one within another. -/
def readValue (depth : Nat) (cs : List Char) : Except Refusal (Json × List Char) :=
  match depth with
  | 0 => .error .malformed
  | depth + 1 =>
    match skip cs with
    | '\x22' :: rest => (readString rest).map fun (s, rest) => (str s, rest)
    | '[' :: rest =>
      match skip rest with
      | ']' :: rest => .ok (arr [], rest)
      | rest => (readItems depth rest).map fun (items, rest) => (arr items, rest)
    | '\x7b' :: rest =>
      match skip rest with
      | '\x7d' :: rest => .ok (obj [], rest)
      | rest => (readMembers depth rest).map fun (pairs, rest) => (obj (Members.ofList pairs), rest)
    | rest => readScalar rest

/-- Items up to the closing bracket. -/
def readItems (depth : Nat) (cs : List Char) : Except Refusal (List Json × List Char) :=
  match depth with
  | 0 => .error .malformed
  | depth + 1 => do
    let (item, rest) ← readValue depth cs
    match skip rest with
    | ']' :: rest => return ([item], rest)
    | ',' :: rest =>
      let (items, rest) ← readItems depth rest
      return (item :: items, rest)
    | _ => .error .malformed

/-- Members up to the closing brace. -/
def readMembers (depth : Nat) (cs : List Char) :
    Except Refusal (List (String × Json) × List Char) :=
  match depth with
  | 0 => .error .malformed
  | depth + 1 => do
    let '\x22' :: rest := skip cs | .error .malformed
    let (key, rest) ← readString rest
    let ':' :: rest := skip rest | .error .malformed
    let (value, rest) ← readValue depth rest
    match skip rest with
    | '\x7d' :: rest => return ([(key, value)], rest)
    | ',' :: rest =>
      let (members, rest) ← readMembers depth rest
      return ((key, value) :: members, rest)
    | _ => .error .malformed

end

/-- The value of a text that holds one and nothing else. Calls one within another read at least one
character in two calls. -/
def read (text : String) : Except Refusal Json := do
  let (value, rest) ← readValue (2 * text.length + 1) text.toList
  if (skip rest).isEmpty then return value else .error .malformed

end DeskCalculator.Json
