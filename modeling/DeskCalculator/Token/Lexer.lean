import DeskCalculator.Blank
import DeskCalculator.Decimal.Literal
import DeskCalculator.Token

namespace DeskCalculator.Token

def isNameLetter (c : Char) : Bool := 'a' ≤ c && c ≤ 'z'

/-- The parenthesis that must follow a function name. -/
def openFunction (name : String) : List Char → Except Fault (Option Token) × List Char
  | '(' :: rest => (.ok (some (function name)), rest)
  | rest => (.error (.missingFunctionParenthesis name), rest)

/-- A function name with its opening parenthesis; nothing where no letter stands. A name that is
too long, or has no parenthesis behind it, has been read all the same. -/
def readFunction (cs : List Char) : Except Fault (Option Token) × List Char :=
  if (cs.takeWhile isNameLetter).isEmpty then (.ok none, cs)
  else if Fault.nameLimit < (cs.takeWhile isNameLetter).length then
    (.error (.functionNameTooLong (String.ofList (cs.takeWhile isNameLetter))),
      cs.dropWhile isNameLetter)
  else openFunction (String.ofList (cs.takeWhile isNameLetter)) (cs.dropWhile isNameLetter)

def readNumber (cs : List Char) : Except Fault (Option Token) × List Char :=
  let (value, rest) := Decimal.readLiteral cs
  (value.map fun x => some (number x), rest)

/-- The first token of a text that begins `position` characters into the whole. -/
def next (position : Nat) : List Char → Except Fault (Option Token) × List Char
  | [] => (.ok none, [])
  | c :: cs =>
    if c.isDigit then readNumber (c :: cs)
    else if isNameLetter c then readFunction (c :: cs)
    else
      match ofCharacter? c with
      | some token => (.ok (some token), cs)
      | none =>
        if Blank.isBlank c then next (position + 1) cs
        else (.error (.badCharacterAt c position), cs)

theorem length_readFunction_lt {cs rest : List Char} {token : Token}
    (h : readFunction cs = (.ok (some token), rest)) : rest.length < cs.length := by
  unfold readFunction at h
  have drop := (List.dropWhile_sublist isNameLetter (l := cs)).length_le
  split at h
  · simp at h
  · split at h
    · simp at h
    · unfold openFunction at h
      split at h
      · rename_i tail he
        simp only [Prod.mk.injEq] at h
        rw [he, List.length_cons] at drop
        rw [← h.2]
        exact drop
      · simp at h

/-- A token takes up at least one character. -/
theorem length_next_lt {position : Nat} {cs rest : List Char} {token : Token}
    (h : next position cs = (.ok (some token), rest)) : rest.length < cs.length := by
  induction cs generalizing position with
  | nil => simp [next] at h
  | cons c cs ih =>
    unfold next at h
    split at h
    · unfold readNumber at h
      cases hl : Decimal.readLiteral (c :: cs) with
      | mk value tail =>
        cases value with
        | error fault => simp [hl, Except.map] at h
        | ok x =>
          simp only [hl, Prod.mk.injEq] at h
          rw [← h.2]
          exact Decimal.length_readLiteral_lt hl
    · split at h
      · exact length_readFunction_lt h
      · split at h
        · simp only [Prod.mk.injEq] at h
          simp [← h.2]
        · split at h
          · exact Nat.lt_succ_of_lt (ih h)
          · simp at h

/-- The tokens of a text that begins `position` characters into the whole. -/
def readFrom (position : Nat) (cs : List Char) : Except Fault (List Token) :=
  match _read : next position cs with
  | (.error fault, _) => .error fault
  | (.ok none, _) => .ok []
  | (.ok (some token), rest) =>
    (readFrom (position + (cs.length - rest.length)) rest).map (token :: ·)
termination_by cs.length
decreasing_by exact length_next_lt _read

def tokenize (text : String) : Except Fault (List Token) := readFrom 0 text.toList

end DeskCalculator.Token
