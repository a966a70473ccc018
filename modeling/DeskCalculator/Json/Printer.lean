import DeskCalculator.Json

namespace DeskCalculator.Json

def hexUnit (n : Nat) : List Char :=
  [n / 4096, n / 256 % 16, n / 16 % 16, n % 16].map Nat.digitChar

/-- An escape of one unit of sixteen bits. -/
def escapeUnit (n : Nat) : List Char := '\\' :: 'u' :: hexUnit n

/-- Nothing but printable ASCII stands for itself; characters beyond U+FFFF take two surrogates. -/
def escape (c : Char) : List Char :=
  if c = '\x22' then ['\\', '\x22']
  else if c = '\\' then ['\\', '\\']
  else if c = '\n' then ['\\', 'n']
  else if c = '\r' then ['\\', 'r']
  else if c = '\t' then ['\\', 't']
  else if c = '\x08' then ['\\', 'b']
  else if c = '\x0c' then ['\\', 'f']
  else if ' ' ≤ c ∧ c ≤ '~' then [c]
  else if c.toNat < 0x10000 then escapeUnit c.toNat
  else
    escapeUnit (0xD800 + (c.toNat - 0x10000) / 0x400) ++
      escapeUnit (0xDC00 + (c.toNat - 0x10000) % 0x400)

def printString (s : String) : List Char :=
  '\x22' :: s.toList.flatMap escape ++ ['\x22']

def newline (depth : Nat) : List Char := '\n' :: List.replicate (4 * depth) ' '

mutual

/-- The text of a value that begins at the given depth. -/
def printAt (depth : Nat) : Json → List Char
  | null => "null".toList
  | bool true => "true".toList
  | bool false => "false".toList
  | int n => (toString n).toList
  | real literal => literal.toList
  | str s => printString s
  | arr [] => ['[', ']']
  | arr (item :: items) =>
    '[' :: newline (depth + 1) ++ printAt (depth + 1) item ++ printItems (depth + 1) items
      ++ newline depth ++ [']']
  | obj [] => ['\x7b', '\x7d']
  | obj ((key, value) :: members) =>
    '\x7b' :: newline (depth + 1) ++ printString key ++ [':', ' '] ++ printAt (depth + 1) value
      ++ printMembers (depth + 1) members ++ newline depth ++ ['\x7d']

/-- The items behind the first one. -/
def printItems (depth : Nat) : List Json → List Char
  | [] => []
  | item :: items => ',' :: newline depth ++ printAt depth item ++ printItems depth items

/-- The members behind the first one. -/
def printMembers (depth : Nat) : List (String × Json) → List Char
  | [] => []
  | (key, value) :: members =>
    ',' :: newline depth ++ printString key ++ [':', ' '] ++ printAt depth value
      ++ printMembers depth members

end

mutual

/-- Whether every whole number keeps to `digitLimit`. -/
def isPrintable : Json → Bool
  | int n => (toString n.natAbs).length ≤ digitLimit
  | arr items => arePrintable items
  | obj members => havePrintable members
  | _ => true

def arePrintable : List Json → Bool
  | [] => true
  | item :: items => isPrintable item && arePrintable items

def havePrintable : List (String × Json) → Bool
  | [] => true
  | (_, value) :: members => isPrintable value && havePrintable members

end

/-- One member or item a line, set in by four blanks a level. -/
def print (value : Json) : String := String.ofList (printAt 0 value)

end DeskCalculator.Json
