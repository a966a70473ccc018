import DeskCalculator.Decimal.Text

namespace DeskCalculator

inductive Operator where
  | add
  | sub
  | mul
  | div
  | mod
deriving DecidableEq, Repr

namespace Operator

def symbol : Operator → Char
  | add => '+'
  | sub => '-'
  | mul => '*'
  | div => '/'
  | mod => '%'

/-- Products bind tighter than sums. -/
def isProduct : Operator → Bool
  | add | sub => false
  | mul | div | mod => true

def apply : Operator → Decimal → Decimal → Except Fault Decimal
  | add => Decimal.add
  | sub => Decimal.sub
  | mul => Decimal.mul
  | div => Decimal.div
  | mod => Decimal.mod

end Operator

inductive Token where
  /-- Stands for an expression with no token at all. -/
  | nothing
  | number (value : Decimal)
  | parenOpen
  | parenClose
  | operator (op : Operator)
  | factorial
  /-- Has the parenthesis that opens its argument in it, though its text is the name alone. -/
  | function (name : String)
deriving DecidableEq, Repr

namespace Token

def text : Token → String
  | nothing => "_"
  | number x => x.text
  | parenOpen => "("
  | parenClose => ")"
  | operator op => op.symbol.toString
  | factorial => "!"
  | function name => name

/-- The tokens of a single character. -/
def ofCharacter? : Char → Option Token
  | '(' => some parenOpen
  | ')' => some parenClose
  | '+' => some (operator .add)
  | '-' => some (operator .sub)
  | '*' => some (operator .mul)
  | '/' => some (operator .div)
  | '%' => some (operator .mod)
  | '!' => some factorial
  | _ => none

end Token

end DeskCalculator
