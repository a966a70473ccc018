import DeskCalculator.NamedFunction
import DeskCalculator.Token

namespace DeskCalculator

/-- Parentheses leave no trace, and a minus sign in front of a literal is part of the number. -/
inductive Expr where
  | number (value : Decimal)
  | factorial (operand : Expr)
  | call (name : String) (argument : Expr)
  | binary (op : Operator) (left right : Expr)
deriving DecidableEq, Repr

namespace Expr

/-- What holds of the tokens of an expression, parentheses left aside. -/
def All (P : Token → Prop) : Expr → Prop
  | .number x => P (.number x)
  | .factorial e => P .factorial ∧ e.All P
  | .call name e => P (.function name) ∧ e.All P
  | .binary op l r => P (.operator op) ∧ l.All P ∧ r.All P

/-- The nodes that an expression takes up. -/
def count : Expr → Nat
  | .number _ => 1
  | .factorial e => e.count + 1
  | .call _ e => e.count + 1
  | .binary _ l r => l.count + r.count + 1

/-- The value of an expression, its operands first, the left one before the right one. -/
def eval (limits : Limits) : Expr → Except Fault Decimal
  | .number x => .ok x
  | .factorial e => e.eval limits >>= Decimal.factorial
  | .call name e => e.eval limits >>= NamedFunction.call limits name
  | .binary op l r => l.eval limits >>= fun x => r.eval limits >>= fun y => op.apply x y

end Expr

end DeskCalculator
