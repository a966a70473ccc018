import DeskCalculator.Cursor
import DeskCalculator.Evaluation
import DeskCalculator.Quoted

namespace DeskCalculator

def Decimal.inspect (x : Decimal) : String := "FixedDecimal(" ++ Quoted.quote x.text ++ ")"

def Operator.kindName : Operator → String
  | add => "ADD"
  | sub => "SUB"
  | mul => "MUL"
  | div => "DIV"
  | mod => "MOD"

def Token.kindName : Token → String
  | nothing => "NOTHING"
  | number _ => "NUMBER"
  | parenOpen => "PAREN_OPEN"
  | parenClose => "PAREN_CLOSE"
  | operator op => op.kindName
  | factorial => "FACTORIAL"
  | function _ => "FUNCTION_NAME"

def Token.inspect (token : Token) : String :=
  "Token(" ++ token.kindName ++ ", " ++ Quoted.quote token.text ++ ")"

def Node.inspectChild : Option Nat → String
  | none => "None"
  | some index => toString index

def Node.inspect (node : Node) : String :=
  "Node(" ++ node.token.text ++ ", left=" ++ inspectChild node.left?
    ++ ", right=" ++ inspectChild node.right? ++ ")"

def Tree.inspect (tree : Tree) : String :=
  "Tree(root=" ++ toString tree.root ++ ", nodes=" ++ toString tree.arena.size ++ ")"

def Cursor.inspect (cursor : Cursor Char) : String :=
  "CharStream(" ++ Quoted.quote (String.ofList cursor.items) ++ ", position="
    ++ toString cursor.position ++ ")"

def Evaluation.inspect (evaluation : Evaluation) : String :=
  match evaluation.outcome with
  | .ok x => "Result(" ++ Quoted.quote x.text ++ ", " ++ Quoted.quote x.hexText ++ ")"
  | .error _ => "Result(error=" ++ Quoted.quote evaluation.errorMessage ++ ")"

end DeskCalculator
