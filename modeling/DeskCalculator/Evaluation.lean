import DeskCalculator.Parser
import DeskCalculator.Settings
import DeskCalculator.Token.Lexer

namespace DeskCalculator

structure Evaluation where
  problem : String
  placeholder : Json
  outcome : Except Fault Decimal
  printed : String

namespace Evaluation

def tokenLine (tokens : List Token) : String :=
  "Tokens: " ++ " ".intercalate (tokens.map fun token => "[" ++ token.text ++ "]") ++ "\n"

def treeLines (tree : Tree) : String := "Final tree:\n" ++ tree.dump ++ "\n"

/-- A number that is to be shown; a digit or nibble without a character is no fault of the
input. -/
def shown (x : Decimal) : Except Fault Decimal :=
  if x.isPrintable then .ok x else .error (.unexpected "string index out of range")

/-- The fault of a text beyond the limit. It names the limit, so that a limit with too many digits
to be written is a fault of its own. -/
def tooLong (length : Nat) (limit : Int) : Fault :=
  if Json.isPrintable (.int limit) then .inputTooLong length limit
  else
    .unexpected (s!"Exceeds the limit ({Json.digitLimit} digits) for integer string conversion; "
      ++ "use sys.set_int_max_str_digits() to increase the limit")

/-- Outcome and printed text, with `build` to make a tree of the tokens. What was printed before a
fault stays printed. -/
def run (build : List Token → Except Fault Tree) (settings : Settings) (problem : String) :
    Except Fault Decimal × String :=
  let note (text : String) := if settings.debug then text else ""
  if settings.maxInputLength < problem.length then
    (.error (tooLong problem.length settings.maxInputLength), "")
  else
    match Token.tokenize problem with
    | .error fault => (.error fault, "")
    | .ok tokens =>
      match build tokens with
      | .error fault => (.error fault, note (tokenLine tokens))
      | .ok tree =>
        (tree.eval settings.limits >>= shown, note (tokenLine tokens ++ treeLines tree))

def ofBuild (build : List Token → Except Fault Tree) (settings : Settings) (problem : String) :
    Evaluation :=
  let (outcome, printed) := run build settings problem
  ⟨problem, settings.placeholder, outcome, printed⟩

def succeeded (evaluation : Evaluation) : Bool :=
  match evaluation.outcome with
  | .ok _ => true
  | .error _ => false

def decimalResult (evaluation : Evaluation) : Json :=
  match evaluation.outcome with
  | .ok x => .str x.text
  | .error _ => evaluation.placeholder

def hexResult (evaluation : Evaluation) : Json :=
  match evaluation.outcome with
  | .ok x => .str x.hexText
  | .error _ => evaluation.placeholder

def report? (evaluation : Evaluation) : Option Report :=
  match evaluation.outcome with
  | .ok _ => none
  | .error fault => some (fault.report evaluation.problem)

/-- Empty where there is no fault. -/
def errorMessage (evaluation : Evaluation) : String :=
  match evaluation.report? with
  | none => ""
  | some report => report.describe

/-- The result with an equals sign, or the report of what went wrong. -/
def answer (evaluation : Evaluation) : Except Report String :=
  match evaluation.outcome with
  | .ok x => .ok ("= " ++ x.text)
  | .error fault => .error (fault.report evaluation.problem)

end Evaluation

def evaluate (settings : Settings) (problem : String) : Evaluation :=
  Evaluation.ofBuild Tree.ofTokens settings problem

def prompt : String := "Enter the problem: "

/-- What is printed for a line that was entered: tokens, tree, and the result in both bases. -/
def respond (settings : Settings) (line : String) : String :=
  let evaluation := evaluate { settings with debug := true } line
  let result :=
    match evaluation.outcome with
    | .ok x => "= " ++ x.text ++ "  (" ++ x.hexText ++ ")"
    | .error _ => evaluation.errorMessage
  evaluation.printed ++ result ++ "\n"

end DeskCalculator
