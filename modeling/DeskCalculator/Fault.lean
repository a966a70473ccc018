namespace DeskCalculator

/-- The stage that refused: reading the expression, computing its value, or neither. -/
inductive Fault.Family where
  | reading
  | computing
  | general
deriving DecidableEq, Repr

/-- The first three kinds stand for a whole family. -/
inductive Fault.Kind where
  | general
  | reading
  | computing
  | noInput
  | badCharacter
  | integerPartOverflow
  | fractionalPartOverflow
  | badRadixMarker
  | functionNameTooLong
  | missingFunctionParenthesis
  | inputTooLong
  | missingOperand
  | missingClosingParenthesis
  | unexpectedToken
  | divideByZero
  | overflow
  | unknownFunction
  | domain
deriving DecidableEq, Repr

/-- What went wrong, with what its text needs. -/
inductive Fault where
  | noInput
  | badCharacter (character : Char)
  | badCharacterAt (character : Char) (position : Nat)
  | doubleSeparator
  | integerPartOverflow
  | fractionalPartOverflow
  | badRadixMarker (marker : Char)
  | functionNameTooLong (name : String)
  | missingFunctionParenthesis (name : String)
  | inputTooLong (length : Nat) (limit : Int)
  /-- Behind a token, or where the expression has to begin. -/
  | missingOperand (after : Option String)
  | missingClosingParenthesis (opening : String)
  | unexpectedToken (token : String)
  | closingExpected (token : String)
  | numberExpected (token : String)
  | divideByZero
  | overflow
  | unknownFunction (name : String)
  | negativeRoot (argument : String)
  | unknownUnaryOperator (token : String)
  | unknownOperator (token : String)
  | unexpected (text : String)
deriving DecidableEq, Repr

namespace Fault

/-- The number of letters that a function name may have. -/
def nameLimit : Nat := 16

def Kind.family : Kind → Family
  | .general => .general
  | .computing | .divideByZero | .overflow | .unknownFunction | .domain => .computing
  | _ => .reading

/-- The first digit names the area, the second the stage (1 for tokens, 2 for the grammar, 0 for
arithmetic), the last two the fault. -/
def Kind.code : Kind → String
  | .general | .reading | .computing => "9999"
  | .noInput => "3100"
  | .badCharacter => "3101"
  | .integerPartOverflow => "3102"
  | .fractionalPartOverflow => "3103"
  | .badRadixMarker => "3104"
  | .functionNameTooLong => "3105"
  | .missingFunctionParenthesis => "3106"
  | .inputTooLong => "3107"
  | .missingOperand => "3200"
  | .missingClosingParenthesis => "3201"
  | .unexpectedToken => "3202"
  | .divideByZero => "3003"
  | .overflow => "3026"
  | .unknownFunction => "2004"
  | .domain => "2005"

/-- The text of the kinds whose text never varies. -/
def Kind.text? : Kind → Option String
  | .noInput => some "No number found."
  | .integerPartOverflow => some "Too many digits."
  | .fractionalPartOverflow => some "Too many decimals."
  | .divideByZero => some "Division by zero"
  | .overflow => some "Number too big."
  | _ => none

def kind : Fault → Kind
  | noInput => .noInput
  | badCharacter _ | badCharacterAt _ _ | doubleSeparator => .badCharacter
  | integerPartOverflow => .integerPartOverflow
  | fractionalPartOverflow => .fractionalPartOverflow
  | badRadixMarker _ => .badRadixMarker
  | functionNameTooLong _ => .functionNameTooLong
  | missingFunctionParenthesis _ => .missingFunctionParenthesis
  | inputTooLong _ _ => .inputTooLong
  | missingOperand _ => .missingOperand
  | missingClosingParenthesis _ => .missingClosingParenthesis
  | unexpectedToken _ | closingExpected _ | numberExpected _ => .unexpectedToken
  | divideByZero => .divideByZero
  | overflow => .overflow
  | unknownFunction _ => .unknownFunction
  | negativeRoot _ => .domain
  | unknownUnaryOperator _ | unknownOperator _ => .computing
  | unexpected _ => .general

def message : Fault → String
  | noInput => "No number found."
  | badCharacter c => s!"Bad character: '{c}'"
  | badCharacterAt c position => s!"Bad character: '{c}' at position {position}"
  | doubleSeparator => "Bad character: '_' (double separator)"
  | integerPartOverflow => "Too many digits."
  | fractionalPartOverflow => "Too many decimals."
  | badRadixMarker c => s!"Bad radix marker: '{c}'"
  | functionNameTooLong name =>
    "Function name too long: '" ++ String.ofList (name.toList.take nameLimit) ++ "...'"
  | missingFunctionParenthesis name => s!"Missing '(' after function: '{name}'"
  | inputTooLong length limit => s!"Input too long: {length} characters (max {limit})"
  | missingOperand (some after) => s!"Missing operand after: '{after}'"
  | missingOperand none => "Missing operand after: start of input"
  | missingClosingParenthesis opening => s!"Missing ')' to close '{opening}'"
  | unexpectedToken token => s!"Unexpected Token: '{token}'"
  | closingExpected token => s!"Unexpected Token: '{token}' (expected ')')"
  | numberExpected token => s!"Unexpected Token: '{token}' (expected a number after '-')"
  | divideByZero => "Division by zero"
  | overflow => "Number too big."
  | unknownFunction name => s!"Unknown function: '{name}'"
  | negativeRoot argument => s!"Square root of a negative number: {argument}"
  | unknownUnaryOperator token => s!"Unknown unary operator: {token}"
  | unknownOperator token => s!"Unknown operator: {token}"
  | unexpected text => s!"Unexpected Error: {text}"

/-- A fault found `distance` characters further on in a longer text. -/
def shift (distance : Nat) : Fault → Fault
  | badCharacterAt c position => .badCharacterAt c (position + distance)
  | fault => fault

end Fault

/-- A fault as it is shown, with the expression it came from where that is known. -/
structure Report where
  kind : Fault.Kind
  message : String
  code : String
  equation : Option String
deriving DecidableEq, Repr

namespace Report

/-- A report on a kind of fault; without a text only where the kind has one of its own. -/
def ofKind? (kind : Fault.Kind) (message code equation : Option String) : Option Report :=
  match message <|> kind.text? with
  | none => none
  | some text => some ⟨kind, text, code.getD kind.code, equation⟩

def describe (report : Report) : String :=
  s!"Error {report.code}: {report.message}"

/-- The part of the calculator that a code points to, by its first digit. -/
def area? (code : String) : Option String :=
  match code.toList.head? with
  | some '2' => some "Scientific Calculation Error"
  | some '3' => some "Calculator Error"
  | some '9' => some "Runtime Error"
  | _ => none

/-- The general text of a code; what the fault is about may follow it. -/
def catalogue : List (String × String) :=
  [("2004", "Unknown function: "),
   ("2005", "Argument outside the function domain: "),
   ("3003", "Division by zero"),
   ("3026", "Number too big."),
   ("3100", "No number found."),
   ("3101", "Bad character: "),
   ("3102", "Too many digits."),
   ("3103", "Too many decimals."),
   ("3104", "Bad radix marker: "),
   ("3105", "Function name too long: "),
   ("3106", "Missing '(' after function: "),
   ("3107", "Input too long."),
   ("3200", "Missing operand after: "),
   ("3201", "Missing ')'. "),
   ("3202", "Unexpected Token: "),
   ("9999", "Unexpected Error: ")]

def known? (code : String) : Option String :=
  catalogue.lookup code

end Report

def Fault.report (fault : Fault) (equation : Option String) : Report :=
  ⟨fault.kind, fault.message, fault.kind.code, equation⟩

end DeskCalculator
