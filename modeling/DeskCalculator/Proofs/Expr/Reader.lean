import DeskCalculator.Proofs.Expr

namespace DeskCalculator.Expr

/-- What a closing parenthesis is awaited for. -/
inductive Opening where
  | parenthesis
  | function (name : String)
deriving DecidableEq, Repr

namespace Opening

def token : Opening → Token
  | parenthesis => .parenOpen
  | function name => .function name

def wrap (e : Expr) : Opening → Expr
  | parenthesis => e
  | function name => .call name e

end Opening

/-- Left operands, with their operators, that wait for a right operand. -/
structure Pending where
  sum : Option (Expr × Operator) := none
  product : Option (Expr × Operator) := none
deriving DecidableEq, Repr

namespace Pending

def join (e : Expr) : Option (Expr × Operator) → Expr
  | none => e
  | some (left, op) => .binary op left e

/-- The term that a factor completes. -/
def term (pending : Pending) (e : Expr) : Expr := join e pending.product

/-- The expression that a factor completes. -/
def expression (pending : Pending) (e : Expr) : Expr := join (pending.term e) pending.sum

/-- What waits once an operator has followed a factor. -/
def push (pending : Pending) (e : Expr) (op : Operator) : Pending :=
  if op.isProduct then { pending with product := some (pending.term e, op) }
  else ⟨some (pending.expression e, op), none⟩

end Pending

/-- What the last token left to expect. -/
inductive Stage where
  /-- A subfactor has to follow. -/
  | operand
  /-- A number has to follow a minus sign. -/
  | negated
  /-- A factor is complete; it may still take a `!` while it is `bare`. -/
  | factor (e : Expr) (bare : Bool)
deriving DecidableEq, Repr

/-- What has been understood of the tokens of an expression, from left to right. -/
structure Reading where
  stage : Stage := .operand
  pending : Pending := {}
  /-- The open groups, the innermost first, with what waits around each. -/
  groups : List (Opening × Pending) := []
deriving DecidableEq, Repr

namespace Reading

def enter (reading : Reading) (opening : Opening) : Reading :=
  ⟨.operand, {}, (opening, reading.pending) :: reading.groups⟩

/-- A token where a subfactor has to begin. -/
def operand (reading : Reading) : Token → Except Fault Reading
  | .number x => .ok { reading with stage := .factor (.number x) true }
  | .operator .sub => .ok { reading with stage := .negated }
  | .parenOpen => .ok (reading.enter .parenthesis)
  | .function name => .ok (reading.enter (.function name))
  | token => .error (.unexpectedToken token.text)

/-- A token behind a minus sign. -/
def negated (reading : Reading) : Token → Except Fault Reading
  | .number x => .ok { reading with stage := .factor (.number x.negate) true }
  | token => .error (.numberExpected token.text)

/-- A token that cannot follow a factor; within a group only its end was left to expect. -/
def refuse (reading : Reading) (token : Token) : Fault :=
  if reading.groups.isEmpty then .unexpectedToken token.text else .closingExpected token.text

/-- A token behind a factor. -/
def after (reading : Reading) (e : Expr) (bare : Bool) : Token → Except Fault Reading
  | .factorial =>
    if bare then .ok { reading with stage := .factor (.factorial e) false }
    else .error (reading.refuse .factorial)
  | .operator op => .ok { reading with stage := .operand, pending := reading.pending.push e op }
  | .parenClose =>
    match reading.groups with
    | [] => .error (reading.refuse .parenClose)
    | (opening, outer) :: groups =>
      .ok ⟨.factor (opening.wrap (reading.pending.expression e)) true, outer, groups⟩
  | token => .error (reading.refuse token)

/-- Refuses the first token that no expression can go on with. -/
def step (reading : Reading) (token : Token) : Except Fault Reading :=
  match reading.stage with
  | .operand => reading.operand token
  | .negated => reading.negated token
  | .factor e bare => reading.after e bare token

/-- The expression, if one may end here, behind the token `last`. -/
def finish (reading : Reading) (last : Token) : Except Fault Expr :=
  match reading.stage, reading.groups with
  | .factor e _, [] => .ok (reading.pending.expression e)
  | .factor _ _, (opening, _) :: _ => .error (.missingClosingParenthesis opening.token.text)
  | _, _ => .error (.missingOperand (some last.text))

end Reading

/-- The expression that tokens spell, of which there has to be at least one. -/
def ofTokens (tokens : List Token) : Except Fault Expr := do
  let reading ← tokens.foldlM Reading.step {}
  reading.finish (tokens.getLast?.getD .nothing)

end DeskCalculator.Expr
