import DeskCalculator.Arena
import DeskCalculator.Cursor

namespace DeskCalculator

/-- How far the tokens were read, and the nodes that were made of them. -/
structure Parser where
  tokens : Cursor Token
  arena : Arena := {}

namespace Parser

/-- Reads a phrase of the grammar, and answers with the place of its node:

    expression := term { ("+" | "-") term }
    term       := factor { ("*" | "/" | "%") factor }
    factor     := subfactor [ "!" ]
    subfactor  := [ "-" ] number | "(" expression ")" | function expression ")" -/
abbrev Rule := Parser → Except Fault (Nat × Parser)

def next (parser : Parser) : Option Token × Parser :=
  let (token, tokens) := parser.tokens.next
  (token, { parser with tokens })

def push (parser : Parser) (node : Node) : Nat × Parser :=
  let (arena, place) := parser.arena.push node
  (place, { parser with arena })

/-- An operand is missing behind the token that was read last. -/
def missingOperand (parser : Parser) : Fault :=
  .missingOperand (parser.tokens.last.map Token.text)

/-- Reads the parenthesis that ends what `opening` began. -/
def close (opening : Token) (parser : Parser) : Except Fault Parser :=
  match parser.next with
  | (none, _) => .error (.missingClosingParenthesis opening.text)
  | (some .parenClose, parser) => .ok parser
  | (some token, _) => .error (.closingExpected token.text)

/-- A minus sign is part of a number right behind it. -/
def negated : Rule := fun parser =>
  match parser.next with
  | (none, parser) => .error parser.missingOperand
  | (some (.number x), parser) => .ok (parser.push (.leaf (.number x.negate)))
  | (some token, _) => .error (.numberExpected token.text)

def subfactor (expression : Rule) : Rule := fun parser =>
  match parser.next with
  | (none, parser) => .error parser.missingOperand
  | (some (.operator .sub), parser) => negated parser
  | (some (.number x), parser) => .ok (parser.push (.leaf (.number x)))
  | (some .parenOpen, parser) => do
    let (inside, parser) ← expression parser
    let parser ← parser.close .parenOpen
    return (inside, parser)
  | (some (.function name), parser) => do
    let (argument, parser) ← expression parser
    let parser ← parser.close (.function name)
    return parser.push (.unary (.function name) argument)
  | (some token, _) => .error (.unexpectedToken token.text)

def factor (expression : Rule) : Rule := fun parser => do
  let (operand, parser) ← subfactor expression parser
  if parser.tokens.peek = some .factorial then
    return parser.next.2.push (.unary .factorial operand)
  else
    return (operand, parser)

/-- Goes on from a left operand as long as an operator follows that `joins` has; there are no more
`rounds` than tokens. -/
def chain (operand : Rule) (joins : Operator → Bool) : Nat → Nat → Rule
  | 0, left => fun parser => .ok (left, parser)
  | rounds + 1, left => fun parser =>
    match parser.tokens.peek with
    | some (.operator op) =>
      if joins op then do
        let (right, parser) ← operand parser.next.2
        let (both, parser) := parser.push (.dual (.operator op) left right)
        chain operand joins rounds both parser
      else .ok (left, parser)
    | _ => .ok (left, parser)

/-- Operands with operators between them, from left to right. -/
def joined (operand : Rule) (joins : Operator → Bool) : Rule := fun parser => do
  let (left, parser) ← operand parser
  chain operand joins parser.tokens.rest.length left parser

def term (expression : Rule) : Rule := joined (factor expression) Operator.isProduct

/-- Groups lie within each other at most `depth` deep, for which the number of tokens is a bound. -/
def expression : Nat → Rule
  | 0 => fun _ => .error (.unexpected "groups lie too deep within each other")
  | depth + 1 => joined (term (expression depth)) fun op => !op.isProduct

end Parser

/-- The tree of all tokens; where there is none, a single leaf for nothing. -/
def Tree.ofTokens (tokens : List Token) : Except Fault Tree :=
  let parser : Parser := { tokens := { items := tokens } }
  if tokens.isEmpty then
    let (root, parser) := parser.push (.leaf .nothing)
    .ok ⟨parser.arena, root⟩
  else do
    let (root, parser) ← Parser.expression (tokens.length + 1) parser
    match parser.tokens.peek with
    | some token => .error (.unexpectedToken token.text)
    | none => .ok ⟨parser.arena, root⟩

end DeskCalculator
