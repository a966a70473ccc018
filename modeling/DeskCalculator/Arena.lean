import DeskCalculator.NamedFunction
import DeskCalculator.Token

namespace DeskCalculator

inductive Node where
  | leaf (token : Token)
  | unary (token : Token) (child : Nat)
  | dual (token : Token) (left right : Nat)
deriving DecidableEq, Repr

namespace Node

def token : Node → Token
  | leaf token | unary token _ | dual token _ _ => token

/-- A single child counts as the left one. -/
def left? : Node → Option Nat
  | leaf _ => none
  | unary _ child => some child
  | dual _ left _ => some left

def right? : Node → Option Nat
  | leaf _ | unary _ _ => none
  | dual _ _ right => some right

/-- The value of a leaf: what is no number counts as zero. -/
def leafValue : Token → Decimal
  | .number x => x
  | _ => Decimal.zero

def applyUnary (limits : Limits) (token : Token) (x : Decimal) : Except Fault Decimal :=
  match token with
  | .factorial => x.factorial
  | .function name => NamedFunction.call limits name x
  | token => .error (.unknownUnaryOperator token.text)

def applyDual (token : Token) (x y : Decimal) : Except Fault Decimal :=
  match token with
  | .operator op => op.apply x y
  | token => .error (.unknownOperator token.text)

end Node

/-- Nodes in a row, which refer to each other by their places. -/
structure Arena where
  nodes : Array Node := #[]
deriving DecidableEq, Repr

namespace Arena

def size (arena : Arena) : Nat := arena.nodes.size

/-- Adds a node at the end; the second part is its place. -/
def push (arena : Arena) (node : Node) : Arena × Nat := (⟨arena.nodes.push node⟩, arena.size)

/-- The value of a node, computed from its children first, the left one before the right one.
`depth` bounds the length of a chain of children. -/
def evalWithin (arena : Arena) (limits : Limits) : Nat → Nat → Except Fault Decimal
  | 0, index => .error (.unexpected s!"node {index} lies too deep")
  | depth + 1, index =>
    match arena.nodes[index]? with
    | none => .error (.unexpected s!"there is no node {index}")
    | some (.leaf token) => .ok (Node.leafValue token)
    | some (.unary token child) => do
      let x ← arena.evalWithin limits depth child
      Node.applyUnary limits token x
    | some (.dual token left right) => do
      let x ← arena.evalWithin limits depth left
      let y ← arena.evalWithin limits depth right
      Node.applyDual token x y

/-- A chain of children that meets no node twice is no longer than the row. -/
def eval (arena : Arena) (limits : Limits) (index : Nat) : Except Fault Decimal :=
  arena.evalWithin limits arena.size index

end Arena

structure Tree where
  arena : Arena
  root : Nat
deriving DecidableEq, Repr

namespace Tree

def eval (tree : Tree) (limits : Limits) : Except Fault Decimal := tree.arena.eval limits tree.root

/-- A number set to the right in three columns. -/
def column (n : Nat) : String :=
  let digits := toString n
  String.ofList (List.replicate (3 - digits.length) ' ') ++ digits

def dumpLine (tree : Tree) (index : Nat) (node : Node) : String :=
  (if index = tree.root then "*" else " ") ++ column index ++ ": " ++ node.token.text
    ++ (match node.left? with | some left => s!"  left={left}" | none => "")
    ++ (match node.right? with | some right => s!"  right={right}" | none => "")

/-- One line a node, with its place, its token and its children; a star marks the root. -/
def dump (tree : Tree) : String :=
  "\n".intercalate (tree.arena.nodes.toList.mapIdx fun index node => tree.dumpLine index node)

end Tree

end DeskCalculator
