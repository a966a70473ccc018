namespace DeskCalculator

/-- The members of an object keep the order in which their keys first came. -/
inductive Json where
  | null
  | bool (value : Bool)
  | int (value : Int)
  /-- A number with a fraction or an exponent, as it was written. -/
  | real (literal : String)
  | str (value : String)
  | arr (items : List Json)
  | obj (members : List (String × Json))
deriving Inhabited

namespace Json

/-- The most digits that a whole number may have where it is read from text or written as text. -/
def digitLimit : Nat := 4300

/-- The members of an object. -/
abbrev Members := List (String × Json)

namespace Members

def get? (members : Members) (key : String) : Option Json := members.lookup key

/-- A key that is there already keeps its place. -/
def insert (members : Members) (key : String) (value : Json) : Members :=
  match members with
  | [] => [(key, value)]
  | (k, v) :: rest => if k = key then (key, value) :: rest else (k, v) :: insert rest key value

def update (members : Members) (changes : List (String × Json)) : Members :=
  changes.foldl (fun members (key, value) => members.insert key value) members

/-- Of pairs with one key the last counts. -/
def ofList (pairs : List (String × Json)) : Members := update [] pairs

end Members

/-- A truth value counts as zero or one. -/
def int? : Json → Option Int
  | int n => some n
  | bool b => some (if b then 1 else 0)
  | _ => none

end Json

end DeskCalculator
