import DeskCalculator.Json.Printer
import DeskCalculator.Json.Reader
import DeskCalculator.Json.Truth
import DeskCalculator.NamedFunction

namespace DeskCalculator

structure Settings where
  debug : Bool := false
  maxInputLength : Int := 256
  limits : Limits := {}
  /-- Shown in the place of a result that there is not. -/
  placeholder : Json := .str "-"

namespace Settings

def defaults : Json.Members :=
  [("debug", .bool false),
   ("max_input_length", .int 256),
   ("sqrt_max_iterations", .int 100),
   ("cos_max_terms", .int 40),
   ("placeholder", .str "-")]

/-- The limits among the members of an object. -/
def limitsOf (members : Json.Members) : Limits :=
  let limits : Limits := {}
  { sqrtIterations := ((members.get? "sqrt_max_iterations").bind Json.int?).getD
      limits.sqrtIterations
    cosTerms := ((members.get? "cos_max_terms").bind Json.int?).getD limits.cosTerms }

/-- The settings among the members of an object; a number that is none counts as missing. -/
def ofMembers (members : Json.Members) : Settings :=
  let settings : Settings := {}
  { debug := ((members.get? "debug").map Json.isTrue).getD settings.debug
    maxInputLength := ((members.get? "max_input_length").bind Json.int?).getD
      settings.maxInputLength
    limits := limitsOf members
    placeholder := (members.get? "placeholder").getD settings.placeholder }

/-- The defaults, changed by the members of an object. -/
def complete (members : Json.Members) : Json.Members := Json.Members.update defaults members

/-- The settings that come with a problem, in place of those of the file. -/
def ofArgument (members : Json.Members) : Settings := ofMembers (complete members)

/-- Why a file that holds JSON does not give settings. -/
inductive Refusal where
  /-- The value does not consist of members at all. -/
  | noMembers
  /-- The items of the value are not pairs. -/
  | noPairs
  /-- A whole number has too many digits. -/
  | tooManyDigits
deriving DecidableEq, Repr

/-- Lists and objects are no keys; all else is. -/
def keyOf : Json → Except Refusal Json
  | .arr _ | .obj _ => .error .noMembers
  | key => .ok key

/-- A pair of key and value: a list of two items, an object with two keys, or two characters. -/
def pairOf : Json → Except Refusal (Json × Json)
  | .arr [key, value] => (keyOf key).map fun key => (key, value)
  | .obj [(key, _), (value, _)] => .ok (.str key, .str value)
  | .str s =>
    match s.toList with
    | [key, value] => .ok (.str key.toString, .str value.toString)
    | _ => .error .noPairs
  | .arr _ | .obj _ => .error .noPairs
  | _ => .error .noMembers

/-- The pairs that a value gives: the members of an object, or the items of a list. -/
def pairsOf : Json → Except Refusal (List (Json × Json))
  | .obj members => .ok (members.map fun (key, value) => (.str key, value))
  | .arr items => items.mapM pairOf
  | .str s => if s.isEmpty then .ok [] else .error .noPairs
  | _ => .error .noMembers

/-- The pairs that a file gives; none where there is no file or no JSON in it. -/
def readPairs (file : Option String) : Except Refusal (List (Json × Json)) :=
  match file.map Json.read with
  | none | some (.error .malformed) => .ok []
  | some (.error .tooManyDigits) => .error .tooManyDigits
  | some (.ok value) => pairsOf value

/-- The members among pairs: a key that is no text names no setting. -/
def named (pairs : List (Json × Json)) : List (String × Json) :=
  pairs.filterMap fun (key, value) =>
    match key with
    | .str key => some (key, value)
    | _ => none

/-- All pairs as members, with a key that is no text shown as it is written. -/
def shown (pairs : List (Json × Json)) : List (String × Json) :=
  pairs.map fun (key, value) =>
    match key with
    | .str key => (key, value)
    | key => (key.print, value)

/-- The defaults, changed by what a file holds. -/
def load (file : Option String) : Except Refusal Json.Members := do
  return complete (named (← readPairs file))

def ofFile (file : Option String) : Except Refusal Settings := ofMembers <$> load file

/-- One setting, zero for one that is unknown; the key `all` stands for all of them. -/
def get (file : Option String) (key : String) : Except Refusal Json := do
  let pairs ← readPairs file
  if key = "all" then return .obj (complete (shown pairs))
  else return ((complete (named pairs)).get? key).getD (.int 0)

/-- The text of a file that holds the members of an object. -/
def save (members : Json.Members) : Except Refusal String :=
  if Json.isPrintable (.obj members) then .ok (Json.print (.obj members))
  else .error .tooManyDigits

/-- The text of the file that comes with the calculator. -/
def shipped : String := Json.print (.obj defaults)

end Settings

end DeskCalculator
