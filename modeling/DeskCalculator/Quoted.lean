namespace DeskCalculator.Quoted

def single : Char := '\x27'

def double : Char := '\x22'

/-- Single quotes, unless the text has one of these and no double quote. -/
def enclosing (cs : List Char) : Char :=
  if cs.contains single && !cs.contains double then double else single

def escape (quote c : Char) : List Char :=
  if c = quote ∨ c = '\\' then ['\\', c]
  else if c = '\t' then ['\\', 't']
  else if c = '\n' then ['\\', 'n']
  else if c = '\r' then ['\\', 'r']
  else if c < ' ' ∨ c = '\x7f' then
    ['\\', 'x', Nat.digitChar (c.toNat / 16), Nat.digitChar (c.toNat % 16)]
  else [c]

def quote (text : String) : String :=
  let q := enclosing text.toList
  String.ofList (q :: text.toList.flatMap (escape q) ++ [q])

end DeskCalculator.Quoted
