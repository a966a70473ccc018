import DeskCalculator.Evaluation

namespace DeskCalculator

def configFile : String := "config.json"

def readConfig : IO (Option String) := do
  try
    return some (← IO.FS.readFile configFile)
  catch _ =>
    return none

/-- A line without the line break at its end. -/
def chomp (line : String) : String :=
  if line.toList.getLast? = some '\n' then String.ofList line.toList.dropLast else line

end DeskCalculator

open DeskCalculator in
def main : IO UInt32 := do
  IO.println prompt
  let line ← (← IO.getStdin).getLine
  match Settings.ofFile (← readConfig) with
  | .ok settings =>
    IO.print (respond settings (chomp line))
    return 0
  | .error _ =>
    IO.eprintln ("The settings in " ++ configFile ++ " are not an object.")
    return 1
