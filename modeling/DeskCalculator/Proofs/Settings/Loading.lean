import DeskCalculator.Proofs.Settings

namespace DeskCalculator.Settings

open Json (Members)

variable {file : Option String} {text : String} {value : Json}

end DeskCalculator.Settings
