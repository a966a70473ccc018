import DeskCalculator.Inspect
import DeskCalculator.Main
import DeskCalculator.Proofs.Arena.ForwardPass
import DeskCalculator.Proofs.Arena.Postorder
import DeskCalculator.Proofs.Decimal.Bitwise
import DeskCalculator.Proofs.Decimal.Factorial.Rounds
import DeskCalculator.Proofs.Decimal.Hexadecimal
import DeskCalculator.Proofs.Decimal.Literal.Reading
import DeskCalculator.Proofs.Decimal.Literal.Separators
import DeskCalculator.Proofs.Decimal.Multiple
import DeskCalculator.Proofs.Decimal.Order
import DeskCalculator.Proofs.Decimal.Remainder
import DeskCalculator.Proofs.Decimal.Sum
import DeskCalculator.Proofs.Decimal.Truncation
import DeskCalculator.Proofs.Evaluation.Integers
import DeskCalculator.Proofs.Grammar.Refusal
import DeskCalculator.Proofs.Grammar.Substitution
import DeskCalculator.Proofs.NamedFunction.Cosine.Accuracy
import DeskCalculator.Proofs.NamedFunction.SquareRoot
import DeskCalculator.Proofs.NamedFunction.Stopping
import DeskCalculator.Proofs.Operation
import DeskCalculator.Proofs.Parser
import DeskCalculator.Proofs.Parser.Reading
import DeskCalculator.Proofs.Settings
import DeskCalculator.Proofs.Settings.Loading
import DeskCalculator.Proofs.Token.Cover
import DeskCalculator.Proofs.Token.Separation
import DeskCalculator.Proofs.Token.Spelling
