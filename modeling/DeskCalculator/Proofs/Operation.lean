import DeskCalculator.Proofs.Decimal.Literal
import DeskCalculator.Proofs.NamedFunction
import DeskCalculator.Token
import Mathlib.Data.List.Forall2

namespace DeskCalculator

open Decimal (WellFormed)
open Outcome (OfArithmetic OfText Yields)

variable {x y : Decimal}

theorem Operator.apply_yields (op : Operator) (hx : x.WellFormed) (hy : y.WellFormed) :
    Yields OfArithmetic WellFormed (op.apply x y) := by
  cases op with
  | add => exact Decimal.add_yields trivial hx hy
  | sub => exact Decimal.sub_yields trivial hx hy
  | mul => exact Decimal.mul_yields trivial hx hy
  | div => exact Decimal.div_yields trivial trivial hx hy
  | mod => exact Decimal.mod_yields trivial hx hy

namespace Operation

/-- Where a number comes from that is not made out of others. -/
inductive Source where
  | zero
  | parse (text : String)
  | ofInt (n : Int)
  | ofDigits (negative : Bool) (digits : Vector (Fin 10) Digits.width)
  | ofNibbles (nibbles : List (Fin 16))

def Source.apply : Source → Except Fault Decimal
  | zero => .ok Decimal.zero
  | parse text => Decimal.parse text
  | ofInt n => Decimal.ofInt n
  | ofDigits negative digits => Decimal.build negative (digits.toList.map Fin.val)
  | ofNibbles nibbles => Decimal.ofNibbles (nibbles.map Fin.val)

inductive Unary where
  | negate
  | factorial
  | function (f : NamedFunction) (limits : Limits)

def Unary.apply (x : Decimal) : Unary → Except Fault Decimal
  | negate => .ok x.negate
  | factorial => x.factorial
  | function f limits => f.apply limits x

inductive Binary where
  | operator (op : Operator)
  | bitAnd
  | addMagnitude
  | subMagnitude
  | mulMagnitude

def Binary.apply (x y : Decimal) : Binary → Except Fault Decimal
  | operator op => op.apply x y
  | bitAnd => x.bitAnd y
  | addMagnitude => x.addMagnitude y
  | subMagnitude => .ok (x.subMagnitude y)
  | mulMagnitude => x.mulMagnitude y

theorem Source.apply_yields (source : Source) : Yields OfText WellFormed source.apply := by
  cases source with
  | zero => exact Decimal.zero_wellFormed
  | parse text => exact Decimal.parse_yields text
  | ofInt n => exact Decimal.ofInt_yields trivial n
  | ofDigits negative digits =>
    refine Decimal.build_yields negative ?_ ?_
    · rw [List.length_map, Vector.length_toList]
    · intro d hd
      obtain ⟨digit, _, rfl⟩ := List.mem_map.mp hd
      exact digit.isLt
  | ofNibbles nibbles => exact Decimal.ofNibbles_yields trivial _

theorem Unary.apply_yields (op : Unary) (hx : x.WellFormed) :
    Yields OfArithmetic WellFormed (op.apply x) := by
  cases op with
  | negate => exact hx.negate
  | factorial => exact Decimal.factorial_yields trivial hx
  | function f limits => exact f.apply_yields limits hx

theorem Binary.apply_yields (op : Binary) (hx : x.WellFormed) (hy : y.WellFormed) :
    Yields OfArithmetic WellFormed (op.apply x y) := by
  cases op with
  | operator op => exact op.apply_yields hx hy
  | bitAnd => exact Decimal.bitAnd_yields trivial x y
  | addMagnitude => exact Decimal.addMagnitude_yields trivial hx hy
  | subMagnitude => exact Decimal.subMagnitude_wellFormed hx hy
  | mulMagnitude => exact Decimal.mulMagnitude_yields trivial hx hy

/-- An operation with its operands, each told by how many numbers were made before it. -/
inductive Step where
  | source (source : Source)
  | unary (op : Unary) (x : Nat)
  | binary (op : Binary) (x y : Nat)

namespace Step

/-- What a step comes to; nothing where an operand has not been made. -/
def outcome (made : List Decimal) : Step → Option (Except Fault Decimal)
  | source s => some s.apply
  | unary op x => do return op.apply (← made[x]?)
  | binary op x y => do return op.apply (← made[x]?) (← made[y]?)

/-- The numbers that are made once the step is done. -/
def extend (made : List Decimal) (step : Step) : List Decimal :=
  match step.outcome made with
  | some (.ok x) => made ++ [x]
  | _ => made

/-- The faults with which a step fails. -/
def FailsWith : Step → Fault → Prop
  | source _ => OfText
  | unary _ _ | binary _ _ _ => OfArithmetic

/-- A number that comes of the step is well-formed, and a fault is of the step's kind. -/
def Allows (step : Step) (outcome : Option (Except Fault Decimal)) : Prop :=
  ∀ result ∈ outcome, Yields step.FailsWith WellFormed result

variable {made : List Decimal}

theorem allows_outcome (h : ∀ x ∈ made, x.WellFormed) (step : Step) :
    step.Allows (step.outcome made) := by
  cases step with
  | source s => exact Outcome.forall_mem_some s.apply_yields
  | unary op x =>
    rw [outcome]
    cases hx : made[x]? with
    | none => exact Outcome.forall_mem_none _
    | some a => exact Outcome.forall_mem_some (op.apply_yields (h a (List.mem_of_getElem? hx)))
  | binary op x y =>
    rw [outcome]
    cases hx : made[x]? with
    | none => exact Outcome.forall_mem_none _
    | some a =>
      cases hy : made[y]? with
      | none => exact Outcome.forall_mem_none _
      | some b =>
        have ha := h a (List.mem_of_getElem? hx)
        have hb := h b (List.mem_of_getElem? hy)
        exact Outcome.forall_mem_some (op.apply_yields ha hb)

theorem extend_wellFormed (h : ∀ x ∈ made, x.WellFormed) (step : Step) :
    ∀ x ∈ step.extend made, x.WellFormed := by
  unfold extend
  split
  · rename_i x hx
    have hw : x.WellFormed := step.allows_outcome h _ hx
    intro y hy
    rcases List.mem_append.mp hy with hy | hy
    · exact h y hy
    · exact List.mem_singleton.mp hy ▸ hw
  · exact h

end Step

/-- What the steps come to, one after another. -/
def run : List Decimal → List Step → List (Option (Except Fault Decimal))
  | _, [] => []
  | made, step :: steps => step.outcome made :: run (step.extend made) steps

theorem exists_ofDigits (hx : x.WellFormed) :
    ∃ digits, (Source.ofDigits x.negative digits).apply = .ok x := by
  obtain ⟨ds, hds⟩ : ∃ ds : List (Fin 10), ds.map Fin.val = x.digits := by
    refine ⟨x.digits.attach.map fun d => ⟨d.1, hx.digit_lt d.1 d.2⟩, ?_⟩
    rw [List.map_map]
    exact List.attach_map_subtype_val x.digits
  have hlen : ds.toArray.size = Digits.width := by
    rw [List.size_toArray, ← hx.length, ← hds, List.length_map]
  refine ⟨⟨ds.toArray, hlen⟩, ?_⟩
  change Decimal.build x.negative (ds.map Fin.val) = .ok x
  rw [hds, Decimal.build_eq x.negative hx.length hx.digit_lt]
  exact congrArg Except.ok hx.ofUnits_units

/-- Every well-formed number is made by some run, out of its own sign and digits. -/
theorem exists_run_of_wellFormed (hx : x.WellFormed) : ∃ steps, some (.ok x) ∈ run [] steps := by
  obtain ⟨digits, hd⟩ := exists_ofDigits hx
  exact ⟨[.source (.ofDigits x.negative digits)], List.mem_singleton.mpr (congrArg some hd.symm)⟩

/-- A run that begins with well-formed numbers makes no others, and each step that fails does so
with a fault of its kind. -/
theorem run_wellFormed {made : List Decimal} (h : ∀ x ∈ made, x.WellFormed) (steps : List Step) :
    List.Forall₂ Step.Allows steps (run made steps) := by
  induction steps generalizing made with
  | nil => exact .nil
  | cons step steps ih => exact .cons (step.allows_outcome h) (ih (step.extend_wellFormed h))

/-- A run goes on behind a division by zero and behind a root of a negative number; zero stays
without a sign; and there is no number to take from a step that failed. -/
theorem run_wellFormed_failures :
    List.Forall₂ Step.Allows
      [.binary (.operator .div) 0 1, .unary .negate 1, .binary .subMagnitude 1 0,
        .unary (.function .sqrt {}) 3, .unary .factorial 4]
      [some (.error .divideByZero), some (.ok Decimal.zero),
        some (.ok (Decimal.whole 7).negate), some (.error (.negativeRoot "-7")), none] := by
  have hmade : ∀ x ∈ [Decimal.whole 7, Decimal.zero], x.WellFormed := by
    simp only [List.forall_mem_cons]
    exact ⟨Decimal.whole_wellFormed (by decide), Decimal.zero_wellFormed, List.forall_mem_nil _⟩
  exact run_wellFormed hmade
    [.binary (.operator .div) 0 1, .unary .negate 1, .binary .subMagnitude 1 0,
      .unary (.function .sqrt {}) 3, .unary .factorial 4]

end Operation

end DeskCalculator
