import DeskCalculator.Proofs.Decimal.Integers
import DeskCalculator.Proofs.Evaluation

namespace DeskCalculator

open Decimal (attach ofUnits scale)

/-- Integer arithmetic without bounds; division is no part of it. -/
def Operator.integer : Operator → Int → Int → Int
  | add, a, b => a + b
  | sub, a, b => a - b
  | mul, a, b => a * b
  | mod, a, b => attach (decide (b < 0)) (a.natAbs % b.natAbs)
  | div, _, _ => 0

namespace Expr

/-- The integer that an expression stands for, however many digits it has. -/
def integer : Expr → Int
  | .number x => x.units / scale
  | .factorial e => attach (decide (e.integer < 0)) e.integer.natAbs.factorial
  | .call _ _ => 0
  | .binary op l r => op.integer l.integer r.integer

/-- The parts of an expression, left before right and operands before what they are part of. -/
def postorder : Expr → List Expr
  | .number x => [.number x]
  | .factorial e => e.postorder ++ [.factorial e]
  | .call name e => e.postorder ++ [.call name e]
  | .binary op l r => l.postorder ++ r.postorder ++ [.binary op l r]

def isRemainderByZero : Expr → Bool
  | .binary .mod _ r => r.integer == 0
  | _ => false

/-- What is wrong with an expression whose operands are in order. -/
def offence (e : Expr) : Option Fault :=
  if e.isRemainderByZero then some .divideByZero
  else if 10 ^ 20 ≤ e.integer.natAbs then some .overflow
  else none

def firstOffence (e : Expr) : Option Fault := e.postorder.findSome? offence

/-- The integer as a number, or what is wrong. -/
def settle (e : Expr) : Option Fault → Except Fault Decimal
  | none => .ok (ofUnits (scale * e.integer))
  | some fault => .error fault

end Expr

/-- The tokens of integer arithmetic. -/
def Token.IsInteger : Token → Prop
  | number x => (scale : Int) ∣ x.units
  | operator op => op ≠ .div
  | parenOpen | parenClose | factorial => True
  | nothing | function _ => False

namespace Expr

theorem settle_offence {e : Expr} (h : e.isRemainderByZero = false) :
    e.settle e.offence = Decimal.fit (scale * e.integer) := by
  rw [Decimal.fit_integer, offence, h, if_neg Bool.false_ne_true]
  change e.settle (if scale ≤ e.integer.natAbs then some .overflow else none) = _
  split <;> rfl

theorem self_mem_postorder (e : Expr) : e ∈ e.postorder := by
  cases e <;> simp [postorder]

theorem offence_eq_none_iff {e : Expr} :
    e.offence = none ↔ e.isRemainderByZero = false ∧ e.integer.natAbs < 10 ^ 20 := by
  unfold offence
  cases hz : e.isRemainderByZero with
  | true => simp
  | false =>
    rw [if_neg Bool.false_ne_true, ite_eq_right_iff, ← Nat.not_le]
    simp

/-- Nothing is wrong where no part is a remainder by zero or has more than twenty digits. -/
theorem firstOffence_eq_none_iff {e : Expr} :
    e.firstOffence = none ↔
      ∀ part ∈ e.postorder, part.isRemainderByZero = false ∧ part.integer.natAbs < 10 ^ 20 := by
  rw [firstOffence, List.findSome?_eq_none_iff]
  constructor
  · intro h part hp
    exact offence_eq_none_iff.mp (h part hp)
  · intro h part hp
    exact offence_eq_none_iff.mpr (h part hp)

theorem natAbs_integer_lt {e : Expr} (h : e.firstOffence = none) : e.integer.natAbs < scale :=
  (firstOffence_eq_none_iff.mp h e e.self_mem_postorder).2

theorem firstOffence_factorial (e : Expr) :
    (Expr.factorial e).firstOffence = e.firstOffence.or (Expr.factorial e).offence := by
  rw [firstOffence, postorder, List.findSome?_append, firstOffence, List.findSome?_singleton]

theorem firstOffence_binary (op : Operator) (l r : Expr) :
    (Expr.binary op l r).firstOffence =
      (l.firstOffence.or r.firstOffence).or (Expr.binary op l r).offence := by
  rw [firstOffence, postorder, List.findSome?_append, List.findSome?_append, firstOffence,
    firstOffence, List.findSome?_singleton]

/-- An operator between integers gives the integer of its operands, if that is not too big. -/
theorem apply_integers {op : Operator} (hop : op ≠ .div) {l r : Expr}
    (hl : l.integer.natAbs < scale) (hr : r.integer.natAbs < scale) :
    op.apply (ofUnits (scale * l.integer)) (ofUnits (scale * r.integer)) =
      (Expr.binary op l r).settle (Expr.binary op l r).offence := by
  cases op with
  | add =>
    rw [settle_offence rfl]
    exact Decimal.add_integers hl hr
  | sub =>
    rw [settle_offence rfl]
    exact Decimal.sub_integers hl hr
  | mul =>
    rw [settle_offence rfl]
    exact Decimal.mul_integers hl hr
  | div => exact absurd rfl hop
  | mod =>
    by_cases h0 : r.integer = 0
    · have ho : (Expr.binary .mod l r).offence = some .divideByZero := by
        simp [offence, isRemainderByZero, h0]
      rw [ho, h0]
      exact Decimal.mod_integers_zero _
    · have hz : (Expr.binary .mod l r).isRemainderByZero = false := beq_false_of_ne h0
      rw [settle_offence hz]
      exact Decimal.mod_integers hl hr h0

theorem eval_integers (limits : Limits) {e : Expr}
    (h : e.All fun t => t.WellFormed ∧ t.IsInteger) :
    e.eval limits = e.settle e.firstOffence := by
  induction e with
  | number x =>
    obtain ⟨hx, k, hk⟩ := h
    have hs : (scale : Int) ≠ 0 := by decide
    have hi : (Expr.number x).integer = k := by
      rw [integer, hk]
      exact Int.mul_ediv_cancel_left k hs
    have hf : (Expr.number x).firstOffence = (Expr.number x).offence :=
      List.findSome?_singleton
    rw [hf, settle_offence rfl, hi, ← hk, hx.fit_units]
    rfl
  | factorial e ih =>
    obtain ⟨_, he⟩ := h
    rw [firstOffence_factorial, eval, ih he]
    cases hf : e.firstOffence with
    | some fault => rfl
    | none =>
      rw [settle, Outcome.ok_bind, Option.none_or, settle_offence rfl]
      exact Decimal.factorial_integer (natAbs_integer_lt hf)
  | call name e _ => exact absurd h.1.2 id
  | binary op l r ihl ihr =>
    obtain ⟨hop, hl, hr⟩ := h
    rw [firstOffence_binary, eval, ihl hl, ihr hr]
    cases hfl : l.firstOffence with
    | some fault => rfl
    | none =>
      rw [settle, Outcome.ok_bind, Option.none_or]
      cases hfr : r.firstOffence with
      | some fault => rfl
      | none =>
        rw [settle, Outcome.ok_bind, Option.none_or]
        exact apply_integers hop.2 (natAbs_integer_lt hfl) (natAbs_integer_lt hfr)

end Expr

theorem Token.isInteger_negate {x : Decimal} (hx : x.WellFormed)
    (h : (Token.number x).IsInteger) : (Token.number x.negate).IsInteger := by
  change (scale : Int) ∣ x.negate.units
  rw [Decimal.units_negate hx]
  exact Int.dvd_neg.mpr h

namespace Evaluation

/-- A text that is not too long is evaluated by way of its tokens and their tree. -/
theorem outcome_of_tree {settings : Settings} {problem : String} {tokens : List Token} {tree : Tree}
    (hlen : problem.length ≤ settings.maxInputLength)
    (htokens : Token.tokenize problem = .ok tokens) (htree : Tree.ofTokens tokens = .ok tree) :
    (evaluate settings problem).outcome = tree.eval settings.limits >>= shown := by
  change (run Tree.ofTokens settings problem).1 = _
  rw [run_outcome, if_neg (Int.not_lt.mpr hlen), htokens, Outcome.ok_bind, htree, Outcome.ok_bind]

theorem report_of_ok {evaluation : Evaluation} {x : Decimal} (h : evaluation.outcome = .ok x) :
    evaluation.report? = none ∧ evaluation.decimalResult = .str x.text := by
  rw [report?, decimalResult, h]
  exact ⟨rfl, rfl⟩

theorem code_of_offence {e : Expr} {fault : Fault} (h : e.firstOffence = some fault) :
    fault = .divideByZero ∧ fault.kind.code = "3003" ∨
      fault = .overflow ∧ fault.kind.code = "3026" := by
  obtain ⟨part, _, hp⟩ := List.exists_of_findSome?_eq_some h
  unfold Expr.offence at hp
  split at hp
  · cases hp
    exact Or.inl ⟨rfl, rfl⟩
  · split at hp
    · cases hp
      exact Or.inr ⟨rfl, rfl⟩
    · cases hp

/-- A text of integers evaluates to its integer as it is written, or is reported for the first of
its parts that is too big or a remainder by zero. Nothing at all evaluates to zero. -/
theorem evaluate_integers {settings : Settings} {problem : String} {tokens : List Token}
    {tree : Tree} (hlen : problem.length ≤ settings.maxInputLength)
    (htokens : Token.tokenize problem = .ok tokens) (htree : Tree.ofTokens tokens = .ok tree)
    (hint : ∀ t ∈ tokens, t.IsInteger) :
    (tokens = [] ∧ (evaluate settings problem).report? = none ∧
      (evaluate settings problem).decimalResult = .str "0") ∨
    ∃ d : Grammar.Expression, d.spell = tokens ∧
      match d.tree.firstOffence with
      | none =>
        (evaluate settings problem).report? = none ∧
          (evaluate settings problem).decimalResult = .str (toString d.tree.integer)
      | some fault =>
        (evaluate settings problem).report? = some (fault.report problem) ∧
          (fault = .divideByZero ∧ (fault.report problem).code = "3003" ∨
            fault = .overflow ∧ (fault.report problem).code = "3026") := by
  have ho := outcome_of_tree hlen htokens htree
  by_cases hn : tokens = []
  · subst hn
    rw [Tree.ofTokens_nil] at htree
    cases htree
    rw [Tree.eval_nothing, Outcome.ok_bind, shown_eq Decimal.zero_wellFormed] at ho
    have hzero : Decimal.zero.text = "0" := by
      rw [show Decimal.zero = ofUnits (scale * 0) from Decimal.zero_eq]
      exact Decimal.text_integer (by decide)
    have hr := report_of_ok ho
    rw [hzero] at hr
    exact Or.inl ⟨rfl, hr⟩
  · obtain ⟨d, rfl, rfl⟩ := (Tree.ofTokens_ok_iff hn).mp htree
    have hwf := (Token.tokenize_meets problem).of_ok htokens
    have hall : d.tree.All fun t => t.WellFormed ∧ t.IsInteger :=
      d.all_tree (fun x hx => ⟨hx.1.negate, Token.isInteger_negate hx.1 hx.2⟩)
        (fun t ht => ⟨hwf t ht, hint t ht⟩)
    rw [Tree.eval_ofExpr, Expr.eval_integers _ hall] at ho
    refine Or.inr ⟨d, rfl, ?_⟩
    cases hf : d.tree.firstOffence with
    | none =>
      rw [hf, Expr.settle, Outcome.ok_bind, shown_eq (Decimal.wellFormed_ofUnits _)] at ho
      have hr := report_of_ok ho
      rw [Decimal.text_integer (Expr.natAbs_integer_lt hf)] at hr
      exact hr
    | some fault =>
      rw [hf, Expr.settle, Outcome.error_bind] at ho
      refine ⟨?_, code_of_offence hf⟩
      rw [report?, ho]
      rfl

theorem tokenize_remainder :
    Token.tokenize "-7%4" =
      .ok [.operator .sub, .number (.whole 7), .operator .mod, .number (.whole 4)] := by
  have hminus : Token.next 0 ['-', '7', '%', '4'] =
      (.ok (some (.operator .sub)), ['7', '%', '4']) := rfl
  have hseven : Token.next 1 ['7', '%', '4'] =
      (.ok (some (.number (.whole 7))), ['%', '4']) := by decide
  have hpercent : Token.next 2 ['%', '4'] = (.ok (some (.operator .mod)), ['4']) := rfl
  have hfour : Token.next 3 ['4'] = (.ok (some (.number (.whole 4))), []) := by decide
  exact Token.readFrom_cons hminus (Token.readFrom_cons hseven
    (Token.readFrom_cons hpercent (Token.readFrom_cons hfour (Token.readFrom_nil _))))

/-- The remainder of -7 by 4 has the sign of the divisor. -/
theorem evaluate_integers_remainder : (evaluate {} "-7%4").decimalResult = .str "3" := by
  let d : Grammar.Expression :=
    .mk (.mk (.plain (.negative (.whole 7)))
      (.cons .mod (.plain (.number (.whole 4))) .nil)) .nil
  have hlen : ("-7%4".length : Int) ≤ ({} : Settings).maxInputLength := by decide
  have htree : Tree.ofTokens d.spell = .ok (Tree.ofExpr d.tree) := rfl
  have hint : ∀ t ∈ d.spell, t.IsInteger := by
    intro t ht
    change t ∈ [Token.operator .sub, .number (.whole 7), .operator .mod, .number (.whole 4)] at ht
    simp only [List.mem_cons, List.not_mem_nil, or_false] at ht
    rcases ht with rfl | rfl | rfl | rfl
    · exact Operator.noConfusion
    · change (scale : Int) ∣ _
      decide
    · exact Operator.noConfusion
    · change (scale : Int) ∣ _
      decide
  rcases evaluate_integers hlen tokenize_remainder htree hint with ⟨hnil, _⟩ | ⟨d', hd', h⟩
  · cases hnil
  · have he : d' = d := Grammar.Expression.spell_injective hd'
    subst he
    have hf : d.tree.firstOffence = none := by decide
    have hv : d.tree.integer = 3 := by decide
    rw [hf, hv] at h
    exact h.2

end Evaluation

end DeskCalculator
