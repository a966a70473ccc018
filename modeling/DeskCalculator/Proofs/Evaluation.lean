import DeskCalculator.Evaluation
import DeskCalculator.Proofs.Grammar.Tree
import DeskCalculator.Proofs.Json.RoundTrip
import DeskCalculator.Proofs.Operation
import DeskCalculator.Proofs.Token.Lexer

namespace DeskCalculator

open Outcome (Meets)

/-- Each step of an evaluation keeps numbers well-formed. -/
theorem Expr.eval_meets (limits : Limits) {e : Expr} (h : e.All Token.WellFormed) :
    Meets Decimal.WellFormed (e.eval limits) := by
  induction e with
  | number x => exact h
  | factorial e ih =>
    obtain ⟨_, he⟩ := h
    exact (ih he).bind fun x hx => Decimal.factorial_yields trivial hx
  | call name e ih =>
    obtain ⟨_, he⟩ := h
    exact (ih he).bind fun x hx => NamedFunction.call_meets limits name hx
  | binary op l r ihl ihr =>
    obtain ⟨_, hl, hr⟩ := h
    refine (ihl hl).bind ?_
    intro x hx
    refine (ihr hr).bind ?_
    intro y hy
    exact (op.apply_yields hx hy).mono fun _ h => h.ofInput

theorem Tree.ofTokens_meets (limits : Limits) {tokens : List Token}
    (h : ∀ t ∈ tokens, t.WellFormed) :
    Meets (fun tree => Meets Decimal.WellFormed (Tree.eval tree limits))
      (Tree.ofTokens tokens) := by
  by_cases hn : tokens = []
  · subst hn
    exact Decimal.zero_wellFormed
  · have hm := Expr.ofTokens_meets tokens
    cases ht : Tree.ofTokens tokens with
    | error fault =>
      rw [Tree.ofTokens_of_ne_nil hn] at ht
      exact hm.of_error (Outcome.map_error ht)
    | ok tree =>
      obtain ⟨d, rfl, rfl⟩ := (Tree.ofTokens_ok_iff hn).mp ht
      change Meets Decimal.WellFormed (Tree.eval (Tree.ofExpr d.tree) limits)
      rw [Tree.eval_ofExpr]
      exact Expr.eval_meets limits (d.all_tree (fun _ hx => hx.negate) h)

theorem Json.isPrintable_int_iff (m : Int) :
    Json.isPrintable (.int m) = true ↔ m.natAbs < 10 ^ Json.digitLimit := by
  rw [Json.isPrintable, decide_eq_true_iff]
  exact Nat.length_repr_le_iff (by decide)

namespace Evaluation

theorem shown_eq {x : Decimal} (h : x.WellFormed) : shown x = .ok x := if_pos h.isPrintable

/-- The outcome of an evaluation, stage by stage. -/
theorem run_outcome (build : List Token → Except Fault Tree) (settings : Settings)
    (problem : String) :
    (run build settings problem).1 =
      if settings.maxInputLength < problem.length then
        .error (tooLong problem.length settings.maxInputLength)
      else
        Token.tokenize problem >>= build >>= fun tree => tree.eval settings.limits >>= shown := by
  unfold run
  by_cases hl : settings.maxInputLength < problem.length
  · simp only [if_pos hl]
  · simp only [if_neg hl]
    cases Token.tokenize problem with
    | error fault => rfl
    | ok tokens =>
      simp only [Outcome.ok_bind]
      cases build tokens with
      | error fault => rfl
      | ok tree => rfl

/-- The text is too long, for a limit with too many digits to be written. -/
def LimitUnwritable (settings : Settings) (problem : String) : Prop :=
  settings.maxInputLength < problem.length ∧
    10 ^ Json.digitLimit ≤ settings.maxInputLength.natAbs

theorem tooLong_of_lt {limit : Int} (length : Nat) (h : limit.natAbs < 10 ^ Json.digitLimit) :
    tooLong length limit = .inputTooLong length limit :=
  if_pos ((Json.isPrintable_int_iff limit).mpr h)

theorem tooLong_kind_of_le {limit : Int} (length : Nat)
    (h : 10 ^ Json.digitLimit ≤ limit.natAbs) : (tooLong length limit).kind = .general := by
  have hprint : ¬ Json.isPrintable (.int limit) = true := by
    rw [Json.isPrintable_int_iff]
    exact Nat.not_lt.mpr h
  rw [tooLong, if_neg hprint]
  rfl

theorem run_meets {settings : Settings} {problem : String}
    (hlimit : ¬ LimitUnwritable settings problem) :
    Meets Decimal.WellFormed (run Tree.ofTokens settings problem).1 := by
  rw [run_outcome]
  split
  · rename_i hlong
    have hsmall : settings.maxInputLength.natAbs < 10 ^ Json.digitLimit :=
      Nat.lt_of_not_le fun hle => hlimit ⟨hlong, hle⟩
    rw [tooLong_of_lt problem.length hsmall]
    exact trivial
  · have hts := Token.tokenize_meets problem
    refine (hts.bind fun tokens => Tree.ofTokens_meets settings.limits).bind ?_
    intro tree ht
    refine ht.bind ?_
    intro x hx
    rw [shown_eq hx]
    exact hx

/-- The codes of the faults that a text can have. -/
def inputCodes : List String :=
  ["2004", "2005", "3003", "3026", "3101", "3102", "3103", "3104", "3105", "3106", "3107", "3200",
    "3201", "3202"]

theorem code_of_ofInput {fault : Fault} (h : Outcome.OfInput fault) :
    fault.kind.code ∈ inputCodes := by
  cases fault <;> first | exact absurd h id | simp [Fault.kind, Fault.Kind.code, inputCodes]

/-- A text beyond a limit that cannot be written is reported as an internal failure. -/
theorem report_of_limitUnwritable {settings : Settings} {problem : String}
    (h : LimitUnwritable settings problem) :
    ∃ report, (evaluate settings problem).report? = some report ∧ report.kind = .general ∧
      report.code = "9999" := by
  obtain ⟨hlong, hdigits⟩ := h
  have ho : (evaluate settings problem).outcome =
      .error (tooLong problem.length settings.maxInputLength) := by
    change (run Tree.ofTokens settings problem).1 = _
    rw [run_outcome, if_pos hlong]
  have hkind := tooLong_kind_of_le problem.length hdigits
  unfold report?
  rw [ho]
  exact ⟨_, rfl, hkind, congrArg Fault.Kind.code hkind⟩

theorem code_of_report {settings : Settings} {problem : String} {report : Report}
    (hlimit : ¬ LimitUnwritable settings problem)
    (h : (evaluate settings problem).report? = some report) : report.code ∈ inputCodes := by
  have hm : Meets Decimal.WellFormed (evaluate settings problem).outcome := run_meets hlimit
  unfold report? at h
  cases ho : (evaluate settings problem).outcome with
  | ok x =>
    rw [ho] at h
    cases h
  | error fault =>
    rw [ho] at h
    cases h
    exact code_of_ofInput (hm.of_error ho)

/-- Every text evaluates to a number of which each digit and nibble has its character, or to a
report with one of the codes of the text's own faults, unless it is too long for a limit that cannot
be written. Such a text has an internal failure for its report, and no other text has. -/
theorem evaluate_internal_iff (settings : Settings) (problem : String) :
    (LimitUnwritable settings problem ↔
      ∃ report, (evaluate settings problem).report? = some report ∧ report.code = "9999") ∧
    (¬ LimitUnwritable settings problem →
      match (evaluate settings problem).outcome with
      | .ok x =>
        x.WellFormed ∧ x.isPrintable = true ∧ (evaluate settings problem).report? = none ∧
          (evaluate settings problem).decimalResult = .str x.text ∧
          (evaluate settings problem).hexResult = .str x.hexText
      | .error _ =>
        ∃ report, (evaluate settings problem).report? = some report ∧
          report.code ∈ inputCodes) := by
  refine ⟨⟨?_, ?_⟩, ?_⟩
  · intro h
    obtain ⟨report, hreport, _, hcode⟩ := report_of_limitUnwritable h
    exact ⟨report, hreport, hcode⟩
  · rintro ⟨report, hreport, hcode⟩
    by_contra hlimit
    have hinput := code_of_report hlimit hreport
    rw [hcode] at hinput
    exact absurd hinput (by decide)
  · intro hlimit
    have hm : Meets Decimal.WellFormed (evaluate settings problem).outcome := run_meets hlimit
    unfold report? decimalResult hexResult
    cases ho : (evaluate settings problem).outcome with
    | ok x =>
      have hx := hm.of_ok ho
      exact ⟨hx, hx.isPrintable, rfl, rfl, rfl⟩
    | error fault => exact ⟨_, rfl, code_of_ofInput (hm.of_error ho)⟩

/-- A limit that is short of the text can be named as long as it can be written. -/
theorem evaluate_internal_iff_named :
    ∃ report, (evaluate { maxInputLength := -1 } "1").report? = some report ∧
      report.code ∈ inputCodes := by
  have hnamed : ¬ LimitUnwritable { maxInputLength := -1 } "1" := by
    rintro ⟨_, hdigits⟩
    exact absurd hdigits (Nat.not_le.mpr (Nat.one_lt_pow (by decide) (by decide)))
  exact (evaluate_internal_iff { maxInputLength := -1 } "1").2 hnamed

/-- A limit of 4301 digits. -/
def unwritable : Json.Members := [("max_input_length", .int (-10 ^ Json.digitLimit))]

/-- The text `1` is too long for this limit and its report has the code of an internal failure. From
a file the limit cannot even be read. -/
theorem evaluate_internal_of_unwritable :
    (∃ report, (evaluate (Settings.ofArgument unwritable) "1").report? = some report ∧
      report.code = "9999" ∧ report.code ∉ inputCodes) ∧
      ∀ problem, (fun settings => evaluate settings problem) <$>
        Settings.ofFile (some (Json.print (.obj unwritable))) = .error .tooManyDigits := by
  have habs : (-10 ^ Json.digitLimit : Int).natAbs = 10 ^ Json.digitLimit := by
    have hten : (10 : Int).natAbs = 10 := rfl
    rw [Int.natAbs_neg, Int.natAbs_pow, hten]
  constructor
  · have hlimit : (Settings.ofArgument unwritable).maxInputLength = -10 ^ Json.digitLimit := rfl
    have hunwritable : LimitUnwritable (Settings.ofArgument unwritable) "1" := by
      rw [LimitUnwritable, hlimit, habs]
      refine ⟨?_, Nat.le_refl _⟩
      have hpos : (0 : Int) < 10 ^ Json.digitLimit := Int.pow_pos (by decide)
      have hlength : ("1".length : Int) = 1 := rfl
      omega
    obtain ⟨report, hreport, _, hcode⟩ := report_of_limitUnwritable hunwritable
    refine ⟨report, hreport, hcode, ?_⟩
    rw [hcode]
    decide
  · intro problem
    have hprint : Json.isPrintable (.int (-10 ^ Json.digitLimit)) = false := by
      rw [Bool.eq_false_iff, Ne, Json.isPrintable_int_iff, habs]
      exact Nat.lt_irrefl _
    have hread := Json.read_member_refused "max_input_length" hprint
    rw [Settings.ofFile, Settings.load, Settings.readPairs, Option.map_some, unwritable, hread]
    rfl

/-- A sign, forty digits and a point are the longest text. -/
theorem length_text_le {x : Decimal} (hx : x.WellFormed) : x.text.length ≤ 42 := by
  obtain ⟨fraction, unit, above, h⟩ := hx.parts
  have hc := h.canonical
  have hw : (Digits.characters (unit :: Digits.trim above)).length ≤ 20 := hc.length_whole
  have hf : (Digits.characters (fraction.dropWhile (· == 0))).length ≤ 20 := hc.length_fraction
  have hsign : (if x.negative then ['-'] else []).length ≤ 1 := by split <;> decide
  have hpoint (cs : List Char) : (if cs.isEmpty then [] else '.' :: cs).length ≤ cs.length + 1 := by
    split
    · exact Nat.zero_le _
    · exact Nat.le_refl _
  have hp := hpoint (Digits.characters (fraction.dropWhile (· == 0)))
  rw [Decimal.text, String.length_ofList, hc.shape, List.length_append, List.length_append]
  omega

/-- The tokens of a number's text make a tree with the number as its value. -/
theorem eval_tokens_of_text {x : Decimal} (hx : x.WellFormed) (limits : Limits) :
    (Token.tokenize x.text >>= Tree.ofTokens >>= fun tree => tree.eval limits >>= shown) =
      .ok x := by
  rw [Token.tokenize_text hx]
  cases hn : x.negative with
  | true =>
    have ht : Tree.ofTokens [.operator .sub, .number x.unsigned] =
        .ok (Tree.ofExpr (.number x)) := by
      rw [← hx.negate_unsigned hn]
      rfl
    rw [if_pos rfl, Outcome.ok_bind, ht, Outcome.ok_bind, Tree.eval_ofExpr, Expr.eval,
      Outcome.ok_bind, shown_eq hx]
  | false =>
    have ht : Tree.ofTokens [.number x] = .ok (Tree.ofExpr (.number x)) := rfl
    rw [if_neg Bool.false_ne_true, Outcome.ok_bind, ht, Outcome.ok_bind, Tree.eval_ofExpr,
      Expr.eval, Outcome.ok_bind, shown_eq hx]

theorem evaluate_text {x : Decimal} (hx : x.WellFormed) {settings : Settings}
    (h : 42 ≤ settings.maxInputLength) : (evaluate settings x.text).outcome = .ok x := by
  have hlen := length_text_le hx
  have hle : ¬ settings.maxInputLength < x.text.length := by omega
  change (run Tree.ofTokens settings x.text).1 = .ok x
  rw [run_outcome, if_neg hle, eval_tokens_of_text hx]

/-- The text of a number is canonical, no other number has it, and reading or evaluating it gives
the number back. -/
theorem text_identifies_number {x : Decimal} (hx : x.WellFormed) :
    Decimal.parse x.text = .ok x ∧
      (∃ whole fraction, Decimal.Canonical x.negative whole fraction x.text.toList) ∧
      (∀ y : Decimal, y.WellFormed → y.text = x.text → y = x) ∧
      ∀ settings : Settings, 42 ≤ settings.maxInputLength →
        (evaluate settings x.text).report? = none ∧
          (evaluate settings x.text).decimalResult = .str x.text ∧
          (evaluate settings x.text).hexResult = .str x.hexText := by
  have hparse := Decimal.parse_text hx
  refine ⟨hparse, ?_, ?_, ?_⟩
  · obtain ⟨fraction, unit, above, h⟩ := hx.parts
    rw [Decimal.text, String.toList_ofList]
    exact ⟨_, _, h.canonical⟩
  · intro y hy he
    have h := Decimal.parse_text hy
    rw [he, hparse] at h
    exact (Except.ok.inj h).symm
  · intro settings h
    have ho := evaluate_text hx h
    unfold report? decimalResult hexResult
    rw [ho]
    exact ⟨rfl, rfl, rfl⟩

/-- The number -1.5 has a text of which it is the value, under the shipped settings too. -/
theorem text_identifies_number_negative :
    ∃ x : Decimal, x = ⟨true, Digits.zeros 19 ++ [5, 1] ++ Digits.zeros 19⟩ ∧ x.WellFormed ∧
      Decimal.parse x.text = .ok x ∧ (evaluate {} x.text).decimalResult = .str x.text := by
  have hx : Decimal.WellFormed ⟨true, Digits.zeros 19 ++ [5, 1] ++ Digits.zeros 19⟩ :=
    ⟨by decide, by decide, by decide⟩
  obtain ⟨hparse, _, _, heval⟩ := text_identifies_number hx
  exact ⟨_, rfl, hx, hparse, (heval {} (by decide)).2.1⟩

end Evaluation

end DeskCalculator
