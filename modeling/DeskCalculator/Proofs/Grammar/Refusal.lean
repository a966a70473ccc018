import DeskCalculator.Proofs.Grammar.Tree

namespace DeskCalculator

namespace Expr

/-- What an operand that is awaited may be. -/
def Stage.completion : Stage → List Token
  | .factor _ _ => []
  | .operand | .negated => [.number Decimal.zero]

/-- An operand where one is awaited, and the end of each open group. -/
def Reading.completion (r : Reading) : List Token :=
  r.stage.completion ++ List.replicate r.groups.length .parenClose

/-- Parentheses close all groups behind a factor. -/
theorem Reading.run_closings (gs : List (Opening × Pending)) (e : Expr) (b : Bool) (p : Pending) :
    ∃ e' b' p', Reading.run ⟨.factor e b, p, gs⟩ (List.replicate gs.length .parenClose) =
      .ok ⟨.factor e' b', p', []⟩ := by
  induction gs generalizing e b p with
  | nil => exact ⟨e, b, p, rfl⟩
  | cons group gs ih =>
    obtain ⟨opening, outer⟩ := group
    exact ih (opening.wrap (p.expression e)) true outer

theorem Reading.run_completion (r : Reading) :
    ∃ e b p, r.run r.completion = .ok ⟨.factor e b, p, []⟩ := by
  obtain ⟨stage, p, gs⟩ := r
  cases stage with
  | operand => exact Reading.run_closings gs (.number Decimal.zero) true p
  | negated => exact Reading.run_closings gs (.number Decimal.zero.negate) true p
  | factor e b => exact Reading.run_closings gs e b p

/-- Where no factor ends, no group can end. -/
theorem Reading.step_parenClose {r r' : Reading} (h : r.step .parenClose = .ok r') :
    ∃ e b, r.stage = .factor e b ∧ r.groups ≠ [] := by
  obtain ⟨stage, p, gs⟩ := r
  cases stage with
  | operand => cases h
  | negated => cases h
  | factor e b =>
    refine ⟨e, b, rfl, ?_⟩
    intro hg
    change gs = [] at hg
    subst hg
    cases h

/-- A run that fails has read a first part and is refused the token behind it. -/
theorem Reading.run_error {r : Reading} {ts : List Token} {fault : Fault}
    (h : r.run ts = .error fault) :
    ∃ i t r', ts[i]? = some t ∧ r.run (ts.take i) = .ok r' ∧ r'.step t = .error fault := by
  induction ts generalizing r with
  | nil => cases h
  | cons t ts ih =>
    rw [Reading.run_cons] at h
    cases hs : r.step t with
    | error fault' =>
      rw [hs] at h
      cases h
      exact ⟨0, t, r, rfl, rfl, hs⟩
    | ok next =>
      rw [hs, Outcome.ok_bind] at h
      obtain ⟨i, t', r', ht, hr, hf⟩ := ih h
      refine ⟨i + 1, t', r', by simpa using ht, ?_, hf⟩
      rw [List.take_succ_cons, Reading.run_cons, hs, Outcome.ok_bind, hr]

/-- What was read begins with parts that were read. -/
theorem Reading.run_take {r r' : Reading} {ts : List Token} {m n : Nat}
    (h : r.run (ts.take n) = .ok r') (hm : m ≤ n) : ∃ before, r.run (ts.take m) = .ok before := by
  have hsplit : ts.take n = ts.take m ++ (ts.take n).drop m := by
    have hmin : (ts.take n).take m = ts.take m := by rw [List.take_take, Nat.min_eq_left hm]
    rw [← hmin, List.take_append_drop]
  rw [hsplit, Reading.run_append] at h
  obtain ⟨before, hbefore, _⟩ := Outcome.bind_ok h
  exact ⟨before, hbefore⟩

end Expr

/-- The message of a fault is that this token was not expected; it may also say what was. -/
def Fault.Names (fault : Fault) (token : Token) : Prop :=
  ∃ expected, fault.message = "Unexpected Token: '" ++ token.text ++ "'" ++ expected

theorem Fault.names_unexpectedToken (t : Token) : (Fault.unexpectedToken t.text).Names t := by
  refine ⟨"", ?_⟩
  rw [String.append_empty]
  rfl

theorem Fault.names_closingExpected (t : Token) : (Fault.closingExpected t.text).Names t := by
  refine ⟨" (expected ')')", ?_⟩
  rw [String.append_assoc]
  rfl

theorem Fault.names_numberExpected (t : Token) : (Fault.numberExpected t.text).Names t := by
  refine ⟨" (expected a number after '-')", ?_⟩
  rw [String.append_assoc]
  rfl

namespace Expr

theorem Reading.refuse_names (r : Reading) (t : Token) :
    (r.refuse t).kind = .unexpectedToken ∧ (r.refuse t).Names t := by
  unfold Reading.refuse
  split
  · exact ⟨rfl, Fault.names_unexpectedToken t⟩
  · exact ⟨rfl, Fault.names_closingExpected t⟩

/-- A token that is refused is named. -/
theorem Reading.step_error {r : Reading} {t : Token} {fault : Fault}
    (h : r.step t = .error fault) : fault.kind = .unexpectedToken ∧ fault.Names t := by
  unfold Reading.step at h
  split at h
  · unfold Reading.operand at h
    split at h <;> cases h
    exact ⟨rfl, Fault.names_unexpectedToken t⟩
  · unfold Reading.negated at h
    split at h <;> cases h
    exact ⟨rfl, Fault.names_numberExpected t⟩
  · unfold Reading.after at h
    split at h
    · split at h <;> cases h
      exact r.refuse_names .factorial
    · cases h
    · split at h <;> cases h
      exact r.refuse_names .parenClose
    · cases h
      exact r.refuse_names t

end Expr

namespace Tree

def Accepted (tokens : List Token) : Prop := ∃ tree, Tree.ofTokens tokens = .ok tree

/-- More tokens may make an expression of these. -/
def Viable (tokens : List Token) : Prop := ∃ more, Accepted (tokens ++ more)

/-- Closing parentheses alone make an expression of these. -/
def Closable (tokens : List Token) : Prop :=
  ∃ count, 0 < count ∧ Accepted (tokens ++ List.replicate count .parenClose)

/-- What is accepted was read up to the end of a factor outside all groups. -/
theorem accepted_iff {ts : List Token} (hne : ts ≠ []) :
    Accepted ts ↔ ∃ e b p, Expr.Reading.run {} ts = .ok ⟨.factor e b, p, []⟩ := by
  unfold Accepted
  rw [ofTokens_of_ne_nil hne]
  constructor
  · intro h
    obtain ⟨tree, ht⟩ := h
    obtain ⟨e, he, _⟩ := Outcome.map_ok ht
    obtain ⟨r, hr, hf⟩ := Outcome.bind_ok he
    unfold Expr.Reading.finish at hf
    split at hf
    · rename_i e' b hstage hgroups
      obtain ⟨stage, p, gs⟩ := r
      subst hstage hgroups
      exact ⟨e', b, p, hr⟩
    · cases hf
    · cases hf
  · intro h
    obtain ⟨e, b, p, hr⟩ := h
    refine ⟨Tree.ofExpr (p.expression e), ?_⟩
    change Tree.ofExpr <$> (Expr.Reading.run {} ts >>= fun r => r.finish _) = _
    rw [hr]
    rfl

/-- Tokens can be completed if and only if they are read without a fault. -/
theorem viable_iff {ts : List Token} (hne : ts ≠ []) :
    Viable ts ↔ ∃ r, Expr.Reading.run {} ts = .ok r := by
  constructor
  · intro h
    obtain ⟨more, hm⟩ := h
    obtain ⟨e, b, p, hr⟩ := (accepted_iff (by simp [hne])).mp hm
    rw [Expr.Reading.run_append] at hr
    obtain ⟨r, hr, _⟩ := Outcome.bind_ok hr
    exact ⟨r, hr⟩
  · intro h
    obtain ⟨r, hr⟩ := h
    obtain ⟨e, b, p, hc⟩ := r.run_completion
    exact ⟨r.completion, (accepted_iff (by simp [hne])).mpr
      ⟨e, b, p, Expr.Reading.run_append_ok hr hc⟩⟩

/-- Closing parentheses are enough where a factor ends within a group. -/
theorem closable_iff {ts : List Token} (hne : ts ≠ []) {r : Expr.Reading}
    (hr : Expr.Reading.run {} ts = .ok r) :
    Closable ts ↔ ∃ e b, r.stage = .factor e b ∧ r.groups ≠ [] := by
  constructor
  · intro h
    obtain ⟨count, hpos, hc⟩ := h
    obtain ⟨e, b, p, hrun⟩ := (accepted_iff (by simp [hne])).mp hc
    rw [Expr.Reading.run_append, hr, Outcome.ok_bind] at hrun
    obtain ⟨n, rfl⟩ := Nat.exists_eq_succ_of_ne_zero (Nat.pos_iff_ne_zero.mp hpos)
    rw [List.replicate_succ, Expr.Reading.run_cons] at hrun
    obtain ⟨next, hs, _⟩ := Outcome.bind_ok hrun
    exact Expr.Reading.step_parenClose hs
  · intro h
    obtain ⟨e, b, hs, hg⟩ := h
    obtain ⟨stage, p, gs⟩ := r
    change stage = _ at hs
    subst hs
    obtain ⟨e', b', p', hc⟩ := Expr.Reading.run_closings gs e b p
    exact ⟨gs.length, List.length_pos_iff.mpr hg, (accepted_iff (by simp [hne])).mpr
      ⟨e', b', p', Expr.Reading.run_append_ok hr hc⟩⟩

/-- The fault where all tokens were read: only within a group is a factor not the end. -/
theorem finish_kind {r : Expr.Reading} {last : Token} {fault : Fault}
    (h : r.finish last = .error fault) :
    (∃ e b, r.stage = .factor e b ∧ r.groups ≠ []) ∧ fault.kind = .missingClosingParenthesis ∨
      (¬ ∃ e b, r.stage = .factor e b ∧ r.groups ≠ []) ∧ fault.kind = .missingOperand := by
  obtain ⟨stage, p, gs⟩ := r
  cases stage with
  | operand =>
    cases h
    exact Or.inr ⟨by simp, rfl⟩
  | negated =>
    cases h
    exact Or.inr ⟨by simp, rfl⟩
  | factor e b =>
    cases gs with
    | nil => cases h
    | cons group gs =>
      cases h
      exact Or.inl ⟨⟨e, b, rfl, by simp⟩, rfl⟩

/-- The refused token is the first one that cannot be completed. -/
theorem first_hopeless {ts : List Token} (hne : ts ≠ []) {fault : Fault}
    (hr : Expr.Reading.run {} ts = .error fault) :
    ¬ Viable ts ∧ fault.kind = .unexpectedToken ∧
      ∃ i t, ts[i]? = some t ∧ ¬ Viable (ts.take (i + 1)) ∧
        (∀ j < i, Viable (ts.take (j + 1))) ∧ fault.Names t := by
  obtain ⟨i, t, r, ht, hi, hs⟩ := Expr.Reading.run_error hr
  have htake : ∀ n, ts.take (n + 1) ≠ [] := by simp [hne]
  obtain ⟨hk, hn⟩ := Expr.Reading.step_error hs
  refine ⟨?_, hk, i, t, ht, ?_, ?_, hn⟩
  · intro hv
    obtain ⟨r', hr'⟩ := (viable_iff hne).mp hv
    rw [hr] at hr'
    cases hr'
  · intro hv
    obtain ⟨r', hr'⟩ := (viable_iff (htake i)).mp hv
    rw [List.take_add_one, ht, Expr.Reading.run_append, hi, Outcome.ok_bind] at hr'
    change (r.step t >>= fun next => next.run []) = _ at hr'
    rw [hs] at hr'
    cases hr'
  · intro j hj
    exact (viable_iff (htake j)).mpr (Expr.Reading.run_take hi hj)

/-- A fault in reading tells whether the tokens can be completed. If they can, it says whether
closing parentheses would do. If not, it names the first token that no expression can go on with. -/
theorem ofTokens_error_names_first_hopeless {ts : List Token} (hne : ts ≠ []) {fault : Fault}
    (h : Tree.ofTokens ts = .error fault) :
    (Viable ts →
      (Closable ts → fault.kind = .missingClosingParenthesis) ∧
        (¬ Closable ts → fault.kind = .missingOperand)) ∧
      (¬ Viable ts → fault.kind = .unexpectedToken ∧
        ∃ i t, ts[i]? = some t ∧ ¬ Viable (ts.take (i + 1)) ∧
          (∀ j < i, Viable (ts.take (j + 1))) ∧ fault.Names t) := by
  rw [ofTokens_of_ne_nil hne] at h
  have hread := Outcome.map_error h
  change (Expr.Reading.run {} ts >>= fun r => r.finish (ts.getLast?.getD .nothing)) = _ at hread
  cases hr : Expr.Reading.run {} ts with
  | ok r =>
    rw [hr, Outcome.ok_bind] at hread
    refine ⟨?_, fun hv => absurd ((viable_iff hne).mpr ⟨r, hr⟩) hv⟩
    intro _
    rw [closable_iff hne hr]
    rcases finish_kind hread with ⟨hc, hk⟩ | ⟨hc, hk⟩
    · exact ⟨fun _ => hk, fun hn => absurd hc hn⟩
    · exact ⟨fun hf => absurd hf hc, fun _ => hk⟩
  | error fault' =>
    rw [hr] at hread
    cases hread
    obtain ⟨hv, hfirst⟩ := first_hopeless hne hr
    exact ⟨fun hviable => absurd hviable hv, fun _ => hfirst⟩

/-- In `(1` only the end of the group is missing, in `(1 +` an operand. -/
theorem ofTokens_error_names_first_hopeless_group :
    (∃ fault, Tree.ofTokens [.parenOpen, .number .one] = .error fault ∧
      fault.kind = .missingClosingParenthesis) ∧
    ∃ fault, Tree.ofTokens [.parenOpen, .number .one, .operator .add] = .error fault ∧
      fault.kind = .missingOperand := by
  have hgroup : [Token.parenOpen, .number .one] ≠ [] := List.cons_ne_nil _ _
  have hsum : [Token.parenOpen, .number .one, .operator .add] ≠ [] := List.cons_ne_nil _ _
  constructor
  · obtain ⟨hviable, _⟩ := ofTokens_error_names_first_hopeless hgroup rfl
    obtain ⟨hclosable, _⟩ := hviable ⟨[.parenClose], _, rfl⟩
    exact ⟨_, rfl, hclosable ⟨1, Nat.one_pos, _, rfl⟩⟩
  · obtain ⟨hviable, _⟩ := ofTokens_error_names_first_hopeless hsum rfl
    obtain ⟨_, hopen⟩ := hviable ⟨[.number .one, .parenClose], _, rfl⟩
    refine ⟨_, rfl, hopen ?_⟩
    rw [closable_iff hsum rfl]
    simp

end Tree

end DeskCalculator
