import DeskCalculator.Proofs.Decimal.Text
import DeskCalculator.Proofs.Grammar.Tree

namespace DeskCalculator

open Outcome (Alike)

namespace Expr

/-- Expressions with the same value, or the same fault. -/
def SameValue (limits : Limits) (e e' : Expr) : Prop := e.eval limits = e'.eval limits

variable {limits : Limits} {e e' l l' r r' : Expr}

theorem SameValue.refl (e : Expr) : SameValue limits e e := rfl

theorem SameValue.factorial (h : SameValue limits e e') :
    SameValue limits (.factorial e) (.factorial e') := by
  simp only [SameValue, eval] at h ⊢
  rw [h]

theorem SameValue.call (h : SameValue limits e e') (name : String) :
    SameValue limits (.call name e) (.call name e') := by
  simp only [SameValue, eval] at h ⊢
  rw [h]

theorem SameValue.binary (hl : SameValue limits l l') (hr : SameValue limits r r') (op : Operator) :
    SameValue limits (.binary op l r) (.binary op l' r') := by
  simp only [SameValue, eval] at hl hr ⊢
  rw [hl, hr]

theorem SameValue.wrap (h : SameValue limits e e') (opening : Opening) :
    SameValue limits (opening.wrap e) (opening.wrap e') := by
  cases opening with
  | parenthesis => exact h
  | function name => exact h.call name

/-- Left operands that agree, with the same operator. -/
inductive Waiting.Agree (limits : Limits) :
    Option (Expr × Operator) → Option (Expr × Operator) → Prop where
  | none : Waiting.Agree limits none none
  | some {e e' : Expr} (op : Operator) (h : SameValue limits e e') :
      Waiting.Agree limits (some (e, op)) (some (e', op))

structure Pending.Agree (limits : Limits) (p p' : Pending) : Prop where
  sum : Waiting.Agree limits p.sum p'.sum
  product : Waiting.Agree limits p.product p'.product

inductive Stage.Agree (limits : Limits) : Stage → Stage → Prop where
  | operand : Stage.Agree limits .operand .operand
  | negated : Stage.Agree limits .negated .negated
  | factor {e e' : Expr} (h : SameValue limits e e') (bare : Bool) :
      Stage.Agree limits (.factor e bare) (.factor e' bare)

/-- The same groups are open, with parts that agree around them. -/
inductive Groups.Agree (limits : Limits) :
    List (Opening × Pending) → List (Opening × Pending) → Prop where
  | nil : Groups.Agree limits [] []
  | cons {p p' : Pending} {gs gs' : List (Opening × Pending)} (opening : Opening)
      (outer : Pending.Agree limits p p') (rest : Groups.Agree limits gs gs') :
      Groups.Agree limits ((opening, p) :: gs) ((opening, p') :: gs')

structure Reading.Agree (limits : Limits) (r r' : Reading) : Prop where
  stage : Stage.Agree limits r.stage r'.stage
  pending : Pending.Agree limits r.pending r'.pending
  groups : Groups.Agree limits r.groups r'.groups

variable {p p' : Pending}

theorem Waiting.Agree.join {w w' : Option (Expr × Operator)} (hw : Waiting.Agree limits w w')
    (h : SameValue limits e e') : SameValue limits (Pending.join e w) (Pending.join e' w') := by
  cases hw with
  | none => exact h
  | some op hl => exact hl.binary h op

theorem Pending.Agree.term (hp : Pending.Agree limits p p') (h : SameValue limits e e') :
    SameValue limits (p.term e) (p'.term e') :=
  hp.product.join h

theorem Pending.Agree.expression (hp : Pending.Agree limits p p') (h : SameValue limits e e') :
    SameValue limits (p.expression e) (p'.expression e') :=
  hp.sum.join (hp.term h)

theorem Pending.Agree.push (hp : Pending.Agree limits p p') (h : SameValue limits e e')
    (op : Operator) : Pending.Agree limits (p.push e op) (p'.push e' op) := by
  unfold Pending.push
  split
  · exact ⟨hp.sum, .some op (hp.term h)⟩
  · exact ⟨.some op (hp.expression h), .none⟩

theorem Pending.Agree.refl (p : Pending) : Pending.Agree limits p p := by
  have hw (w : Option (Expr × Operator)) : Waiting.Agree limits w w := by
    cases w with
    | none => exact .none
    | some w => exact .some w.2 (SameValue.refl w.1)
  exact ⟨hw _, hw _⟩

theorem Groups.Agree.refl (gs : List (Opening × Pending)) : Groups.Agree limits gs gs := by
  induction gs with
  | nil => exact .nil
  | cons g gs ih => exact .cons g.1 (Pending.Agree.refl g.2) ih

theorem Groups.Agree.isEmpty {gs gs' : List (Opening × Pending)}
    (h : Groups.Agree limits gs gs') : gs.isEmpty = gs'.isEmpty := by
  cases h <;> rfl

namespace Reading.Agree

variable {r r' : Reading}

theorem refuse (h : Reading.Agree limits r r') (t : Token) : r.refuse t = r'.refuse t := by
  rw [Reading.refuse, Reading.refuse, h.groups.isEmpty]

theorem enter (h : Reading.Agree limits r r') (opening : Opening) :
    Reading.Agree limits (r.enter opening) (r'.enter opening) :=
  ⟨.operand, ⟨.none, .none⟩, .cons opening h.pending h.groups⟩

theorem operand (h : Reading.Agree limits r r') (t : Token) :
    Alike (Reading.Agree limits) (r.operand t) (r'.operand t) := by
  unfold Reading.operand
  split
  · exact .ok ⟨.factor (SameValue.refl _) true, h.pending, h.groups⟩
  · exact .ok ⟨.negated, h.pending, h.groups⟩
  · exact .ok (h.enter .parenthesis)
  · exact .ok (h.enter (.function _))
  · exact .error _

theorem negated (h : Reading.Agree limits r r') (t : Token) :
    Alike (Reading.Agree limits) (r.negated t) (r'.negated t) := by
  unfold Reading.negated
  split
  · exact .ok ⟨.factor (SameValue.refl _) true, h.pending, h.groups⟩
  · exact .error _

/-- A group that ends becomes a factor of the group around it. -/
theorem close (h : Reading.Agree limits r r') (he : SameValue limits e e') (bare : Bool) :
    Alike (Reading.Agree limits) (r.after e bare .parenClose) (r'.after e' bare .parenClose) := by
  obtain ⟨stage, p, gs⟩ := r
  obtain ⟨stage', p', gs'⟩ := r'
  have hg := h.groups
  change Groups.Agree limits gs gs' at hg
  cases hg with
  | nil => exact .error _
  | cons opening outer rest =>
    exact .ok ⟨.factor ((h.pending.expression he).wrap opening) true, outer, rest⟩

theorem after (h : Reading.Agree limits r r') (he : SameValue limits e e') (bare : Bool)
    (t : Token) : Alike (Reading.Agree limits) (r.after e bare t) (r'.after e' bare t) := by
  cases t with
  | factorial =>
    cases bare with
    | true => exact .ok ⟨.factor he.factorial false, h.pending, h.groups⟩
    | false =>
      simp only [Reading.after, h.refuse, Bool.false_eq_true, if_false]
      exact .error _
  | operator op => exact .ok ⟨.operand, h.pending.push he op, h.groups⟩
  | parenClose => exact h.close he bare
  | nothing | number _ | parenOpen | function _ =>
    simp only [Reading.after, h.refuse]
    exact .error _

/-- One more token is read in the same way, or refused for the same fault. -/
theorem step (h : Reading.Agree limits r r') (t : Token) :
    Alike (Reading.Agree limits) (r.step t) (r'.step t) := by
  have hs := h.stage
  unfold Reading.step
  generalize r.stage = stage at hs
  generalize r'.stage = stage' at hs
  cases hs with
  | operand => exact h.operand t
  | negated => exact h.negated t
  | factor he bare => exact h.after he bare t

theorem run (h : Reading.Agree limits r r') (ts : List Token) :
    Alike (Reading.Agree limits) (r.run ts) (r'.run ts) := by
  induction ts generalizing r r' with
  | nil => exact .ok h
  | cons t ts ih =>
    rw [Reading.run_cons, Reading.run_cons]
    exact (h.step t).bind fun _ _ hn => ih hn

theorem finish (h : Reading.Agree limits r r') (last : Token) :
    Alike (SameValue limits) (r.finish last) (r'.finish last) := by
  obtain ⟨stage, p, gs⟩ := r
  obtain ⟨stage', p', gs'⟩ := r'
  obtain ⟨hs, hp, hg⟩ := h
  cases hs with
  | operand => exact .error _
  | negated => exact .error _
  | factor he bare =>
    cases hg with
    | nil => exact .ok (hp.expression he)
    | cons opening outer rest => exact .error _

end Reading.Agree

/-- Only where an operand is awaited does a group begin. -/
theorem Reading.step_opening {r inner : Reading} {opening : Opening}
    (h : r.step opening.token = .ok inner) : r.stage = .operand ∧ inner = r.enter opening := by
  obtain ⟨stage, p, gs⟩ := r
  cases opening <;> cases stage <;> cases h <;> exact ⟨rfl, rfl⟩

/-- A whole group is read as one factor, whatever is inside. -/
theorem Reading.run_group {r inner : Reading} {opening : Opening}
    (h : r.step opening.token = .ok inner) (d : Grammar.Expression) (s : List Token) :
    inner.run (d.spell ++ .parenClose :: s) =
      Reading.run ⟨.factor (opening.wrap d.tree) true, r.pending, r.groups⟩ s := by
  obtain ⟨_, rfl⟩ := Reading.step_opening h
  obtain ⟨e, b, p, hd, he⟩ := run_expression d ((opening, r.pending) :: r.groups)
  have hinside : (r.enter opening).run d.spell =
      .ok ⟨.factor e b, p, (opening, r.pending) :: r.groups⟩ := hd
  rw [← he, Reading.run_append, hinside]
  rfl

/-- Behind a group that was replaced, reading goes on as before. -/
theorem Reading.run_replaced (d d' : Grammar.Expression) (h : SameValue limits d.tree d'.tree)
    (r : Reading) (opening : Opening) (s : List Token) :
    Alike (Reading.Agree limits)
      (r.run (opening.token :: (d.spell ++ .parenClose :: s)))
      (r.run (opening.token :: (d'.spell ++ .parenClose :: s))) := by
  rw [Reading.run_cons, Reading.run_cons]
  cases hs : r.step opening.token with
  | error fault => exact .error fault
  | ok inner =>
    rw [Outcome.ok_bind, Outcome.ok_bind, Reading.run_group hs, Reading.run_group hs]
    have hfactor : Reading.Agree limits
        ⟨.factor (opening.wrap d.tree) true, r.pending, r.groups⟩
        ⟨.factor (opening.wrap d'.tree) true, r.pending, r.groups⟩ :=
      ⟨.factor (h.wrap opening) true, Pending.Agree.refl _, Groups.Agree.refl _⟩
    exact hfactor.run s

/-- Expressions that agree replace each other within a group, whatever stands around it. -/
theorem ofTokens_replaced (d d' : Grammar.Expression) (h : SameValue limits d.tree d'.tree)
    (opening : Opening) (p s : List Token) :
    Alike (SameValue limits)
      (Expr.ofTokens (p ++ opening.token :: (d.spell ++ .parenClose :: s)))
      (Expr.ofTokens (p ++ opening.token :: (d'.spell ++ .parenClose :: s))) := by
  have hlast (ts : List Token) : (p ++ opening.token :: (ts ++ .parenClose :: s)).getLast? =
      (Token.parenClose :: s).getLast? := by
    simp [List.getLast?_append, List.getLast?_cons]
  have hrun : Alike (Reading.Agree limits)
      (Reading.run {} (p ++ opening.token :: (d.spell ++ .parenClose :: s)))
      (Reading.run {} (p ++ opening.token :: (d'.spell ++ .parenClose :: s))) := by
    rw [Reading.run_append, Reading.run_append]
    cases Reading.run {} p with
    | error fault => exact .error fault
    | ok r => exact Reading.run_replaced d d' h r opening s
  unfold Expr.ofTokens
  rw [hlast, hlast]
  exact hrun.bind fun r r' hr => hr.finish _

end Expr

/-- A number below zero is written with a minus sign, as a token of its own. -/
def Token.literal (x : Decimal) : List Token :=
  if x.units < 0 then [.operator .sub, .number x.unsigned] else [.number x]

theorem Decimal.negate_unsigned_of_neg {x : Decimal} (h : x.units < 0) : x.unsigned.negate = x := by
  have hz : Digits.isZero x.digits = false := by
    rw [Bool.eq_false_iff]
    intro ht
    have hu := (Decimal.isZero_iff_units x).mp ht
    omega
  obtain ⟨negative, ds⟩ := x
  cases negative with
  | true => simpa [Decimal.negate, Decimal.unsigned, Decimal.signed] using hz
  | false =>
    simp only [Decimal.units, Bool.false_eq_true, if_false] at h
    omega

/-- The tokens of a number are derived, and the number is their syntax tree. -/
theorem Grammar.exists_literal (x : Decimal) :
    ∃ d : Grammar.Expression, d.spell = Token.literal x ∧ d.tree = .number x := by
  unfold Token.literal
  split
  · rename_i h
    refine ⟨.mk (.mk (.plain (.negative x.unsigned)) .nil) .nil, rfl, ?_⟩
    change Expr.number x.unsigned.negate = .number x
    rw [Decimal.negate_unsigned_of_neg h]
  · exact ⟨.mk (.mk (.plain (.number x)) .nil) .nil, rfl, rfl⟩

namespace Tree

theorem eval_ofTokens {ts : List Token} (h : ts ≠ []) (limits : Limits) :
    (Tree.ofTokens ts >>= fun tree => tree.eval limits) =
      Expr.ofTokens ts >>= fun e => e.eval limits := by
  rw [ofTokens_of_ne_nil h]
  cases Expr.ofTokens ts with
  | error fault => rfl
  | ok e => exact eval_ofExpr e limits

/-- A group can be replaced by the number that it evaluates to, between any tokens: the outcome is
the same, be it a value or a fault. -/
theorem eval_group_eq_eval_literal (limits : Limits) (opening : Expr.Opening) (p s : List Token)
    {inside : List Token} (hne : inside ≠ []) {tree : Tree}
    (htree : Tree.ofTokens inside = .ok tree) {x : Decimal} (hx : tree.eval limits = .ok x) :
    (Tree.ofTokens (p ++ opening.token :: (inside ++ .parenClose :: s)) >>=
        fun tree => tree.eval limits) =
      Tree.ofTokens (p ++ opening.token :: (Token.literal x ++ .parenClose :: s)) >>=
        fun tree => tree.eval limits := by
  obtain ⟨d, rfl, rfl⟩ := (ofTokens_ok_iff hne).mp htree
  obtain ⟨d', hd', ht'⟩ := Grammar.exists_literal x
  have hagree : Expr.SameValue limits d.tree d'.tree := by
    rw [eval_ofExpr] at hx
    rw [Expr.SameValue, hx, ht']
    rfl
  rw [eval_ofTokens (by simp), eval_ofTokens (by simp), ← hd']
  refine Alike.eq ((Expr.ofTokens_replaced d d' hagree opening p s).bind ?_)
  intro e e' he
  rw [he]
  exact Alike.refl _

/-- The group in `2 * (1 - 2)!` can be replaced by `(-1)`. -/
theorem eval_group_eq_eval_literal_negative :
    (Tree.ofTokens [.number .two, .operator .mul, .parenOpen, .number .one, .operator .sub,
        .number .two, .parenClose, .factorial] >>= fun tree => tree.eval {}) =
      Tree.ofTokens [.number .two, .operator .mul, .parenOpen, .operator .sub, .number .one,
        .parenClose, .factorial] >>= fun tree => tree.eval {} := by
  have htree : Tree.ofTokens [.number .one, .operator .sub, .number .two] =
      .ok (Tree.ofExpr (.binary .sub (.number .one) (.number .two))) := rfl
  have hx : (Tree.ofExpr (.binary .sub (.number .one) (.number .two))).eval {} =
      .ok Decimal.one.negate := by
    rw [eval_ofExpr]
    decide
  have hliteral : Token.literal Decimal.one.negate = [.operator .sub, .number .one] := by decide
  have h := eval_group_eq_eval_literal {} .parenthesis [.number .two, .operator .mul] [.factorial]
    (List.cons_ne_nil _ _) htree hx
  rw [hliteral] at h
  exact h

end Tree

end DeskCalculator
