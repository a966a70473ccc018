import DeskCalculator.Proofs.Expr.Reader
import DeskCalculator.Proofs.Grammar
import DeskCalculator.Proofs.Outcome

namespace DeskCalculator.Expr

open Grammar

/-- Reads tokens on from where a reading stands. -/
def Reading.run (reading : Reading) (tokens : List Token) : Except Fault Reading :=
  tokens.foldlM Reading.step reading

theorem Reading.run_cons (r : Reading) (t : Token) (ts : List Token) :
    r.run (t :: ts) = r.step t >>= fun next => next.run ts := rfl

theorem Reading.run_append (r : Reading) (xs ys : List Token) :
    r.run (xs ++ ys) = r.run xs >>= fun next => next.run ys := by
  simp only [Reading.run, List.foldlM_append]

theorem Reading.run_append_ok {r next last : Reading} {xs ys : List Token}
    (hx : r.run xs = .ok next) (hy : next.run ys = .ok last) : r.run (xs ++ ys) = .ok last := by
  rw [Reading.run_append, hx, Outcome.ok_bind, hy]

theorem push_sum (p : Pending) (e : Expr) (sign : SumSign) :
    p.push e sign.operator = ⟨some (p.expression e, sign.operator), none⟩ := by
  cases sign <;> rfl

theorem push_product (p : Pending) (e : Expr) (sign : ProductSign) :
    p.push e sign.operator = ⟨p.sum, some (p.term e, sign.operator)⟩ := by
  cases sign <;> rfl

mutual

theorem run_subfactor (s : Subfactor) (p : Pending) (gs : List (Opening × Pending)) :
    Reading.run ⟨.operand, p, gs⟩ s.spell = .ok ⟨.factor s.tree true, p, gs⟩ := by
  match s with
  | .number x => rfl
  | .negative x => rfl
  | .group d =>
    obtain ⟨e, b, p', hd, he⟩ := run_expression d ((.parenthesis, p) :: gs)
    rw [Subfactor.tree, ← he]
    exact Reading.run_append_ok hd rfl
  | .call name d =>
    obtain ⟨e, b, p', hd, he⟩ := run_expression d ((.function name, p) :: gs)
    rw [Subfactor.tree, ← he]
    exact Reading.run_append_ok hd rfl

theorem run_factor (f : Factor) (p : Pending) (gs : List (Opening × Pending)) :
    ∃ b, Reading.run ⟨.operand, p, gs⟩ f.spell = .ok ⟨.factor f.tree b, p, gs⟩ := by
  match f with
  | .plain s => exact ⟨true, run_subfactor s p gs⟩
  | .factorial s => exact ⟨false, Reading.run_append_ok (run_subfactor s p gs) rfl⟩

/-- The factors still to come extend the term so far. -/
theorem run_factors (fs : Factors) (e : Expr) (b : Bool) (p : Pending)
    (gs : List (Opening × Pending)) :
    ∃ e' b' p', Reading.run ⟨.factor e b, p, gs⟩ fs.spell = .ok ⟨.factor e' b', p', gs⟩ ∧
      p'.sum = p.sum ∧ p'.term e' = fs.extend (p.term e) := by
  match fs with
  | .nil => exact ⟨e, b, p, rfl, rfl, rfl⟩
  | .cons sign f fs =>
    obtain ⟨b₁, hf⟩ := run_factor f ⟨p.sum, some (p.term e, sign.operator)⟩ gs
    obtain ⟨e', b', p', hfs, hs, ht⟩ :=
      run_factors fs f.tree b₁ ⟨p.sum, some (p.term e, sign.operator)⟩ gs
    refine ⟨e', b', p', ?_, hs, ht⟩
    have hop : Reading.step ⟨.factor e b, p, gs⟩ (.operator sign.operator) =
        .ok ⟨.operand, ⟨p.sum, some (p.term e, sign.operator)⟩, gs⟩ := by
      rw [← push_product]
      rfl
    rw [Factors.spell, Reading.run_cons, hop, Outcome.ok_bind]
    exact Reading.run_append_ok hf hfs

theorem run_term (t : Term) (sum : Option (Expr × Operator)) (gs : List (Opening × Pending)) :
    ∃ e b p', Reading.run ⟨.operand, ⟨sum, none⟩, gs⟩ t.spell = .ok ⟨.factor e b, p', gs⟩ ∧
      p'.sum = sum ∧ p'.term e = t.tree := by
  match t with
  | .mk f fs =>
    obtain ⟨b₁, hf⟩ := run_factor f ⟨sum, none⟩ gs
    obtain ⟨e, b, p', hfs, hs, ht⟩ := run_factors fs f.tree b₁ ⟨sum, none⟩ gs
    exact ⟨e, b, p', Reading.run_append_ok hf hfs, hs, ht⟩

/-- The terms still to come extend the expression so far. -/
theorem run_terms (ts : Terms) (e : Expr) (b : Bool) (p : Pending)
    (gs : List (Opening × Pending)) :
    ∃ e' b' p', Reading.run ⟨.factor e b, p, gs⟩ ts.spell = .ok ⟨.factor e' b', p', gs⟩ ∧
      p'.expression e' = ts.extend (p.expression e) := by
  match ts with
  | .nil => exact ⟨e, b, p, rfl, rfl⟩
  | .cons sign t ts =>
    obtain ⟨e₁, b₁, p₁, ht, hs₁, ht₁⟩ := run_term t (some (p.expression e, sign.operator)) gs
    obtain ⟨e', b', p', hts, he⟩ := run_terms ts e₁ b₁ p₁ gs
    have hjoin : p₁.expression e₁ = .binary sign.operator (p.expression e) t.tree := by
      rw [Pending.expression, ht₁, hs₁]
      rfl
    refine ⟨e', b', p', ?_, by rw [he, hjoin, Terms.extend]⟩
    have hop : Reading.step ⟨.factor e b, p, gs⟩ (.operator sign.operator) =
        .ok ⟨.operand, ⟨some (p.expression e, sign.operator), none⟩, gs⟩ := by
      rw [← push_sum]
      rfl
    rw [Terms.spell, Reading.run_cons, hop, Outcome.ok_bind]
    exact Reading.run_append_ok ht hts

theorem run_expression (d : Expression) (gs : List (Opening × Pending)) :
    ∃ e b p, Reading.run ⟨.operand, {}, gs⟩ d.spell = .ok ⟨.factor e b, p, gs⟩ ∧
      p.expression e = d.tree := by
  match d with
  | .mk t ts =>
    obtain ⟨e₁, b₁, p₁, ht, hs₁, ht₁⟩ := run_term t none gs
    obtain ⟨e, b, p, hts, he⟩ := run_terms ts e₁ b₁ p₁ gs
    have hjoin : p₁.expression e₁ = t.tree := by
      rw [Pending.expression, ht₁, hs₁]
      rfl
    exact ⟨e, b, p, Reading.run_append_ok ht hts, by rw [he, hjoin, Expression.tree]⟩

end

theorem ofTokens_spell (d : Expression) : Expr.ofTokens d.spell = .ok d.tree := by
  obtain ⟨e, b, p, hr, he⟩ := run_expression d []
  change (Reading.run {} d.spell >>= fun reading => _) = _
  rw [hr, Outcome.ok_bind, ← he]
  rfl

/-- The tokens of an expression that waits, with the operator behind it. -/
def SumSpells : Option (Expr × Operator) → List Token → Prop
  | none, ts => ts = []
  | some (e, op), ts => ∃ (d : Expression) (sign : SumSign),
      d.tree = e ∧ sign.operator = op ∧ ts = d.spell ++ [.operator op]

/-- The tokens of a term that waits, with the operator behind it. -/
def ProductSpells : Option (Expr × Operator) → List Token → Prop
  | none, ts => ts = []
  | some (e, op), ts => ∃ (t : Term) (sign : ProductSign),
      t.tree = e ∧ sign.operator = op ∧ ts = t.spell ++ [.operator op]

def Pending.Spells (p : Pending) (ts : List Token) : Prop :=
  ∃ xs ys, SumSpells p.sum xs ∧ ProductSpells p.product ys ∧ ts = xs ++ ys

def Stage.Spells : Stage → List Token → Prop
  | .operand, ts => ts = []
  | .negated, ts => ts = [.operator .sub]
  | .factor e true, ts => ∃ s : Subfactor, s.tree = e ∧ s.spell = ts
  | .factor e false, ts => ∃ f : Factor, f.tree = e ∧ f.spell = ts

/-- The tokens up to the innermost open group, each group with what waits in front of it. -/
def GroupsSpell : List (Opening × Pending) → List Token → Prop
  | [], ts => ts = []
  | (opening, outer) :: gs, ts =>
    ∃ xs ys, GroupsSpell gs xs ∧ outer.Spells ys ∧ ts = xs ++ (ys ++ [opening.token])

/-- The tokens read so far are those of the parts that a reading holds. -/
def Reading.Spells (r : Reading) (ts : List Token) : Prop :=
  ∃ xs ys zs, GroupsSpell r.groups xs ∧ r.pending.Spells ys ∧ r.stage.Spells zs ∧
    ts = xs ++ (ys ++ zs)

theorem Stage.Spells.factor {e : Expr} {b : Bool} {ts : List Token}
    (h : Stage.Spells (.factor e b) ts) : ∃ f : Factor, f.tree = e ∧ f.spell = ts := by
  cases b with
  | true =>
    obtain ⟨s, he, hs⟩ := h
    exact ⟨.plain s, he, hs⟩
  | false => exact h

/-- A factor completes the term that waits for it. -/
theorem Pending.Spells.term {p : Pending} {ys zs : List Token} {f : Factor} (hp : p.Spells ys)
    (hz : f.spell = zs) :
    ∃ xs, SumSpells p.sum xs ∧ ∃ t : Term, t.tree = p.term f.tree ∧ xs ++ t.spell = ys ++ zs := by
  obtain ⟨xs, products, hx, hy, rfl⟩ := hp
  refine ⟨xs, hx, ?_⟩
  obtain ⟨sum, product⟩ := p
  cases product with
  | none =>
    have hn : products = [] := hy
    subst hn
    exact ⟨.mk f .nil, rfl, by simp [Term.spell, Factors.spell, hz]⟩
  | some waiting =>
    obtain ⟨left, op⟩ := waiting
    obtain ⟨t, sign, rfl, rfl, rfl⟩ := hy
    exact ⟨t.snoc sign f, Term.tree_snoc sign f t, by simp [Term.spell_snoc, hz]⟩

/-- A factor completes the expression that waits for it. -/
theorem Pending.Spells.expression {p : Pending} {ys zs : List Token} {f : Factor}
    (hp : p.Spells ys) (hz : f.spell = zs) :
    ∃ d : Expression, d.tree = p.expression f.tree ∧ d.spell = ys ++ zs := by
  obtain ⟨xs, hx, t, ht, hs⟩ := hp.term hz
  rw [← hs]
  obtain ⟨sum, product⟩ := p
  cases sum with
  | none =>
    have hn : xs = [] := hx
    subst hn
    exact ⟨.mk t .nil, ht, by simp [Expression.spell, Terms.spell]⟩
  | some waiting =>
    obtain ⟨left, op⟩ := waiting
    obtain ⟨d, sign, rfl, rfl, rfl⟩ := hx
    refine ⟨d.snoc sign t, ?_, by simp [Expression.spell_snoc]⟩
    rw [Expression.tree_snoc, ht]
    rfl

theorem Pending.Spells.push {p : Pending} {ys zs : List Token} {f : Factor} (hp : p.Spells ys)
    (hz : f.spell = zs) (op : Operator) :
    (p.push f.tree op).Spells (ys ++ (zs ++ [.operator op])) := by
  have hproduct (sign : ProductSign) :
      (p.push f.tree sign.operator).Spells (ys ++ (zs ++ [.operator sign.operator])) := by
    obtain ⟨xs, hx, t, ht, hs⟩ := hp.term hz
    rw [push_product]
    refine ⟨xs, t.spell ++ [.operator sign.operator], hx, ⟨t, sign, ht, rfl, rfl⟩, ?_⟩
    rw [← List.append_assoc, ← List.append_assoc, hs]
  have hsum (sign : SumSign) :
      (p.push f.tree sign.operator).Spells (ys ++ (zs ++ [.operator sign.operator])) := by
    obtain ⟨d, hd, hs⟩ := hp.expression hz
    rw [push_sum]
    refine ⟨d.spell ++ [.operator sign.operator], [], ⟨d, sign, hd, rfl, rfl⟩, rfl, ?_⟩
    rw [hs, List.append_nil, List.append_assoc]
  cases op with
  | add => exact hsum .add
  | sub => exact hsum .sub
  | mul => exact hproduct .mul
  | div => exact hproduct .div
  | mod => exact hproduct .mod

theorem Pending.spells_nil : Pending.Spells {} [] := ⟨[], [], rfl, rfl, rfl⟩

theorem Reading.spells_nil : Reading.Spells {} [] :=
  ⟨[], [], [], rfl, Pending.spells_nil, rfl, rfl⟩

theorem Reading.Spells.operand {r r' : Reading} {ts : List Token} {t : Token} (h : r.Spells ts)
    (hs : r.stage = .operand) (ht : r.operand t = .ok r') : r'.Spells (ts ++ [t]) := by
  obtain ⟨xs, ys, zs, hx, hy, hz, rfl⟩ := h
  rw [hs] at hz
  have hn : zs = [] := hz
  subst hn
  have enter (opening : Opening) :
      (r.enter opening).Spells (xs ++ (ys ++ []) ++ [opening.token]) :=
    ⟨xs ++ (ys ++ [opening.token]), [], [], ⟨xs, ys, hx, hy, rfl⟩, Pending.spells_nil, rfl,
      by simp⟩
  unfold Reading.operand at ht
  split at ht
  · cases ht
    exact ⟨xs, ys, _, hx, hy, ⟨.number _, rfl, rfl⟩, by simp [Subfactor.spell]⟩
  · cases ht
    exact ⟨xs, ys, [.operator .sub], hx, hy, rfl, by simp⟩
  · cases ht
    exact enter .parenthesis
  · cases ht
    exact enter (.function _)
  · cases ht

theorem Reading.Spells.negated {r r' : Reading} {ts : List Token} {t : Token} (h : r.Spells ts)
    (hs : r.stage = .negated) (ht : r.negated t = .ok r') : r'.Spells (ts ++ [t]) := by
  obtain ⟨xs, ys, zs, hx, hy, hz, rfl⟩ := h
  rw [hs] at hz
  have hn : zs = [.operator .sub] := hz
  subst hn
  unfold Reading.negated at ht
  split at ht
  · cases ht
    exact ⟨xs, ys, _, hx, hy, ⟨.negative _, rfl, rfl⟩, by simp [Subfactor.spell]⟩
  · cases ht

theorem Reading.Spells.after {r r' : Reading} {ts : List Token} {t : Token} {e : Expr} {b : Bool}
    (h : r.Spells ts) (hs : r.stage = .factor e b) (ht : r.after e b t = .ok r') :
    r'.Spells (ts ++ [t]) := by
  obtain ⟨xs, ys, zs, hx, hy, hz, rfl⟩ := h
  rw [hs] at hz
  unfold Reading.after at ht
  split at ht
  · -- only a factor that is bare has a subfactor to put the factorial behind
    split at ht
    · rename_i hb
      subst hb
      cases ht
      obtain ⟨s, rfl, rfl⟩ := hz
      exact ⟨xs, ys, _, hx, hy, ⟨.factorial s, rfl, rfl⟩, by simp [Factor.spell]⟩
    · cases ht
  · cases ht
    obtain ⟨f, rfl, rfl⟩ := hz.factor
    exact ⟨xs, _, [], hx, hy.push rfl _, rfl, by simp⟩
  · split at ht
    · cases ht
    · rename_i opening outer gs hg
      cases ht
      obtain ⟨f, rfl, rfl⟩ := hz.factor
      rw [hg] at hx
      obtain ⟨xs', ys', hx', hy', rfl⟩ := hx
      obtain ⟨d, hd, hs'⟩ := hy.expression rfl
      rw [← hd]
      refine ⟨xs', ys', opening.token :: (d.spell ++ [.parenClose]), hx', hy', ?_, by simp [hs']⟩
      cases opening with
      | parenthesis => exact ⟨.group d, rfl, rfl⟩
      | function name => exact ⟨.call name d, rfl, rfl⟩
  · cases ht

/-- One more token is spelled by the parts of the next reading. -/
theorem Reading.Spells.step {r r' : Reading} {ts : List Token} {t : Token} (h : r.Spells ts)
    (ht : r.step t = .ok r') : r'.Spells (ts ++ [t]) := by
  unfold Reading.step at ht
  split at ht
  · rename_i hs
    exact h.operand hs ht
  · rename_i hs
    exact h.negated hs ht
  · rename_i hs
    exact h.after hs ht

theorem Reading.Spells.run {r r' : Reading} {ts us : List Token} (h : r.Spells ts)
    (hr : r.run us = .ok r') : r'.Spells (ts ++ us) := by
  induction us generalizing r ts with
  | nil =>
    cases hr
    rwa [List.append_nil]
  | cons u us ih =>
    rw [Reading.run_cons] at hr
    obtain ⟨next, hn, hr⟩ := Outcome.bind_ok hr
    have := ih (h.step hn) hr
    rwa [List.append_assoc] at this

theorem spell_of_ofTokens {ts : List Token} {e : Expr} (h : Expr.ofTokens ts = .ok e) :
    ∃ d : Expression, d.spell = ts ∧ d.tree = e := by
  obtain ⟨r, hr, hf⟩ := Outcome.bind_ok h
  have hs : r.Spells ts := Reading.spells_nil.run hr
  obtain ⟨xs, ys, zs, hx, hy, hz, rfl⟩ := hs
  unfold Reading.finish at hf
  split at hf
  · rename_i e' b hstage hgroups
    cases hf
    rw [hgroups] at hx
    rw [hstage] at hz
    have hn : xs = [] := hx
    subst hn
    obtain ⟨f, rfl, rfl⟩ := hz.factor
    obtain ⟨d, hd, hs⟩ := hy.expression rfl
    exact ⟨d, hs, hd⟩
  · cases hf
  · cases hf

/-- Reading accepts what the grammar derives, and gives its syntax tree. -/
theorem ofTokens_iff_spell {ts : List Token} {e : Expr} :
    Expr.ofTokens ts = .ok e ↔ ∃ d : Expression, d.spell = ts ∧ d.tree = e := by
  constructor
  · exact spell_of_ofTokens
  · intro hd
    obtain ⟨d, rfl, rfl⟩ := hd
    exact ofTokens_spell d

theorem Reading.refuse_ofInput (r : Reading) (t : Token) : Outcome.OfInput (r.refuse t) := by
  unfold Reading.refuse
  split
  · exact trivial
  · exact trivial

theorem Reading.step_meets (r : Reading) (t : Token) :
    Outcome.Meets (fun _ => True) (r.step t) := by
  unfold Reading.step
  split
  · unfold Reading.operand
    split <;> exact trivial
  · unfold Reading.negated
    split <;> exact trivial
  · unfold Reading.after
    split
    · split
      · exact trivial
      · exact r.refuse_ofInput _
    · exact trivial
    · split
      · exact r.refuse_ofInput _
      · exact trivial
    · exact r.refuse_ofInput _

theorem Reading.run_meets (r : Reading) (ts : List Token) :
    Outcome.Meets (fun _ => True) (r.run ts) := by
  induction ts generalizing r with
  | nil => exact trivial
  | cons t ts ih =>
    rw [Reading.run_cons]
    exact (r.step_meets t).bind fun next _ => ih next

theorem Reading.finish_meets (r : Reading) (last : Token) :
    Outcome.Meets (fun _ => True) (r.finish last) := by
  unfold Reading.finish
  split <;> exact trivial

/-- What is no expression is refused as a fault of the input. -/
theorem ofTokens_meets (ts : List Token) : Outcome.Meets (fun _ => True) (Expr.ofTokens ts) :=
  (Reading.run_meets {} ts).bind fun r _ => r.finish_meets _

end DeskCalculator.Expr
