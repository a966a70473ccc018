import DeskCalculator.Proofs.Expr

namespace DeskCalculator.Grammar

/-- The operators between terms. -/
inductive SumSign where
  | add
  | sub

/-- The operators between factors. -/
inductive ProductSign where
  | mul
  | div
  | mod

def SumSign.operator : SumSign → Operator
  | add => .add
  | sub => .sub

def ProductSign.operator : ProductSign → Operator
  | mul => .mul
  | div => .div
  | mod => .mod

mutual

/-- A derivation spells its tokens and stands for its syntax tree, in which operators of one kind
associate to the left. -/
inductive Expression where
  | mk (first : Term) (rest : Terms)

/-- What is repeated in an expression. -/
inductive Terms where
  | nil
  | cons (sign : SumSign) (term : Term) (rest : Terms)

inductive Term where
  | mk (first : Factor) (rest : Factors)

/-- What is repeated in a term. -/
inductive Factors where
  | nil
  | cons (sign : ProductSign) (factor : Factor) (rest : Factors)

inductive Factor where
  | plain (subfactor : Subfactor)
  | factorial (subfactor : Subfactor)

inductive Subfactor where
  | number (value : Decimal)
  | negative (value : Decimal)
  | group (inside : Expression)
  | call (name : String) (argument : Expression)

end

mutual

def Expression.spell : Expression → List Token
  | .mk first rest => first.spell ++ rest.spell

def Terms.spell : Terms → List Token
  | .nil => []
  | .cons sign term rest => .operator sign.operator :: (term.spell ++ rest.spell)

def Term.spell : Term → List Token
  | .mk first rest => first.spell ++ rest.spell

def Factors.spell : Factors → List Token
  | .nil => []
  | .cons sign factor rest => .operator sign.operator :: (factor.spell ++ rest.spell)

def Factor.spell : Factor → List Token
  | .plain subfactor => subfactor.spell
  | .factorial subfactor => subfactor.spell ++ [.factorial]

def Subfactor.spell : Subfactor → List Token
  | .number x => [.number x]
  | .negative x => [.operator .sub, .number x]
  | .group inside => .parenOpen :: (inside.spell ++ [.parenClose])
  | .call name argument => .function name :: (argument.spell ++ [.parenClose])

end

mutual

def Expression.tree : Expression → Expr
  | .mk first rest => rest.extend first.tree

/-- The tree so far becomes the left operand of the next operator. -/
def Terms.extend : Terms → Expr → Expr
  | .nil, e => e
  | .cons sign term rest, e => rest.extend (.binary sign.operator e term.tree)

def Term.tree : Term → Expr
  | .mk first rest => rest.extend first.tree

def Factors.extend : Factors → Expr → Expr
  | .nil, e => e
  | .cons sign factor rest, e => rest.extend (.binary sign.operator e factor.tree)

def Factor.tree : Factor → Expr
  | .plain subfactor => subfactor.tree
  | .factorial subfactor => .factorial subfactor.tree

def Subfactor.tree : Subfactor → Expr
  | .number x => .number x
  | .negative x => .number x.negate
  | .group inside => inside.tree
  | .call name argument => .call name argument.tree

end

def Terms.snoc (sign : SumSign) (term : Term) : Terms → Terms
  | .nil => .cons sign term .nil
  | .cons sign' term' rest => .cons sign' term' (rest.snoc sign term)

def Factors.snoc (sign : ProductSign) (factor : Factor) : Factors → Factors
  | .nil => .cons sign factor .nil
  | .cons sign' factor' rest => .cons sign' factor' (rest.snoc sign factor)

def Expression.snoc (sign : SumSign) (term : Term) : Expression → Expression
  | .mk first rest => .mk first (rest.snoc sign term)

def Term.snoc (sign : ProductSign) (factor : Factor) : Term → Term
  | .mk first rest => .mk first (rest.snoc sign factor)

theorem Terms.spell_snoc (sign : SumSign) (term : Term) (ts : Terms) :
    (ts.snoc sign term).spell = ts.spell ++ .operator sign.operator :: term.spell := by
  match ts with
  | .nil => simp [Terms.snoc, Terms.spell]
  | .cons sign' term' rest => simp [Terms.snoc, Terms.spell, Terms.spell_snoc sign term rest]

theorem Terms.extend_snoc (sign : SumSign) (term : Term) (ts : Terms) (e : Expr) :
    (ts.snoc sign term).extend e = .binary sign.operator (ts.extend e) term.tree := by
  match ts with
  | .nil => rfl
  | .cons sign' term' rest => exact Terms.extend_snoc sign term rest _

theorem Factors.spell_snoc (sign : ProductSign) (factor : Factor) (fs : Factors) :
    (fs.snoc sign factor).spell = fs.spell ++ .operator sign.operator :: factor.spell := by
  match fs with
  | .nil => simp [Factors.snoc, Factors.spell]
  | .cons sign' factor' rest =>
    simp [Factors.snoc, Factors.spell, Factors.spell_snoc sign factor rest]

theorem Factors.extend_snoc (sign : ProductSign) (factor : Factor) (fs : Factors) (e : Expr) :
    (fs.snoc sign factor).extend e = .binary sign.operator (fs.extend e) factor.tree := by
  match fs with
  | .nil => rfl
  | .cons sign' factor' rest => exact Factors.extend_snoc sign factor rest _

theorem Expression.spell_snoc (sign : SumSign) (term : Term) (d : Expression) :
    (d.snoc sign term).spell = d.spell ++ .operator sign.operator :: term.spell := by
  obtain ⟨first, rest⟩ := d
  simp [Expression.snoc, Expression.spell, Terms.spell_snoc]

theorem Expression.tree_snoc (sign : SumSign) (term : Term) (d : Expression) :
    (d.snoc sign term).tree = .binary sign.operator d.tree term.tree := by
  obtain ⟨first, rest⟩ := d
  exact Terms.extend_snoc sign term rest _

theorem Term.spell_snoc (sign : ProductSign) (factor : Factor) (t : Term) :
    (t.snoc sign factor).spell = t.spell ++ .operator sign.operator :: factor.spell := by
  obtain ⟨first, rest⟩ := t
  simp [Term.snoc, Term.spell, Factors.spell_snoc]

theorem Term.tree_snoc (sign : ProductSign) (factor : Factor) (t : Term) :
    (t.snoc sign factor).tree = .binary sign.operator t.tree factor.tree := by
  obtain ⟨first, rest⟩ := t
  exact Factors.extend_snoc sign factor rest _

/-- A token that continues a factor, a term or an expression. -/
def Continues : Token → Prop
  | .factorial | .operator _ => True
  | _ => False

/-- The tokens do not go on with what an expression could still take. -/
def Ends (ts : List Token) : Prop := ∀ t ∈ ts.head?, ¬ Continues t

/-- The tokens do not go on with what a term could still take. -/
def EndsTerm (ts : List Token) : Prop :=
  ∀ t ∈ ts.head?, t ≠ .factorial ∧ ∀ sign : ProductSign, t ≠ .operator sign.operator

theorem ends_close (ts : List Token) : Ends (.parenClose :: ts) := by
  simp [Ends, Continues]

theorem Ends.endsTerm {ts : List Token} (h : Ends ts) : EndsTerm ts := by
  intro t ht
  have hc := h t ht
  refine ⟨?_, ?_⟩
  · intro he
    subst he
    exact hc trivial
  · intro sign he
    subst he
    exact hc trivial

theorem ends_nil : Ends [] := by simp [Ends]

/-- The terms still to come begin with an operator between terms, if there are any. -/
theorem Terms.endsTerm_spell (ts : Terms) {rest : List Token} (h : Ends rest) :
    EndsTerm (ts.spell ++ rest) := by
  match ts with
  | .nil => exact h.endsTerm
  | .cons sign term ts =>
    intro t ht
    simp only [Terms.spell, List.cons_append, List.head?_cons, Option.mem_some_iff] at ht
    subst t
    refine ⟨by simp, ?_⟩
    intro sign'
    cases sign <;> cases sign' <;> simp [SumSign.operator, ProductSign.operator]

theorem Factors.head_spell (fs : Factors) {rest : List Token} (h : EndsTerm rest) :
    (fs.spell ++ rest).head? ≠ some .factorial := by
  match fs with
  | .nil =>
    intro hh
    exact (h .factorial hh).1 rfl
  | .cons sign factor fs => simp [Factors.spell]

theorem SumSign.operator_inj {a b : SumSign} (h : a.operator = b.operator) : a = b := by
  cases a <;> cases b <;> first | rfl | cases h

theorem ProductSign.operator_inj {a b : ProductSign} (h : a.operator = b.operator) : a = b := by
  cases a <;> cases b <;> first | rfl | cases h

mutual

/-- A subfactor shows by itself where it ends. -/
theorem Subfactor.spell_unique (s s' : Subfactor) {r r' : List Token}
    (h : s.spell ++ r = s'.spell ++ r') : s = s' ∧ r = r' := by
  match s, s' with
  | .number x, .number x' => simpa [Subfactor.spell] using h
  | .negative x, .negative x' => simpa [Subfactor.spell] using h
  | .group d, .group d' =>
    simp only [Subfactor.spell, List.cons_append, List.append_assoc, List.cons.injEq,
      true_and] at h
    obtain ⟨rfl, ht⟩ := Expression.spell_unique d d' h (ends_close _) (ends_close _)
    exact ⟨rfl, by simpa using ht⟩
  | .call name d, .call name' d' =>
    simp only [Subfactor.spell, List.cons_append, List.append_assoc, List.cons.injEq,
      Token.function.injEq] at h
    obtain ⟨rfl, ht⟩ := Expression.spell_unique d d' h.2 (ends_close _) (ends_close _)
    exact ⟨by rw [h.1], by simpa using ht⟩
  | .number _, .negative _ | .number _, .group _ | .number _, .call _ _
  | .negative _, .number _ | .negative _, .group _ | .negative _, .call _ _
  | .group _, .number _ | .group _, .negative _ | .group _, .call _ _
  | .call _ _, .number _ | .call _ _, .negative _ | .call _ _, .group _ =>
    simp [Subfactor.spell] at h

theorem Factor.spell_unique (f f' : Factor) {r r' : List Token}
    (h : f.spell ++ r = f'.spell ++ r') (hr : r.head? ≠ some .factorial)
    (hr' : r'.head? ≠ some .factorial) : f = f' ∧ r = r' := by
  match f, f' with
  | .plain s, .plain s' =>
    obtain ⟨rfl, ht⟩ := Subfactor.spell_unique s s' h
    exact ⟨rfl, ht⟩
  | .factorial s, .factorial s' =>
    simp only [Factor.spell, List.append_assoc] at h
    obtain ⟨rfl, ht⟩ := Subfactor.spell_unique s s' h
    exact ⟨rfl, by simpa using ht⟩
  | .plain s, .factorial s' =>
    simp only [Factor.spell, List.append_assoc] at h
    obtain ⟨_, ht⟩ := Subfactor.spell_unique s s' h
    exact absurd (by rw [ht]; rfl) hr
  | .factorial s, .plain s' =>
    simp only [Factor.spell, List.append_assoc] at h
    obtain ⟨_, ht⟩ := Subfactor.spell_unique s s' h
    exact absurd (by rw [← ht]; rfl) hr'

theorem Factors.spell_unique (fs fs' : Factors) {r r' : List Token}
    (h : fs.spell ++ r = fs'.spell ++ r') (hr : EndsTerm r) (hr' : EndsTerm r') :
    fs = fs' ∧ r = r' := by
  match fs, fs' with
  | .nil, .nil => exact ⟨rfl, h⟩
  | .cons sign f fs, .cons sign' f' fs' =>
    simp only [Factors.spell, List.cons_append, List.append_assoc, List.cons.injEq,
      Token.operator.injEq] at h
    obtain ⟨rfl, ht⟩ := Factor.spell_unique f f' h.2 (fs.head_spell hr) (fs'.head_spell hr')
    obtain ⟨rfl, hs⟩ := Factors.spell_unique fs fs' ht hr hr'
    exact ⟨by rw [ProductSign.operator_inj h.1], hs⟩
  | .nil, .cons sign' f' fs' =>
    simp only [Factors.spell, List.nil_append] at h
    exact absurd rfl ((hr _ (by rw [h]; rfl)).2 sign')
  | .cons sign f fs, .nil =>
    simp only [Factors.spell, List.nil_append] at h
    exact absurd rfl ((hr' _ (by rw [← h]; rfl)).2 sign)

theorem Term.spell_unique (t t' : Term) {r r' : List Token}
    (h : t.spell ++ r = t'.spell ++ r') (hr : EndsTerm r) (hr' : EndsTerm r') :
    t = t' ∧ r = r' := by
  match t, t' with
  | .mk f fs, .mk f' fs' =>
    simp only [Term.spell, List.append_assoc] at h
    obtain ⟨rfl, ht⟩ := Factor.spell_unique f f' h (fs.head_spell hr) (fs'.head_spell hr')
    obtain ⟨rfl, hs⟩ := Factors.spell_unique fs fs' ht hr hr'
    exact ⟨rfl, hs⟩

theorem Terms.spell_unique (ts ts' : Terms) {r r' : List Token}
    (h : ts.spell ++ r = ts'.spell ++ r') (hr : Ends r) (hr' : Ends r') : ts = ts' ∧ r = r' := by
  match ts, ts' with
  | .nil, .nil => exact ⟨rfl, h⟩
  | .cons sign t ts, .cons sign' t' ts' =>
    simp only [Terms.spell, List.cons_append, List.append_assoc, List.cons.injEq,
      Token.operator.injEq] at h
    obtain ⟨rfl, ht⟩ := Term.spell_unique t t' h.2 (ts.endsTerm_spell hr) (ts'.endsTerm_spell hr')
    obtain ⟨rfl, hs⟩ := Terms.spell_unique ts ts' ht hr hr'
    exact ⟨by rw [SumSign.operator_inj h.1], hs⟩
  | .nil, .cons sign' t' ts' =>
    simp only [Terms.spell, List.nil_append] at h
    exact absurd trivial (hr (.operator sign'.operator) (by rw [h]; rfl))
  | .cons sign t ts, .nil =>
    simp only [Terms.spell, List.nil_append] at h
    exact absurd trivial (hr' (.operator sign.operator) (by rw [← h]; rfl))

theorem Expression.spell_unique (d d' : Expression) {r r' : List Token}
    (h : d.spell ++ r = d'.spell ++ r') (hr : Ends r) (hr' : Ends r') : d = d' ∧ r = r' := by
  match d, d' with
  | .mk t ts, .mk t' ts' =>
    simp only [Expression.spell, List.append_assoc] at h
    obtain ⟨rfl, ht⟩ := Term.spell_unique t t' h (ts.endsTerm_spell hr) (ts'.endsTerm_spell hr')
    obtain ⟨rfl, hs⟩ := Terms.spell_unique ts ts' ht hr hr'
    exact ⟨rfl, hs⟩

end

theorem Expression.spell_injective {d d' : Expression} (h : d.spell = d'.spell) : d = d' :=
  (Expression.spell_unique d d' (congrArg (· ++ []) h) ends_nil ends_nil).1

end DeskCalculator.Grammar
