import DeskCalculator.Proofs.Parser.Reading

namespace DeskCalculator

namespace Grammar

variable {P : Token → Prop}

mutual

/-- What holds of all tokens holds in the tree, if a minus sign in front of a number keeps it. -/
theorem Expression.all_tree (hn : ∀ x, P (.number x) → P (.number x.negate)) (d : Expression)
    (h : ∀ t ∈ d.spell, P t) : d.tree.All P := by
  match d with
  | .mk first rest =>
    simp only [Expression.spell, List.forall_mem_append] at h
    exact rest.all_extend hn h.2 (first.all_tree hn h.1)

theorem Terms.all_extend (hn : ∀ x, P (.number x) → P (.number x.negate)) (ts : Terms)
    (h : ∀ t ∈ ts.spell, P t) {e : Expr} (he : e.All P) : (ts.extend e).All P := by
  match ts with
  | .nil => exact he
  | .cons sign term rest =>
    simp only [Terms.spell, List.forall_mem_cons, List.forall_mem_append] at h
    obtain ⟨hop, ht, hr⟩ := h
    exact rest.all_extend hn hr ⟨hop, he, term.all_tree hn ht⟩

theorem Term.all_tree (hn : ∀ x, P (.number x) → P (.number x.negate)) (t : Term)
    (h : ∀ t' ∈ t.spell, P t') : t.tree.All P := by
  match t with
  | .mk first rest =>
    simp only [Term.spell, List.forall_mem_append] at h
    exact rest.all_extend hn h.2 (first.all_tree hn h.1)

theorem Factors.all_extend (hn : ∀ x, P (.number x) → P (.number x.negate)) (fs : Factors)
    (h : ∀ t ∈ fs.spell, P t) {e : Expr} (he : e.All P) : (fs.extend e).All P := by
  match fs with
  | .nil => exact he
  | .cons sign factor rest =>
    simp only [Factors.spell, List.forall_mem_cons, List.forall_mem_append] at h
    obtain ⟨hop, hf, hr⟩ := h
    exact rest.all_extend hn hr ⟨hop, he, factor.all_tree hn hf⟩

theorem Factor.all_tree (hn : ∀ x, P (.number x) → P (.number x.negate)) (f : Factor)
    (h : ∀ t ∈ f.spell, P t) : f.tree.All P := by
  match f with
  | .plain subfactor => exact subfactor.all_tree hn h
  | .factorial subfactor =>
    simp only [Factor.spell, List.forall_mem_append, List.forall_mem_singleton] at h
    exact ⟨h.2, subfactor.all_tree hn h.1⟩

theorem Subfactor.all_tree (hn : ∀ x, P (.number x) → P (.number x.negate)) (s : Subfactor)
    (h : ∀ t ∈ s.spell, P t) : s.tree.All P := by
  match s with
  | .number x => exact h _ (List.mem_singleton_self _)
  | .negative x => exact hn x (h _ (List.mem_cons_of_mem _ (List.mem_singleton_self _)))
  | .group inside =>
    simp only [Subfactor.spell, List.forall_mem_cons, List.forall_mem_append] at h
    exact inside.all_tree hn h.2.1
  | .call name argument =>
    simp only [Subfactor.spell, List.forall_mem_cons, List.forall_mem_append] at h
    exact ⟨h.1, argument.all_tree hn h.2.1⟩

end

end Grammar

namespace Tree

open Grammar (Expression)

/-- A tree of tokens is the tree of the derivation that spells them. -/
theorem ofTokens_ok_iff {tokens : List Token} (h : tokens ≠ []) {tree : Tree} :
    Tree.ofTokens tokens = .ok tree ↔
      ∃ d : Expression, d.spell = tokens ∧ Tree.ofExpr d.tree = tree := by
  rw [ofTokens_of_ne_nil h]
  constructor
  · intro ht
    obtain ⟨e, he, rfl⟩ := Outcome.map_ok ht
    obtain ⟨d, hs, rfl⟩ := Expr.ofTokens_iff_spell.mp he
    exact ⟨d, hs, rfl⟩
  · intro hd
    obtain ⟨d, hs, rfl⟩ := hd
    rw [Expr.ofTokens_iff_spell.mpr ⟨d, hs, rfl⟩]
    rfl

/-- Tokens have a tree if and only if the grammar derives them. The derivation is then the only
one, and its syntax tree is what the root shows. -/
theorem ofTokens_follows_grammar {tokens : List Token} (h : tokens ≠ []) :
    ((∃ tree, Tree.ofTokens tokens = .ok tree) ↔ ∃ d : Expression, d.spell = tokens) ∧
      ∀ tree, Tree.ofTokens tokens = .ok tree →
        ∃ d : Expression, d.spell = tokens ∧ (∀ d' : Expression, d'.spell = tokens → d' = d) ∧
          ∀ e, tree.arena.Shows tree.root e ↔ e = d.tree := by
  refine ⟨⟨?_, ?_⟩, ?_⟩
  · intro ht
    obtain ⟨tree, ht⟩ := ht
    obtain ⟨d, hs, _⟩ := (ofTokens_ok_iff h).mp ht
    exact ⟨d, hs⟩
  · intro hd
    obtain ⟨d, hs⟩ := hd
    exact ⟨Tree.ofExpr d.tree, (ofTokens_ok_iff h).mpr ⟨d, hs, rfl⟩⟩
  · intro tree ht
    obtain ⟨d, hs, rfl⟩ := (ofTokens_ok_iff h).mp ht
    refine ⟨d, hs, fun d' hs' => Expression.spell_injective (hs'.trans hs.symm), ?_⟩
    intro e
    constructor
    · intro he
      exact he.unique (ofExpr_shows d.tree)
    · intro he
      subst he
      exact ofExpr_shows d.tree

/-- In the tokens of `-1 - (2)!` the first minus sign belongs to the literal and the second is an
operator. -/
theorem ofTokens_follows_grammar_minus :
    ∃ tree, Tree.ofTokens [.operator .sub, .number .one, .operator .sub, .parenOpen, .number .two,
        .parenClose, .factorial] = .ok tree ∧
      tree.arena.Shows tree.root
        (.binary .sub (.number Decimal.one.negate) (.factorial (.number Decimal.two))) := by
  let two : Expression := .mk (.mk (.plain (.number .two)) .nil) .nil
  let d : Expression :=
    .mk (.mk (.plain (.negative .one)) .nil)
      (.cons .sub (.mk (.factorial (.group two)) .nil) .nil)
  obtain ⟨hiff, hall⟩ := ofTokens_follows_grammar (List.cons_ne_nil (.operator .sub)
    [.number .one, .operator .sub, .parenOpen, .number .two, .parenClose, .factorial])
  obtain ⟨tree, ht⟩ := hiff.mpr ⟨d, rfl⟩
  obtain ⟨d', _, hu, hs⟩ := hall tree ht
  refine ⟨tree, ht, (hs _).mpr ?_⟩
  rw [← hu d rfl]
  rfl

end Tree

end DeskCalculator
