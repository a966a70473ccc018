import DeskCalculator.Parser
import DeskCalculator.Proofs.Arena.Postorder

namespace DeskCalculator

namespace Token

/-- The tokens with a node of their own. Parentheses have none. A minus sign in front of a number is
part of the number where an operand has to begin (`awaiting`). -/
def onNodes (awaiting : Bool) : List Token → List Token
  | [] => []
  | .parenOpen :: ts => onNodes true ts
  | .parenClose :: ts => onNodes false ts
  | .operator .sub :: .number x :: ts =>
    if awaiting then .number x.negate :: onNodes false ts
    else .operator .sub :: .number x :: onNodes false ts
  | .operator op :: ts => .operator op :: onNodes true ts
  | .function name :: ts => .function name :: onNodes true ts
  | token :: ts => token :: onNodes false ts

/-- Behind an operand an operator has a node, also if it is a minus sign. -/
theorem onNodes_operator (op : Operator) (ts : List Token) :
    onNodes false (.operator op :: ts) = .operator op :: onNodes true ts := by
  cases op <;> cases ts with
  | nil => rfl
  | cons t ts => cases t <;> rfl

/-- The tokens `read` are an operand, of which `nodes` have nodes, whatever follows. -/
def IsOperand (read nodes : List Token) : Prop :=
  ∀ rest, onNodes true (read ++ rest) = nodes ++ onNodes false rest

namespace IsOperand

variable {read nodes first second : List Token}

theorem number (x : Decimal) : IsOperand [.number x] [.number x] := fun _ => rfl

theorem negative (x : Decimal) : IsOperand [.operator .sub, .number x] [.number x.negate] :=
  fun _ => rfl

theorem group (h : IsOperand read nodes) :
    IsOperand (.parenOpen :: (read ++ [.parenClose])) nodes := by
  intro rest
  rw [List.cons_append, List.append_assoc]
  exact h (.parenClose :: rest)

theorem call (h : IsOperand read nodes) (name : String) :
    IsOperand (.function name :: (read ++ [.parenClose])) (.function name :: nodes) := by
  intro rest
  rw [List.cons_append, List.append_assoc]
  exact congrArg (Token.function name :: ·) (h (.parenClose :: rest))

theorem factorial (h : IsOperand read nodes) :
    IsOperand (read ++ [.factorial]) (nodes ++ [.factorial]) := by
  intro rest
  rw [List.append_assoc, h, List.append_assoc]
  rfl

theorem binary {nodes' : List Token} (hl : IsOperand first nodes) (hr : IsOperand second nodes')
    (op : Operator) :
    IsOperand (first ++ .operator op :: second) (nodes ++ .operator op :: nodes') := by
  intro rest
  rw [List.append_assoc, hl, List.cons_append, onNodes_operator, hr, List.append_assoc,
    List.cons_append]

end IsOperand

end Token

namespace Parser

variable {parser before ready inside after : Parser} {token opening : Token} {index : Nat}

/-- Reading a token takes it off what is left to read. -/
theorem next_rest (h : parser.next = (some token, ready)) :
    parser.tokens.rest = token :: ready.tokens.rest ∧ ready.tokens.last = some token ∧
      ready.arena = parser.arena := by
  obtain ⟨⟨items, position⟩, arena⟩ := parser
  unfold next Cursor.next Cursor.peek at h
  cases hrest : Cursor.rest ⟨items, position⟩ with
  | nil => simp [hrest] at h
  | cons t ts =>
    simp only [hrest, List.head?_cons, Prod.mk.injEq, Option.some.injEq] at h
    obtain ⟨rfl, rfl⟩ := h
    have hitem : items[position]? = some t := by
      rw [← List.head?_drop]
      exact congrArg List.head? hrest
    have htail : items.drop (position + 1) = ts := by
      rw [← List.tail_drop]
      exact congrArg List.tail hrest
    refine ⟨?_, ?_, rfl⟩
    · rw [Cursor.rest, htail]
    · simpa [Cursor.last] using hitem

theorem next_end (h : parser.next = (none, ready)) : parser.tokens.rest = [] ∧ ready = parser := by
  unfold next Cursor.next Cursor.peek at h
  cases hrest : parser.tokens.rest with
  | nil =>
    simp only [hrest, List.head?_nil, Prod.mk.injEq, true_and] at h
    exact ⟨rfl, h.symm⟩
  | cons t ts => simp [hrest] at h

theorem next_of_peek (h : parser.tokens.peek = some token) :
    parser.next = (some token, parser.next.2) := by
  simp [next, Cursor.next, h]

theorem close_ok (h : parser.close opening = .ok after) :
    parser.next = (some .parenClose, after) := by
  unfold close at h
  split at h
  · cases h
  · rename_i hnext
    cases h
    exact hnext
  · cases h

/-- From one stand of the parser to another an operand was read, and a tree was added for it. -/
def Phrase (before : Parser) (index : Nat) (after : Parser) : Prop :=
  ∃ read nodes, before.tokens.rest = read ++ after.tokens.rest ∧ Token.IsOperand read nodes ∧
    before.arena.Adds index after.arena nodes

namespace Phrase

theorem length_le (h : Phrase before index after) :
    after.tokens.rest.length ≤ before.tokens.rest.length := by
  obtain ⟨read, nodes, hread, _, _⟩ := h
  rw [hread, List.length_append]
  exact Nat.le_add_left _ _

theorem number {x : Decimal} (h : before.next = (some (.number x), ready)) :
    Phrase before (ready.push (.leaf (.number x))).1 (ready.push (.leaf (.number x))).2 := by
  obtain ⟨hrest, _, harena⟩ := next_rest h
  refine ⟨[.number x], [.number x], hrest, .number x, ?_⟩
  rw [← harena]
  exact .leaf ready.arena (.number x)

theorem negative {x : Decimal} (hsign : before.next = (some (.operator .sub), ready))
    (h : ready.next = (some (.number x), after)) :
    Phrase before (after.push (.leaf (.number x.negate))).1
      (after.push (.leaf (.number x.negate))).2 := by
  obtain ⟨hsign, _, harena⟩ := next_rest hsign
  obtain ⟨hrest, _, harena'⟩ := next_rest h
  refine ⟨[.operator .sub, .number x], [.number x.negate], ?_, .negative x, ?_⟩
  · rw [hsign, hrest]
    rfl
  · rw [← harena, ← harena']
    exact .leaf after.arena (.number x.negate)

theorem group (hopen : before.next = (some .parenOpen, ready)) (h : Phrase ready index inside)
    (hclose : inside.next = (some .parenClose, after)) : Phrase before index after := by
  obtain ⟨hopen, _, harena⟩ := next_rest hopen
  obtain ⟨read, nodes, hread, hoperand, hadds⟩ := h
  obtain ⟨hclose, _, harena'⟩ := next_rest hclose
  refine ⟨.parenOpen :: (read ++ [.parenClose]), nodes, ?_, hoperand.group, ?_⟩
  · rw [hopen, hread, hclose]
    simp
  · rw [← harena, harena']
    exact hadds

theorem call {name : String} (hopen : before.next = (some (.function name), ready))
    (h : Phrase ready index inside) (hclose : inside.next = (some .parenClose, after)) :
    Phrase before (after.push (.unary (.function name) index)).1
      (after.push (.unary (.function name) index)).2 := by
  obtain ⟨hopen, _, harena⟩ := next_rest hopen
  obtain ⟨read, nodes, hread, hoperand, hadds⟩ := h
  obtain ⟨hclose, _, harena'⟩ := next_rest hclose
  refine ⟨.function name :: (read ++ [.parenClose]), .function name :: nodes, ?_,
    hoperand.call name, ?_⟩
  · change _ = _ ++ after.tokens.rest
    rw [hopen, hread, hclose]
    simp
  · rw [← harena', harena] at hadds
    -- the name is read first, but its node is pushed last
    exact (hadds.unary (.function name)).perm (List.perm_append_singleton _ _)

theorem factorial (h : Phrase before index inside)
    (hmark : inside.next = (some .factorial, after)) :
    Phrase before (after.push (.unary .factorial index)).1
      (after.push (.unary .factorial index)).2 := by
  obtain ⟨read, nodes, hread, hoperand, hadds⟩ := h
  obtain ⟨hmark, _, harena⟩ := next_rest hmark
  refine ⟨read ++ [.factorial], nodes ++ [.factorial], ?_, hoperand.factorial, ?_⟩
  · change _ = _ ++ after.tokens.rest
    rw [hread, hmark]
    simp
  · rw [← harena] at hadds
    exact hadds.unary .factorial

theorem binary {op : Operator} {left right : Nat} (hl : Phrase before left inside)
    (hop : inside.next = (some (.operator op), ready)) (hr : Phrase ready right after) :
    Phrase before (after.push (.dual (.operator op) left right)).1
      (after.push (.dual (.operator op) left right)).2 := by
  obtain ⟨first, nodes, hfirst, hleft, haddsl⟩ := hl
  obtain ⟨hop, _, harena⟩ := next_rest hop
  obtain ⟨second, nodes', hsecond, hright, haddsr⟩ := hr
  refine ⟨first ++ .operator op :: second, nodes ++ .operator op :: nodes', ?_,
    hleft.binary hright op, ?_⟩
  · change _ = _ ++ after.tokens.rest
    rw [hfirst, hop, hsecond]
    simp
  · rw [harena] at haddsr
    exact haddsl.dual haddsr (.operator op)

end Phrase

/-- What the rule reads is an operand, and it adds the operand's tree. -/
def LaysOut (rule : Rule) : Prop :=
  ∀ ⦃before index after⦄, rule before = .ok (index, after) → Phrase before index after

variable {expression operand : Rule} {joins : Operator → Bool}

theorem subfactor_laysOut (h : LaysOut expression) : LaysOut (subfactor expression) := by
  intro before index after hs
  unfold subfactor at hs
  split at hs
  · cases hs
  · rename_i ready hsign
    unfold negated at hs
    split at hs
    · cases hs
    · rename_i x after hnext
      cases hs
      exact .negative hsign hnext
    · cases hs
  · rename_i x ready hnext
    cases hs
    exact .number hnext
  · rename_i ready hopen
    obtain ⟨⟨index, inside⟩, hinside, hs⟩ := Outcome.bind_ok hs
    obtain ⟨after, hclose, hs⟩ := Outcome.bind_ok hs
    cases hs
    exact (h hinside).group hopen (close_ok hclose)
  · rename_i name ready hopen
    obtain ⟨⟨index, inside⟩, hinside, hs⟩ := Outcome.bind_ok hs
    obtain ⟨after, hclose, hs⟩ := Outcome.bind_ok hs
    cases hs
    exact (h hinside).call hopen (close_ok hclose)
  · cases hs

theorem factor_laysOut (h : LaysOut expression) : LaysOut (factor expression) := by
  intro before index after hf
  obtain ⟨⟨operand, inside⟩, hoperand, hf⟩ := Outcome.bind_ok hf
  have hphrase := subfactor_laysOut h hoperand
  simp only at hf
  split at hf
  · rename_i hpeek
    cases hf
    exact hphrase.factorial (next_of_peek hpeek)
  · cases hf
    exact hphrase

/-- The operand so far, with its tree, grows by an operator and an operand a round. -/
theorem chain_phrase (h : LaysOut operand) {rounds left : Nat} (hl : Phrase before left inside)
    (hc : chain operand joins rounds left inside = .ok (index, after)) :
    Phrase before index after := by
  induction rounds generalizing left inside with
  | zero =>
    cases hc
    exact hl
  | succ rounds ih =>
    unfold chain at hc
    split at hc
    · rename_i op hpeek
      split at hc
      · obtain ⟨⟨right, next⟩, hright, hc⟩ := Outcome.bind_ok hc
        exact ih (hl.binary (next_of_peek hpeek) (h hright)) hc
      · cases hc
        exact hl
    · cases hc
      exact hl

theorem joined_laysOut (h : LaysOut operand) : LaysOut (joined operand joins) := by
  intro before index after hj
  obtain ⟨⟨left, inside⟩, hleft, hj⟩ := Outcome.bind_ok hj
  exact chain_phrase h (h hleft) hj

theorem term_laysOut (h : LaysOut expression) : LaysOut (term expression) :=
  joined_laysOut (factor_laysOut h)

/-- The induction is on how deep groups may lie within each other. -/
theorem expression_laysOut (depth : Nat) : LaysOut (Parser.expression depth) := by
  induction depth with
  | zero =>
    intro before index after he
    cases he
  | succ depth ih => exact joined_laysOut (term_laysOut ih)

end Parser

namespace Tree

/-- The tree of no token is a leaf for nothing, which counts as zero. -/
theorem ofTokens_nil : Tree.ofTokens [] = .ok ⟨⟨#[.leaf .nothing]⟩, 0⟩ := rfl

theorem ofTokens_adds {ts : List Token} {tree : Tree} (h : Tree.ofTokens ts = .ok tree) :
    ∃ nodes, Arena.Adds {} tree.root tree.arena nodes ∧
      (ts ≠ [] → nodes = Token.onNodes true ts) := by
  unfold Tree.ofTokens at h
  split at h
  · rename_i hempty
    cases h
    exact ⟨_, .leaf {} .nothing, fun hne => absurd (List.isEmpty_iff.mp hempty) hne⟩
  · obtain ⟨⟨root, after⟩, hroot, h⟩ := Outcome.bind_ok h
    simp only at h
    split at h
    · cases h
    · rename_i hpeek
      cases h
      obtain ⟨read, nodes, hread, hoperand, hadds⟩ := Parser.expression_laysOut _ hroot
      rw [List.head?_eq_none_iff.mp hpeek, List.append_nil] at hread
      obtain rfl : ts = read := hread
      have hon := hoperand []
      rw [List.append_nil, Token.onNodes, List.append_nil] at hon
      exact ⟨nodes, hadds, fun _ => hon.symm⟩

/-- The tree of any tokens is listed in post-order. Where there are tokens, its nodes carry those
that have a node, each of them once. -/
theorem ofTokens_isPostorder {ts : List Token} {tree : Tree} (h : Tree.ofTokens ts = .ok tree) :
    tree.IsPostorder ∧ (ts ≠ [] → tree.arena.tokens.Perm (Token.onNodes true ts)) := by
  obtain ⟨nodes, hadds, hnodes⟩ := ofTokens_adds h
  refine ⟨isPostorder_of_postorder hadds.last hadds.postorder, ?_⟩
  intro hne
  rw [← hnodes hne]
  exact hadds.carries

/-- In `-1 - same(2)!` the first minus sign has no node, the second has one. -/
theorem ofTokens_isPostorder_minus :
    ∃ tree, Tree.ofTokens [.operator .sub, .number .one, .operator .sub, .function "same",
        .number .two, .parenClose, .factorial] = .ok tree ∧ tree.IsPostorder ∧
      tree.arena.tokens.Perm
        [.number Decimal.one.negate, .operator .sub, .function "same", .number .two,
          .factorial] := by
  obtain ⟨tree, htree⟩ : ∃ tree, Tree.ofTokens [.operator .sub, .number .one, .operator .sub,
      .function "same", .number .two, .parenClose, .factorial] = .ok tree := ⟨_, rfl⟩
  obtain ⟨hpost, htokens⟩ := ofTokens_isPostorder htree
  exact ⟨tree, htree, hpost, htokens (List.cons_ne_nil _ _)⟩

theorem ofTokens_postorder {tokens : List Token} {tree : Tree}
    (h : Tree.ofTokens tokens = .ok tree) :
    tree.arena.Built ∧ tree.root + 1 = tree.arena.size ∧ tree.arena.Postorder 0 tree.root := by
  obtain ⟨_, hadds, _⟩ := ofTokens_adds h
  exact ⟨hadds.built .empty, hadds.last, hadds.postorder⟩

end Tree

end DeskCalculator
