import DeskCalculator.Proofs.Parser

namespace DeskCalculator

/-- An outcome stored for an earlier node. -/
def Node.fetch (stored : Array (Except Fault Decimal)) (i : Nat) : Except Fault Decimal :=
  stored[i]?.getD (.error (.unexpected s!"node {i} has no outcome yet"))

/-- The outcome of a node, out of those stored for its children. A fault of the left child goes
before one of the right child, and either before the node's own. -/
def Node.outcome (limits : Limits) (stored : Array (Except Fault Decimal)) :
    Node → Except Fault Decimal
  | leaf token => .ok (leafValue token)
  | unary token child =>
    match fetch stored child with
    | .error fault => .error fault
    | .ok x => applyUnary limits token x
  | dual token left right =>
    match fetch stored left, fetch stored right with
    | .error fault, _ => .error fault
    | .ok _, .error fault => .error fault
    | .ok x, .ok y => applyDual token x y

theorem Node.child_mem (token : Token) (child : Nat) : child ∈ (unary token child).children :=
  List.mem_singleton_self child

theorem Node.left_mem (token : Token) (left right : Nat) :
    left ∈ (dual token left right).children :=
  List.mem_cons_self

theorem Node.right_mem (token : Token) (left right : Nat) :
    right ∈ (dual token left right).children :=
  List.mem_cons_of_mem _ (List.mem_singleton_self right)

theorem Node.applyUnary_unknown {limits : Limits} {token : Token} {x : Decimal}
    (hf : token ≠ .factorial) (hn : ∀ name, token ≠ .function name) :
    applyUnary limits token x = .error (.unknownUnaryOperator token.text) := by
  cases token with
  | factorial => exact absurd rfl hf
  | function name => exact absurd rfl (hn name)
  | nothing | number _ | parenOpen | parenClose | operator _ => rfl

theorem Node.applyDual_unknown {token : Token} {x y : Decimal}
    (ho : ∀ op, token ≠ .operator op) :
    applyDual token x y = .error (.unknownOperator token.text) := by
  cases token with
  | operator op => exact absurd rfl (ho op)
  | nothing | number _ | parenOpen | parenClose | factorial | function _ => rfl

namespace Arena

/-- The outcomes of all nodes, stored one after another. -/
def outcomes (limits : Limits) (arena : Arena) : Array (Except Fault Decimal) :=
  arena.nodes.foldl (fun stored node => stored.push (node.outcome limits stored)) #[]

/-- The recursion from a node, rule by rule: that it ends means that a finite tree of rules leads
to its outcome. -/
inductive Evaluates (limits : Limits) (arena : Arena) : Nat → Except Fault Decimal → Prop where
  | leaf {i : Nat} {token : Token} (found : arena.nodes[i]? = some (.leaf token)) :
      Evaluates limits arena i (.ok (Node.leafValue token))
  | childFault {i child : Nat} {token : Token} {fault : Fault}
      (found : arena.nodes[i]? = some (.unary token child))
      (below : Evaluates limits arena child (.error fault)) :
      Evaluates limits arena i (.error fault)
  | factorial {i child : Nat} {x : Decimal}
      (found : arena.nodes[i]? = some (.unary .factorial child))
      (below : Evaluates limits arena child (.ok x)) : Evaluates limits arena i x.factorial
  | call {i child : Nat} {name : String} {x : Decimal}
      (found : arena.nodes[i]? = some (.unary (.function name) child))
      (below : Evaluates limits arena child (.ok x)) :
      Evaluates limits arena i (NamedFunction.call limits name x)
  | unknownUnary {i child : Nat} {token : Token} {x : Decimal}
      (found : arena.nodes[i]? = some (.unary token child))
      (below : Evaluates limits arena child (.ok x)) (hf : token ≠ .factorial)
      (hn : ∀ name, token ≠ .function name) :
      Evaluates limits arena i (.error (.unknownUnaryOperator token.text))
  | leftFault {i left right : Nat} {token : Token} {fault : Fault}
      (found : arena.nodes[i]? = some (.dual token left right))
      (first : Evaluates limits arena left (.error fault)) :
      Evaluates limits arena i (.error fault)
  | rightFault {i left right : Nat} {token : Token} {x : Decimal} {fault : Fault}
      (found : arena.nodes[i]? = some (.dual token left right))
      (first : Evaluates limits arena left (.ok x))
      (second : Evaluates limits arena right (.error fault)) :
      Evaluates limits arena i (.error fault)
  | operator {i left right : Nat} {op : Operator} {x y : Decimal}
      (found : arena.nodes[i]? = some (.dual (.operator op) left right))
      (first : Evaluates limits arena left (.ok x))
      (second : Evaluates limits arena right (.ok y)) : Evaluates limits arena i (op.apply x y)
  | unknown {i left right : Nat} {token : Token} {x y : Decimal}
      (found : arena.nodes[i]? = some (.dual token left right))
      (first : Evaluates limits arena left (.ok x))
      (second : Evaluates limits arena right (.ok y)) (ho : ∀ op, token ≠ .operator op) :
      Evaluates limits arena i (.error (.unknownOperator token.text))

/-- The pass finds values for the children of a node, and a fault in its own operation. -/
def FailsAt (limits : Limits) (arena : Arena) (i : Nat) (fault : Fault) : Prop :=
  ∃ node, arena.nodes[i]? = some node ∧
    (∀ child ∈ node.children, ∃ x, (arena.outcomes limits)[child]? = some (.ok x)) ∧
    (arena.outcomes limits)[i]? = some (.error fault)

variable {limits : Limits} {arena : Arena} {a b i j : Nat} {node : Node}

theorem outcomes_push (limits : Limits) (arena : Arena) (node : Node) :
    (arena.push node).1.outcomes limits =
      (arena.outcomes limits).push (node.outcome limits (arena.outcomes limits)) :=
  Array.foldl_push ..

theorem Built.size_outcomes (h : arena.Built) (limits : Limits) :
    (arena.outcomes limits).size = arena.size := by
  induction h with
  | empty => rfl
  | push before node children ih =>
    rw [outcomes_push, Array.size_push, ih, size_push]

/-- The outcome of a node rests on those of its children alone. -/
theorem outcome_push (limits : Limits) (stored : Array (Except Fault Decimal))
    (r : Except Fault Decimal) (children : ∀ child ∈ node.children, child < stored.size) :
    node.outcome limits (stored.push r) = node.outcome limits stored := by
  have hold {child : Nat} (hc : child ∈ node.children) :
      Node.fetch (stored.push r) child = Node.fetch stored child := by
    rw [Node.fetch, Node.fetch, Array.getElem?_push, if_neg (Nat.ne_of_lt (children child hc))]
  cases node with
  | leaf token => rfl
  | unary token child =>
    rw [Node.outcome, Node.outcome, hold (Node.child_mem token child)]
  | dual token left right =>
    rw [Node.outcome, Node.outcome, hold (Node.left_mem token left right),
      hold (Node.right_mem token left right)]

/-- What is stored for a node is its outcome out of all that is stored in the end. -/
theorem Built.outcomes_found (h : arena.Built) (limits : Limits)
    (found : arena.nodes[i]? = some node) :
    (arena.outcomes limits)[i]? = some (node.outcome limits (arena.outcomes limits)) := by
  induction h with
  | empty => simp at found
  | @push arena before pushed children ih =>
    have hsize := before.size_outcomes limits
    rw [outcomes_push]
    rcases found_of_push found with old | ⟨rfl, rfl⟩
    · have hi : i < arena.size := (Array.getElem?_eq_some_iff.mp old).choose
      have children' : ∀ child ∈ node.children, child < (arena.outcomes limits).size := by
        intro child hc
        have := before.child_lt old hc
        omega
      rw [Array.getElem?_push_lt (hsize ▸ hi), outcome_push _ _ _ children', ← ih old,
        Array.getElem?_eq_getElem (hsize ▸ hi)]
    · rw [outcome_push _ _ _ (hsize ▸ children), ← hsize, Array.getElem?_push_size]

theorem Evaluates.unary {child : Nat} {token : Token} {x : Decimal}
    (found : arena.nodes[i]? = some (.unary token child))
    (below : arena.Evaluates limits child (.ok x)) :
    arena.Evaluates limits i (Node.applyUnary limits token x) := by
  cases token with
  | factorial => exact .factorial found below
  | function name => exact .call found below
  | nothing | number _ | parenOpen | parenClose | operator _ =>
    exact .unknownUnary found below Token.noConfusion (fun _ => Token.noConfusion)

theorem Evaluates.dual {left right : Nat} {token : Token} {x y : Decimal}
    (found : arena.nodes[i]? = some (.dual token left right))
    (first : arena.Evaluates limits left (.ok x))
    (second : arena.Evaluates limits right (.ok y)) :
    arena.Evaluates limits i (Node.applyDual token x y) := by
  cases token with
  | operator op => exact .operator found first second
  | nothing | number _ | parenOpen | parenClose | factorial | function _ =>
    exact .unknown found first second (fun _ => Token.noConfusion)

theorem Built.fetch_found (h : arena.Built) (limits : Limits)
    (found : arena.nodes[i]? = some node) :
    Node.fetch (arena.outcomes limits) i = node.outcome limits (arena.outcomes limits) := by
  rw [Node.fetch, h.outcomes_found limits found, Option.getD_some]

/-- The recursion from a node ends, with what the pass stores for it. -/
theorem Built.evaluates (h : arena.Built) (found : arena.nodes[i]? = some node) :
    arena.Evaluates limits i (node.outcome limits (arena.outcomes limits)) := by
  induction i using Nat.strongRecOn generalizing node with
  | ind i ih =>
    have below {child : Nat} (hc : child ∈ node.children) :
        arena.Evaluates limits child (Node.fetch (arena.outcomes limits) child) := by
      have hlt := h.child_lt found hc
      have hi := (Array.getElem?_eq_some_iff.mp found).choose
      have foundChild := Array.getElem?_eq_getElem (Nat.lt_trans hlt hi)
      rw [h.fetch_found limits foundChild]
      exact ih child hlt foundChild
    cases node with
    | leaf token => exact .leaf found
    | unary token child =>
      have hb := below (Node.child_mem token child)
      rw [Node.outcome]
      cases hr : Node.fetch (arena.outcomes limits) child with
      | error fault => exact .childFault found (hr ▸ hb)
      | ok x => exact .unary found (hr ▸ hb)
    | dual token left right =>
      have hl := below (Node.left_mem token left right)
      have hr := below (Node.right_mem token left right)
      rw [Node.outcome]
      cases hx : Node.fetch (arena.outcomes limits) left with
      | error fault => exact .leftFault found (hx ▸ hl)
      | ok x =>
        cases hy : Node.fetch (arena.outcomes limits) right with
        | error fault => exact .rightFault found (hx ▸ hl) (hy ▸ hr)
        | ok y => exact .dual found (hx ▸ hl) (hy ▸ hr)

theorem evalWithin_leaf {token : Token} (found : arena.nodes[i]? = some (.leaf token))
    (depth : Nat) : arena.evalWithin limits (depth + 1) i = .ok (Node.leafValue token) := by
  simp [evalWithin, found]

theorem evalWithin_unary {token : Token} {child : Nat}
    (found : arena.nodes[i]? = some (.unary token child)) (depth : Nat) :
    arena.evalWithin limits (depth + 1) i =
      arena.evalWithin limits depth child >>= Node.applyUnary limits token := by
  simp [evalWithin, found]

theorem evalWithin_dual {token : Token} {left right : Nat}
    (found : arena.nodes[i]? = some (.dual token left right)) (depth : Nat) :
    arena.evalWithin limits (depth + 1) i =
      arena.evalWithin limits depth left >>= fun x =>
        arena.evalWithin limits depth right >>= Node.applyDual token x := by
  simp [evalWithin, found]

/-- A chain of children descends, so that it is no longer than the place it starts from. -/
theorem Evaluates.evalWithin {r : Except Fault Decimal} (h : arena.Evaluates limits i r)
    (hb : arena.Built) {depth : Nat} (hd : i < depth) : arena.evalWithin limits depth i = r := by
  have inner {i child depth : Nat} {node : Node} (found : arena.nodes[i]? = some node)
      (hc : child ∈ node.children) (hd : i < depth + 1) : child < depth := by
    have := hb.child_lt found hc
    omega
  induction h generalizing depth with
    obtain ⟨depth, rfl⟩ := Nat.exists_eq_succ_of_ne_zero (Nat.ne_zero_of_lt hd)
  | leaf found => exact evalWithin_leaf found depth
  | childFault found _ ih =>
    rw [evalWithin_unary found, ih (inner found (Node.child_mem _ _) hd)]
    rfl
  | factorial found _ ih | call found _ ih =>
    rw [evalWithin_unary found, ih (inner found (Node.child_mem _ _) hd)]
    rfl
  | unknownUnary found _ hf hn ih =>
    rw [evalWithin_unary found, ih (inner found (Node.child_mem _ _) hd), Outcome.ok_bind,
      Node.applyUnary_unknown hf hn]
  | leftFault found _ ih =>
    rw [evalWithin_dual found, ih (inner found (Node.left_mem _ _ _) hd)]
    rfl
  | rightFault found _ _ ihl ihr | operator found _ _ ihl ihr =>
    rw [evalWithin_dual found, ihl (inner found (Node.left_mem _ _ _) hd),
      Outcome.ok_bind, ihr (inner found (Node.right_mem _ _ _) hd)]
    rfl
  | unknown found _ _ ho ihl ihr =>
    rw [evalWithin_dual found, ihl (inner found (Node.left_mem _ _ _) hd),
      Outcome.ok_bind, ihr (inner found (Node.right_mem _ _ _) hd), Outcome.ok_bind,
      Node.applyDual_unknown ho]

/-- The recursion ends with one outcome, which evaluation gives. -/
theorem Built.evaluates_iff (h : arena.Built) (hi : i < arena.size) {r : Except Fault Decimal} :
    arena.Evaluates limits i r ↔ arena.eval limits i = r := by
  constructor
  · intro he
    exact he.evalWithin h hi
  · rintro rfl
    have found : arena.nodes[i]? = some (arena.nodes[i]) := Array.getElem?_eq_getElem hi
    have he : arena.Evaluates limits i _ := h.evaluates found
    rw [eval, he.evalWithin h hi]
    exact he

theorem Built.outcomes_eq_eval (h : arena.Built) (limits : Limits) (hi : i < arena.size) :
    (arena.outcomes limits)[i]? = some (arena.eval limits i) := by
  have found : arena.nodes[i]? = some (arena.nodes[i]) := Array.getElem?_eq_getElem hi
  rw [h.outcomes_found limits found, (h.evaluates_iff hi).mp (h.evaluates found)]

/-- The pass stores a value for each node from place `a` up to before place `b`. -/
def HasValues (limits : Limits) (arena : Arena) (a b : Nat) : Prop :=
  ∀ j, a ≤ j → j < b → ∃ x, (arena.outcomes limits)[j]? = some (.ok x)

theorem HasValues.append {c : Nat} (hab : arena.HasValues limits a b)
    (hbc : arena.HasValues limits b c) : arena.HasValues limits a c := by
  intro j ha hc
  rcases Nat.lt_or_ge j b with hj | hj
  · exact hab j ha hj
  · exact hbc j hj hc

theorem HasValues.snoc {x : Decimal} (h : arena.HasValues limits a i)
    (stored : (arena.outcomes limits)[i]? = some (.ok x)) :
    arena.HasValues limits a (i + 1) := by
  refine h.append ?_
  intro j hi hj
  obtain rfl : j = i := by omega
  exact ⟨x, stored⟩

theorem HasValues.not_failsAt {fault : Fault} (h : arena.HasValues limits a b) (ha : a ≤ j)
    (hb : j < b) : ¬ arena.FailsAt limits j fault := by
  intro hf
  obtain ⟨node, _, _, hfault⟩ := hf
  obtain ⟨x, hx⟩ := h j ha hb
  rw [hfault] at hx
  cases hx

/-- What the outcome at the root tells of a tree that begins at place `a`: that there are values
throughout, or which fault the first node has that fails by itself. -/
def Tells (limits : Limits) (arena : Arena) (a i : Nat) : Except Fault Decimal → Prop
  | .ok _ => arena.HasValues limits a (i + 1)
  | .error fault => ∃ j ≤ i, arena.HasValues limits a j ∧ arena.FailsAt limits j fault

/-- Where all is well below a node, its own operation decides. -/
theorem Built.tells_of_hasValues (h : arena.Built) (found : arena.nodes[i]? = some node)
    (below : arena.HasValues limits a i) (children : ∀ child ∈ node.children, a ≤ child) :
    arena.Tells limits a i (Node.fetch (arena.outcomes limits) i) := by
  have stored := h.outcomes_found limits found
  rw [h.fetch_found limits found]
  cases hr : node.outcome limits (arena.outcomes limits) with
  | ok x => exact below.snoc (hr ▸ stored)
  | error fault =>
    refine ⟨i, Nat.le_refl i, below, node, found, ?_, hr ▸ stored⟩
    intro child hc
    exact below child (children child hc) (h.child_lt found hc)

theorem Postorder.tells (h : arena.Postorder a i) (hb : arena.Built) :
    arena.Tells limits a i (Node.fetch (arena.outcomes limits) i) := by
  induction h with
  | leaf found =>
    exact hb.tells_of_hasValues found (fun j ha hi => absurd hi (Nat.not_lt.mpr ha))
      (List.forall_mem_nil _)
  | unary below found ih =>
    rename_i a child token
    cases hr : Node.fetch (arena.outcomes limits) child with
    | ok x =>
      rw [hr] at ih
      exact hb.tells_of_hasValues found ih (List.forall_mem_singleton.mpr below.le)
    | error fault =>
      rw [hr] at ih
      obtain ⟨j, hj, values, fails⟩ := ih
      rw [hb.fetch_found limits found, Node.outcome, hr]
      exact ⟨j, by omega, values, fails⟩
  | dual first second found ihl ihr =>
    rename_i a left right token
    -- the left operand stands first in the row: its fault hides one in the right operand
    cases hl : Node.fetch (arena.outcomes limits) left with
    | error fault =>
      rw [hl] at ihl
      obtain ⟨j, hj, values, fails⟩ := ihl
      have := second.le
      rw [hb.fetch_found limits found, Node.outcome, hl]
      exact ⟨j, by omega, values, fails⟩
    | ok x =>
      rw [hl] at ihl
      cases hr : Node.fetch (arena.outcomes limits) right with
      | error fault =>
        rw [hr] at ihr
        obtain ⟨j, hj, values, fails⟩ := ihr
        rw [hb.fetch_found limits found, Node.outcome, hl, hr]
        exact ⟨j, by omega, HasValues.append ihl values, fails⟩
      | ok y =>
        rw [hr] at ihr
        have := first.le
        have := second.le
        refine hb.tells_of_hasValues found (HasValues.append ihl ihr)
          (List.forall_mem_cons.mpr ⟨?_, List.forall_mem_singleton.mpr ?_⟩) <;> omega

theorem FailsAt.lt_size {fault : Fault} (h : arena.FailsAt limits i fault) : i < arena.size := by
  obtain ⟨_, found, _⟩ := h
  exact (Array.getElem?_eq_some_iff.mp found).choose

theorem FailsAt.unique {fault other : Fault} (h : arena.FailsAt limits i fault)
    (h' : arena.FailsAt limits i other) : fault = other := by
  obtain ⟨_, _, _, hf⟩ := h
  obtain ⟨_, _, _, ho⟩ := h'
  rw [hf] at ho
  cases ho
  rfl

end Arena

namespace Tree

/-- An evaluation fails at the first node that fails by itself. -/
theorem eval_eq_error_iff {tokens : List Token} {tree : Tree}
    (h : Tree.ofTokens tokens = .ok tree) (limits : Limits) (fault : Fault) :
    tree.eval limits = .error fault ↔
      ∃ i, tree.arena.FailsAt limits i fault ∧
        ∀ j < i, ∀ other, ¬ tree.arena.FailsAt limits j other := by
  obtain ⟨hb, hend, hp⟩ := ofTokens_postorder h
  have tells : tree.arena.Tells limits 0 tree.root _ := hp.tells hb
  have hroot : tree.root < tree.arena.size := by omega
  have heval : Node.fetch (tree.arena.outcomes limits) tree.root = tree.eval limits := by
    rw [Node.fetch, hb.outcomes_eq_eval limits hroot, Option.getD_some]
    rfl
  rw [heval] at tells
  constructor
  · intro he
    rw [he] at tells
    obtain ⟨j, _, values, fails⟩ := tells
    exact ⟨j, fails, fun k hk other => values.not_failsAt (Nat.zero_le k) hk⟩
  · rintro ⟨i, fails, first⟩
    cases he : tree.eval limits with
    | ok x =>
      rw [he] at tells
      have hi := fails.lt_size
      exact absurd fails (tells.not_failsAt (Nat.zero_le i) (by omega))
    | error fault' =>
      rw [he] at tells
      obtain ⟨j, _, values, fails'⟩ := tells
      rcases Nat.lt_trichotomy i j with hlt | rfl | hgt
      · exact absurd fails (values.not_failsAt (Nat.zero_le i) hlt)
      · rw [fails.unique fails']
      · exact absurd fails' (first j hgt fault')

/-- In a row whose children come first, the recursion from any node ends, with the outcome that one
pass over the row stores for the node. The row of a tree that was made of tokens is of that kind,
and an evaluation of the tree fails with the fault of the first node that fails by itself. -/
theorem eval_is_forward_pass (limits : Limits) :
    (∀ arena : Arena, arena.Built → ∀ root < arena.size,
      (∀ r, arena.Evaluates limits root r ↔ arena.eval limits root = r) ∧
        (arena.outcomes limits)[root]? = some (arena.eval limits root)) ∧
    ∀ (tokens : List Token) (tree : Tree), Tree.ofTokens tokens = .ok tree →
      tree.arena.Built ∧ tree.root < tree.arena.size ∧
        ∀ fault, tree.eval limits = .error fault ↔
          ∃ i, tree.arena.FailsAt limits i fault ∧
            ∀ j < i, ∀ other, ¬ tree.arena.FailsAt limits j other := by
  constructor
  · intro arena h root hroot
    exact ⟨fun r => h.evaluates_iff hroot, h.outcomes_eq_eval limits hroot⟩
  · intro tokens tree h
    obtain ⟨hb, hend, _⟩ := ofTokens_postorder h
    exact ⟨hb, by omega, eval_eq_error_iff h limits⟩

/-- A node that two others share, one of them with an operator that stands for no operation; and two
faulty operations in `1/0+f(1)`, of which the first is reported. -/
theorem eval_is_forward_pass_shared :
    (∃ arena : Arena, arena.nodes = #[.leaf (.number Decimal.one), .unary .factorial 0,
        .dual .parenOpen 1 0, .leaf .nothing] ∧
      arena.Evaluates {} 2 (.error (.unknownOperator "(")) ∧
      (Fault.unknownOperator "(").kind = .computing ∧
      (Fault.unknownOperator "(").kind.code = "9999") ∧
    ∃ tree, Tree.ofTokens [.number Decimal.one, .operator .div, .number Decimal.zero,
        .operator .add, .function "f", .number Decimal.one, .parenClose] = .ok tree ∧
      ∃ i, tree.arena.FailsAt {} i .divideByZero ∧
        ∀ j < i, ∀ other, ¬ tree.arena.FailsAt {} j other := by
  constructor
  · have hb : Arena.Built ⟨#[.leaf (.number Decimal.one), .unary .factorial 0,
        .dual .parenOpen 1 0, .leaf .nothing]⟩ :=
      .push (.push (.push (.push .empty (.leaf (.number Decimal.one)) (by decide))
        (.unary .factorial 0) (by decide)) (.dual .parenOpen 1 0) (by decide))
        (.leaf .nothing) (by decide)
    have he := (eval_is_forward_pass {}).1 _ hb 2 (by decide)
    exact ⟨_, rfl, (he.1 _).mpr rfl, rfl, rfl⟩
  · have htree : Tree.ofTokens [.number Decimal.one, .operator .div, .number Decimal.zero,
        .operator .add, .function "f", .number Decimal.one, .parenClose] =
        .ok (Tree.ofExpr (.binary .add (.binary .div (.number Decimal.one) (.number Decimal.zero))
          (.call "f" (.number Decimal.one)))) := rfl
    obtain ⟨_, _, hfault⟩ := (eval_is_forward_pass {}).2 _ _ htree
    exact ⟨_, htree, (hfault .divideByZero).mp rfl⟩

end Tree

end DeskCalculator
