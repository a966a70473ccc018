import DeskCalculator.Proofs.Arena
import Mathlib.Data.List.Perm.Basic
import Mathlib.Logic.ExistsUnique
import Mathlib.Logic.Relation

namespace DeskCalculator

/-- The places that a node refers to, from left to right. -/
def Node.children : Node → List Nat
  | leaf _ => []
  | unary _ child => [child]
  | dual _ left right => [left, right]

namespace Arena

variable {arena : Arena} {a i j k : Nat}

def IsChild (arena : Arena) (parent child : Nat) : Prop :=
  ∃ node, arena.nodes[parent]? = some node ∧ child ∈ node.children

/-- The nodes at and below a place are those at the places from `a` up to before `b`. -/
def Occupies (arena : Arena) (i a b : Nat) : Prop :=
  ∀ j, Relation.ReflTransGen arena.IsChild i j ↔ a ≤ j ∧ j < b

theorem isChild_iff {node : Node} (found : arena.nodes[i]? = some node) :
    arena.IsChild i j ↔ j ∈ node.children := by
  constructor
  · intro h
    obtain ⟨node', found', hj⟩ := h
    rw [found] at found'
    cases found'
    exact hj
  · intro h
    exact ⟨node, found, h⟩

theorem IsChild.lt_size (h : arena.IsChild i j) : i < arena.size := by
  obtain ⟨node, found, _⟩ := h
  exact (Array.getElem?_eq_some_iff.mp found).choose

/-- The nodes from place `a` to place `i` are those of a tree with its root at `i`: the left
subtree, the right subtree, the root. -/
inductive Postorder (arena : Arena) : Nat → Nat → Prop where
  | leaf {i : Nat} {token : Token} (found : arena.nodes[i]? = some (.leaf token)) :
      Postorder arena i i
  | unary {a child : Nat} {token : Token} (below : Postorder arena a child)
      (found : arena.nodes[child + 1]? = some (.unary token child)) :
      Postorder arena a (child + 1)
  | dual {a left right : Nat} {token : Token} (first : Postorder arena a left)
      (second : Postorder arena (left + 1) right)
      (found : arena.nodes[right + 1]? = some (.dual token left right)) :
      Postorder arena a (right + 1)

namespace Postorder

theorem le (h : arena.Postorder a i) : a ≤ i := by
  induction h with
  | leaf _ => exact Nat.le_refl _
  | unary _ _ ih => omega
  | dual _ _ _ ihl ihr => omega

/-- A longer row has the same trees in the same places. -/
theorem extend {after : Arena} (h : arena.Postorder a i) (hx : arena.Extends after) :
    after.Postorder a i := by
  induction h with
  | leaf found => exact .leaf (hx found)
  | unary _ found ih => exact .unary ih (hx found)
  | dual _ _ found ihl ihr => exact .dual ihl ihr (hx found)

/-- Each place within a tree is the root of a tree within it. -/
theorem inner (h : arena.Postorder a i) (hj : a ≤ j) (hji : j ≤ i) :
    ∃ b, a ≤ b ∧ arena.Postorder b j := by
  induction h with
  | leaf found =>
    obtain rfl : j = _ := Nat.le_antisymm hji hj
    exact ⟨j, hj, .leaf found⟩
  | unary below found ih =>
    rcases Nat.lt_or_eq_of_le hji with hlt | rfl
    · exact ih hj (Nat.le_of_lt_succ hlt)
    · exact ⟨_, Nat.le_refl _, .unary below found⟩
  | dual first second found ihl ihr =>
    rename_i a left right token
    rcases Nat.lt_or_eq_of_le hji with hlt | rfl
    · rcases Nat.lt_or_ge left j with hl | hl
      · obtain ⟨b, hb, hp⟩ := ihr hl (Nat.le_of_lt_succ hlt)
        have := first.le
        exact ⟨b, by omega, hp⟩
      · exact ihl hj hl
    · exact ⟨_, Nat.le_refl _, .dual first second found⟩

theorem isChild_root (h : arena.Postorder a i) (hc : arena.IsChild i k) : a ≤ k ∧ k < i := by
  cases h with
  | leaf found =>
    rw [isChild_iff found] at hc
    cases hc
  | unary below found =>
    rw [isChild_iff found] at hc
    obtain rfl := List.mem_singleton.mp hc
    exact ⟨below.le, Nat.lt_succ_self _⟩
  | dual first second found =>
    rw [isChild_iff found] at hc
    have hl := first.le
    have hr := second.le
    rcases List.mem_cons.mp hc with rfl | hc
    · omega
    · obtain rfl := List.mem_singleton.mp hc
      omega

/-- Children stay within the tree, and in front of their parents. -/
theorem isChild_inner (h : arena.Postorder a i) (hj : a ≤ j) (hji : j ≤ i)
    (hc : arena.IsChild j k) : a ≤ k ∧ k < j := by
  obtain ⟨b, hb, hp⟩ := h.inner hj hji
  obtain ⟨hk, hkj⟩ := hp.isChild_root hc
  exact ⟨Nat.le_trans hb hk, hkj⟩

/-- A tree is all that can be reached from its root. -/
theorem occupies (h : arena.Postorder a i) : arena.Occupies i a (i + 1) := by
  intro j
  constructor
  · intro hr
    induction hr with
    | refl => exact ⟨h.le, Nat.lt_succ_self i⟩
    | tail _ hc ih =>
      obtain ⟨hk, hkj⟩ := h.isChild_inner ih.1 (Nat.le_of_lt_succ ih.2) hc
      exact ⟨hk, by omega⟩
  · intro hj
    obtain ⟨hj, hji⟩ := hj
    induction h with
    | leaf found =>
      obtain rfl : j = _ := Nat.le_antisymm (Nat.le_of_lt_succ hji) hj
      exact .refl
    | unary below found ih =>
      rcases Nat.lt_or_eq_of_le (Nat.le_of_lt_succ hji) with hlt | rfl
      · exact .head ((isChild_iff found).mpr (by simp [Node.children])) (ih hj hlt)
      · exact .refl
    | dual first second found ihl ihr =>
      rename_i a left right token
      rcases Nat.lt_or_eq_of_le (Nat.le_of_lt_succ hji) with hlt | rfl
      · rcases Nat.lt_or_ge left j with hl | hl
        · exact .head ((isChild_iff found).mpr (by simp [Node.children])) (ihr hl hlt)
        · exact .head ((isChild_iff found).mpr (by simp [Node.children]))
            (ihl hj (Nat.lt_succ_of_le hl))
      · exact .refl

/-- Within a tree each node but the root is a child. -/
theorem exists_parent (h : arena.Postorder a i) (hj : a ≤ j) (hji : j < i) :
    ∃ parent, (a ≤ parent ∧ parent ≤ i) ∧ arena.IsChild parent j := by
  induction h with
  | leaf found => omega
  | unary below found ih =>
    rcases Nat.lt_or_eq_of_le (Nat.le_of_lt_succ hji) with hlt | rfl
    · obtain ⟨parent, hp, hc⟩ := ih hj hlt
      exact ⟨parent, ⟨hp.1, by omega⟩, hc⟩
    · refine ⟨j + 1, ⟨by omega, Nat.le_refl _⟩, (isChild_iff found).mpr ?_⟩
      simp [Node.children]
  | dual first second found ihl ihr =>
    rename_i a left right token
    have hle := first.le
    have hroot : j = left ∨ j = right → arena.IsChild (right + 1) j := by
      intro hj
      rw [isChild_iff found]
      simpa [Node.children] using hj
    rcases Nat.lt_trichotomy j left with hl | hl | hl
    · obtain ⟨parent, hp, hc⟩ := ihl hj hl
      have := second.le
      exact ⟨parent, ⟨hp.1, by omega⟩, hc⟩
    · exact ⟨right + 1, ⟨by omega, Nat.le_refl _⟩, hroot (Or.inl hl)⟩
    · rcases Nat.lt_or_eq_of_le (Nat.le_of_lt_succ hji) with hlt | hr
      · obtain ⟨parent, hp, hc⟩ := ihr hl hlt
        exact ⟨parent, ⟨by omega, by omega⟩, hc⟩
      · exact ⟨right + 1, ⟨by omega, Nat.le_refl _⟩, hroot (Or.inr hr)⟩

/-- A child of the root is no child of another node of the tree: the child just in front of the root
has no room for another parent, and the right subtree does not reach back to the left one. -/
theorem not_isChild_of_lt (h : arena.Postorder a i) (hk : a ≤ k) (hki : k < i)
    (hi : arena.IsChild i j) : ¬ arena.IsChild k j := by
  intro hc
  have hjk := (h.isChild_inner hk (Nat.le_of_lt hki) hc).2
  cases h with
  | leaf found =>
    rw [isChild_iff found] at hi
    cases hi
  | unary below found =>
    rw [isChild_iff found] at hi
    obtain rfl := List.mem_singleton.mp hi
    omega
  | dual first second found =>
    rw [isChild_iff found] at hi
    rcases List.mem_cons.mp hi with rfl | hi
    · have := (second.isChild_inner hjk (Nat.le_of_lt_succ hki) hc).1
      omega
    · obtain rfl := List.mem_singleton.mp hi
      omega

theorem existsUnique_parent (h : arena.Postorder a i) (hj : a ≤ j) (hji : j < i) :
    ∃! parent, (a ≤ parent ∧ parent ≤ i) ∧ arena.IsChild parent j := by
  have hone {p q : Nat} (hp : (a ≤ p ∧ p ≤ i) ∧ arena.IsChild p j)
      (hq : (a ≤ q ∧ q ≤ i) ∧ arena.IsChild q j) : ¬ p < q := by
    intro hlt
    have hjp := (h.isChild_inner hp.1.1 hp.1.2 hp.2).2
    obtain ⟨b, hb, hpost⟩ := h.inner hq.1.1 hq.1.2
    have hbj := (hpost.isChild_root hq.2).1
    exact hpost.not_isChild_of_lt (by omega) hlt hq.2 hp.2
  obtain ⟨parent, hp⟩ := h.exists_parent hj hji
  refine ⟨parent, hp, ?_⟩
  intro q hq
  exact Nat.le_antisymm (Nat.not_lt.mp (hone hp hq)) (Nat.not_lt.mp (hone hq hp))

/-- A node that is pushed behind a tree becomes its root. -/
theorem push_unary {child : Nat} (h : arena.Postorder a child) (hend : child + 1 = arena.size)
    (token : Token) :
    (arena.push (.unary token child)).1.Postorder a (arena.push (.unary token child)).2 := by
  have hfound := arena.push_found (.unary token child)
  have hplace : (arena.push (.unary token child)).2 = child + 1 := hend.symm
  rw [hplace] at hfound ⊢
  exact .unary (h.extend (arena.extends_push _)) hfound

/-- A node that is pushed behind two trees makes one of them. -/
theorem push_dual {left right : Nat} (hl : arena.Postorder a left)
    (hr : arena.Postorder (left + 1) right) (hend : right + 1 = arena.size) (token : Token) :
    (arena.push (.dual token left right)).1.Postorder a
      (arena.push (.dual token left right)).2 := by
  have hfound := arena.push_found (.dual token left right)
  have hplace : (arena.push (.dual token left right)).2 = right + 1 := hend.symm
  have hx := arena.extends_push (.dual token left right)
  rw [hplace] at hfound ⊢
  exact .dual (hl.extend hx) (hr.extend hx) hfound

end Postorder

/-- A row built by pushing nodes whose children were there already. -/
inductive Built : Arena → Prop where
  | empty : Built {}
  | push {arena : Arena} (before : Built arena) (node : Node)
      (children : ∀ child ∈ node.children, child < arena.size) : Built (arena.push node).1

/-- What stands in a longer row stood there before, or is what was pushed. -/
theorem found_of_push {node pushed : Node}
    (found : (arena.push pushed).1.nodes[i]? = some node) :
    arena.nodes[i]? = some node ∨ i = arena.size ∧ node = pushed := by
  change (arena.nodes.push pushed)[i]? = some node at found
  rw [Array.getElem?_push] at found
  split at found
  · rename_i hi
    exact Or.inr ⟨hi, (Option.some.inj found).symm⟩
  · exact Or.inl found

theorem Built.child_lt (h : arena.Built) {node : Node} {child : Nat}
    (found : arena.nodes[i]? = some node) (hc : child ∈ node.children) : child < i := by
  induction h with
  | empty => simp at found
  | push before pushed children ih =>
    rcases found_of_push found with old | ⟨rfl, rfl⟩
    · exact ih old
    · exact children child hc

/-- The tokens of the nodes, in the order of the row. -/
def tokens (arena : Arena) : List Token := arena.nodes.toList.map Node.token

theorem tokens_push (arena : Arena) (node : Node) :
    (arena.push node).1.tokens = arena.tokens ++ [node.token] := by
  simp [tokens, push]

/-- A tree was added behind what was there, in post-order and with its root at the end. Its nodes
carry the given tokens, in some order. -/
structure Adds (before : Arena) (index : Nat) (after : Arena) (added : List Token) : Prop where
  grows : before.Extends after
  last : index + 1 = after.size
  postorder : after.Postorder before.size index
  carries : after.tokens.Perm (before.tokens ++ added)
  built : before.Built → after.Built

namespace Adds

variable {before middle after : Arena} {ts us : List Token}

theorem perm (h : before.Adds i after ts) (hp : ts.Perm us) : before.Adds i after us :=
  { h with carries := h.carries.trans (hp.append_left _) }

theorem leaf (arena : Arena) (token : Token) :
    arena.Adds (arena.push (.leaf token)).2 (arena.push (.leaf token)).1 [token] where
  grows := arena.extends_push _
  last := (arena.size_push _).symm
  postorder := .leaf (arena.push_found _)
  carries := .of_eq (arena.tokens_push _)
  built h := .push h _ (List.forall_mem_nil _)

theorem unary {child : Nat} (h : before.Adds child after ts) (token : Token) :
    before.Adds (after.push (.unary token child)).2 (after.push (.unary token child)).1
      (ts ++ [token]) where
  grows := h.grows.trans (after.extends_push _)
  last := (after.size_push _).symm
  postorder := h.postorder.push_unary h.last token
  carries := by
    rw [tokens_push, ← List.append_assoc]
    exact h.carries.append_right _
  built hb := by
    refine .push (h.built hb) _ (List.forall_mem_singleton.mpr ?_)
    rw [← h.last]
    exact Nat.lt_succ_self child

/-- The indices of two trees, one behind the other, still hold once both are there. -/
theorem dual {left right : Nat} (hl : before.Adds left middle ts)
    (hr : middle.Adds right after us) (token : Token) :
    before.Adds (after.push (.dual token left right)).2
      (after.push (.dual token left right)).1 (ts ++ token :: us) where
  grows := (hl.grows.trans hr.grows).trans (after.extends_push _)
  last := (after.size_push _).symm
  postorder := by
    have hsecond := hr.postorder
    rw [← hl.last] at hsecond
    exact (hl.postorder.extend hr.grows).push_dual hsecond hr.last token
  carries := by
    have hmiddle := hr.carries.trans (hl.carries.append_right us)
    have htoken : (us ++ [token]).Perm (token :: us) := List.perm_append_singleton token us
    rw [tokens_push]
    refine (hmiddle.append_right [token]).trans ?_
    simp only [List.append_assoc]
    exact (htoken.append_left ts).append_left before.tokens
  built hb := by
    have hle := hr.postorder.le
    have hleft := hl.last
    have hright := hr.last
    refine .push (hr.built (hl.built hb)) _ (List.forall_mem_cons.mpr ⟨?_, ?_⟩)
    · omega
    · exact List.forall_mem_singleton.mpr (by omega)

end Adds

end Arena

namespace Tree

/-- The row is the post-order listing of the tree at the root, and of nothing else. -/
structure IsPostorder (tree : Tree) : Prop where
  root_last : tree.root + 1 = tree.arena.size
  child_before : ∀ ⦃parent child⦄, tree.arena.IsChild parent child → child < parent
  one_parent : ∀ child < tree.root, ∃! parent, tree.arena.IsChild parent child
  unary_behind : ∀ ⦃i token child⦄, tree.arena.nodes[i]? = some (.unary token child) →
    ∃ a, tree.arena.Occupies child a i
  dual_behind : ∀ ⦃i token left right⦄, tree.arena.nodes[i]? = some (.dual token left right) →
    ∃ a b, tree.arena.Occupies left a b ∧ tree.arena.Occupies right b i

theorem isPostorder_of_postorder {tree : Tree} (hend : tree.root + 1 = tree.arena.size)
    (h : tree.arena.Postorder 0 tree.root) : tree.IsPostorder := by
  have hplace {i : Nat} {node : Node} (found : tree.arena.nodes[i]? = some node) :
      i ≤ tree.root := by
    obtain ⟨hi, _⟩ := Array.getElem?_eq_some_iff.mp found
    change i < tree.arena.size at hi
    omega
  have hparent {i j : Nat} (hc : tree.arena.IsChild i j) : 0 ≤ i ∧ i ≤ tree.root := by
    have := hc.lt_size
    omega
  refine ⟨hend, ?_, ?_, ?_, ?_⟩
  · intro parent child hc
    obtain ⟨hlow, hhigh⟩ := hparent hc
    exact (h.isChild_inner hlow hhigh hc).2
  · intro child hlt
    obtain ⟨parent, ⟨_, hc⟩, hu⟩ := h.existsUnique_parent (Nat.zero_le _) hlt
    exact ⟨parent, hc, fun q hq => hu q ⟨hparent hq, hq⟩⟩
  · intro i token child found
    obtain ⟨a, _, hp⟩ := h.inner (Nat.zero_le _) (hplace found)
    cases hp with
    | leaf found' | dual _ _ found' =>
      rw [found] at found'
      cases found'
    | unary below found' =>
      rw [found] at found'
      cases found'
      exact ⟨a, below.occupies⟩
  · intro i token left right found
    obtain ⟨a, _, hp⟩ := h.inner (Nat.zero_le _) (hplace found)
    cases hp with
    | leaf found' | unary _ found' =>
      rw [found] at found'
      cases found'
    | dual first second found' =>
      rw [found] at found'
      cases found'
      exact ⟨a, left + 1, first.occupies, second.occupies⟩

end Tree

end DeskCalculator
