import DeskCalculator.Arena
import DeskCalculator.Proofs.Expr
import DeskCalculator.Proofs.Outcome

namespace DeskCalculator

/-- Lays out an expression at the end of a row; the second part is the place of its node. -/
def Expr.layOut (arena : Arena) : Expr → Arena × Nat
  | .number x => arena.push (.leaf (.number x))
  | .factorial e =>
    let (arena, child) := e.layOut arena
    arena.push (.unary .factorial child)
  | .call name e =>
    let (arena, child) := e.layOut arena
    arena.push (.unary (.function name) child)
  | .binary op l r =>
    let (arena, left) := l.layOut arena
    let (arena, right) := r.layOut arena
    arena.push (.dual (.operator op) left right)

def Tree.ofExpr (e : Expr) : Tree :=
  let (arena, root) := e.layOut {}
  ⟨arena, root⟩

/-- The node at a place, with its children, shows an expression. -/
inductive Arena.Shows (arena : Arena) : Nat → Expr → Prop where
  | number {i : Nat} {x : Decimal} (found : arena.nodes[i]? = some (.leaf (.number x))) :
      Shows arena i (.number x)
  | factorial {i child : Nat} {e : Expr}
      (found : arena.nodes[i]? = some (.unary .factorial child)) (operand : Shows arena child e) :
      Shows arena i (.factorial e)
  | call {i child : Nat} {name : String} {e : Expr}
      (found : arena.nodes[i]? = some (.unary (.function name) child))
      (argument : Shows arena child e) : Shows arena i (.call name e)
  | binary {i left right : Nat} {op : Operator} {l r : Expr}
      (found : arena.nodes[i]? = some (.dual (.operator op) left right))
      (first : Shows arena left l) (second : Shows arena right r) :
      Shows arena i (.binary op l r)

namespace Arena

/-- A place shows at most one expression. -/
theorem Shows.unique {arena : Arena} {i : Nat} {e e' : Expr} (h : arena.Shows i e)
    (h' : arena.Shows i e') : e = e' := by
  induction h generalizing e' with
  | number found => cases h' <;> rename_i found' <;> rw [found] at found' <;> cases found'; rfl
  | factorial found _ ih =>
    cases h' with
    | factorial found' operand =>
      rw [found] at found'
      cases found'
      rw [ih operand]
    | number found' | call found' _ | binary found' _ _ =>
      rw [found] at found'
      cases found'
  | call found _ ih =>
    cases h' with
    | call found' argument =>
      rw [found] at found'
      cases found'
      rw [ih argument]
    | number found' | factorial found' _ | binary found' _ _ =>
      rw [found] at found'
      cases found'
  | binary found _ _ ihl ihr =>
    cases h' with
    | binary found' first second =>
      rw [found] at found'
      cases found'
      rw [ihl first, ihr second]
    | number found' | factorial found' _ | call found' _ =>
      rw [found] at found'
      cases found'

/-- The second row begins with the first. -/
def Extends (before after : Arena) : Prop :=
  ∀ ⦃i : Nat⦄ ⦃node : Node⦄, before.nodes[i]? = some node → after.nodes[i]? = some node

theorem Extends.trans {a b c : Arena} (hab : a.Extends b) (hbc : b.Extends c) : a.Extends c :=
  fun _ _ h => hbc (hab h)

theorem extends_push (arena : Arena) (node : Node) : arena.Extends (arena.push node).1 := by
  intro i n h
  obtain ⟨hi, hn⟩ := Array.getElem?_eq_some_iff.mp h
  rw [push, Array.getElem?_push_lt hi, hn]

theorem push_found (arena : Arena) (node : Node) :
    (arena.push node).1.nodes[(arena.push node).2]? = some node :=
  Array.getElem?_push_size

theorem size_push (arena : Arena) (node : Node) : (arena.push node).1.size = arena.size + 1 :=
  Array.size_push node

/-- A longer row shows what the shorter one does. -/
theorem Shows.extend {before after : Arena} {i : Nat} {e : Expr} (h : before.Shows i e)
    (hx : before.Extends after) : after.Shows i e := by
  induction h with
  | number found => exact .number (hx found)
  | factorial found _ ih => exact .factorial (hx found) ih
  | call found _ ih => exact .call (hx found) ih
  | binary found _ _ ihl ihr => exact .binary (hx found) ihl ihr

end Arena

namespace Expr

theorem layOut_shows (e : Expr) (arena : Arena) :
    arena.Extends (e.layOut arena).1 ∧ (e.layOut arena).1.Shows (e.layOut arena).2 e ∧
      (e.layOut arena).1.size = arena.size + e.count := by
  induction e generalizing arena with
  | number x =>
    exact ⟨arena.extends_push _, .number (arena.push_found _), arena.size_push _⟩
  | factorial e ih =>
    obtain ⟨hx, hs, hc⟩ := ih arena
    refine ⟨hx.trans (Arena.extends_push _ _), ?_, ?_⟩
    · exact .factorial (Arena.push_found _ _) (hs.extend (Arena.extends_push _ _))
    · exact (Arena.size_push _ _).trans (by rw [hc, count]; omega)
  | call name e ih =>
    obtain ⟨hx, hs, hc⟩ := ih arena
    refine ⟨hx.trans (Arena.extends_push _ _), ?_, ?_⟩
    · exact .call (Arena.push_found _ _) (hs.extend (Arena.extends_push _ _))
    · exact (Arena.size_push _ _).trans (by rw [hc, count]; omega)
  | binary op l r ihl ihr =>
    obtain ⟨hxl, hsl, hcl⟩ := ihl arena
    obtain ⟨hxr, hsr, hcr⟩ := ihr (l.layOut arena).1
    have hpush := Arena.extends_push (r.layOut (l.layOut arena).1).1
      (.dual (.operator op) (l.layOut arena).2 (r.layOut (l.layOut arena).1).2)
    refine ⟨(hxl.trans hxr).trans hpush, ?_, ?_⟩
    · exact .binary (Arena.push_found _ _) ((hsl.extend hxr).extend hpush) (hsr.extend hpush)
    · exact (Arena.size_push _ _).trans (by rw [hcr, hcl, count]; omega)

end Expr

/-- Chains of children are no longer than the expression has nodes, so that no node lies too deep
and none is missing. -/
theorem Arena.Shows.evalWithin {arena : Arena} {i : Nat} {e : Expr} (h : arena.Shows i e)
    (limits : Limits) {depth : Nat} (hd : e.count ≤ depth) :
    arena.evalWithin limits depth i = e.eval limits := by
  induction h generalizing depth with
  | number found =>
    cases depth with
    | zero => simp [Expr.count] at hd
    | succ depth => simp [Arena.evalWithin, found, Expr.eval, Node.leafValue]
  | factorial found _ ih =>
    cases depth with
    | zero => simp [Expr.count] at hd
    | succ depth =>
      simp only [Expr.count] at hd
      simp only [Arena.evalWithin, found, Expr.eval, ih (Nat.le_of_succ_le_succ hd)]
      rfl
  | call found _ ih =>
    cases depth with
    | zero => simp [Expr.count] at hd
    | succ depth =>
      simp only [Expr.count] at hd
      simp only [Arena.evalWithin, found, Expr.eval, ih (Nat.le_of_succ_le_succ hd)]
      rfl
  | binary found _ _ ihl ihr =>
    cases depth with
    | zero => simp [Expr.count] at hd
    | succ depth =>
      simp only [Expr.count] at hd
      have hl := @ihl depth (by omega)
      have hr := @ihr depth (by omega)
      simp only [Arena.evalWithin, found, Expr.eval, hl, hr]
      rfl

namespace Tree

theorem ofExpr_shows (e : Expr) : (Tree.ofExpr e).arena.Shows (Tree.ofExpr e).root e :=
  (e.layOut_shows {}).2.1

theorem eval_ofExpr (e : Expr) (limits : Limits) : (Tree.ofExpr e).eval limits = e.eval limits := by
  have hc : (Tree.ofExpr e).arena.size = e.count :=
    (e.layOut_shows {}).2.2.trans (Nat.zero_add _)
  rw [Tree.eval, Arena.eval, hc]
  exact (ofExpr_shows e).evalWithin limits (Nat.le_refl _)

theorem eval_nothing (limits : Limits) :
    Tree.eval ⟨⟨#[.leaf .nothing]⟩, 0⟩ limits = .ok Decimal.zero := rfl

end Tree

end DeskCalculator
