/-
**The finishing order of a depth-first search.**

A list of nodes, newest first, in which every successor of a node was finished before it. The nodes
below it are then closed under successors and have no cycle, which a weight makes usable.

Main result: `ordered_weight`.
-/

import Mathlib.Tactic.Ring
import Mathlib.Algebra.BigOperators.Group.List.Basic

namespace KernelImx.Lib

open Function List

variable {α : Type*}

/-- Every successor of a node comes later in the list. -/
def Ordered (succs : α → List α) : List α → Prop
  | [] => True
  | a :: rest => (∀ b ∈ succs a, b ∈ rest) ∧ Ordered succs rest

section Order

variable {succs : α → List α}

theorem ordered_succs {order : List α} (ordered : Ordered succs order) {a b : α}
    (finished : a ∈ order) (edge : b ∈ succs a) : b ∈ order := by
  induction order with
  | nil => cases finished
  | cons first rest ih =>
    rcases mem_cons.mp finished with rfl | finished
    · exact mem_cons_of_mem _ (ordered.1 b edge)
    · exact mem_cons_of_mem _ (ih ordered.2 finished)

/-- **The finished nodes are closed.** -/
theorem ordered_closed {order : List α} (ordered : Ordered succs order) {a b : α}
    (finished : a ∈ order) (reach : Relation.ReflTransGen (fun a b => b ∈ succs a) a b) :
    b ∈ order := by
  induction reach with
  | refl => exact finished
  | tail _ edge ih => exact ordered_succs ordered ih edge

/-- **A weight for the finished nodes.** -/
theorem ordered_weight [DecidableEq α] {order : List α} (ordered : Ordered succs order) :
    ∃ weight : α → Nat, ∀ a ∈ order, ((succs a).map weight).sum < weight a := by
  induction order with
  | nil => exact ⟨fun _ => 0, nofun⟩
  | cons first rest ih =>
    obtain ⟨weight, heavier⟩ := ih ordered.2
    by_cases old : first ∈ rest
    · exact ⟨weight, forall_mem_cons.mpr ⟨heavier first old, heavier⟩⟩
    -- the new node is no successor of the others, so their sums stay
    refine ⟨update weight first (((succs first).map weight).sum + 1), fun a member => ?_⟩
    have same : ∀ c ∈ first :: rest, ((succs c).map
        (update weight first (((succs first).map weight).sum + 1))).sum =
          ((succs c).map weight).sum := by
      intro c finished
      refine congrArg sum (map_congr_left fun b edge => ?_)
      have below : b ∈ rest := by
        rcases mem_cons.mp finished with rfl | finished
        · exact ordered.1 b edge
        · exact ordered_succs ordered.2 finished edge
      exact update_of_ne (ne_of_mem_of_not_mem below old) _ _
    rw [same a member]
    rcases mem_cons.mp member with rfl | below
    · rw [update_self]
      exact Nat.lt_succ_self _
    · rw [update_of_ne (ne_of_mem_of_not_mem below old)]
      exact heavier a below

end Order

end KernelImx.Lib
