/-
**Search trees up to their shape.**

What a program sees of a balanced tree is the order of its nodes and the path a search takes; how
the balancing shapes the tree is left to the environment (`Rebalance`).
-/

import Mathlib.Data.Tree.Basic
import Mathlib.Data.List.Count

namespace KernelImx.Lib

open BinaryTree Option List

variable {α : Type*}

/-- The nodes in order. -/
def inOrder : BinaryTree α → List α
  | .nil => []
  | .node value left right => inOrder left ++ value :: inOrder right

def spine : List α → BinaryTree α
  | [] => .nil
  | value :: rest => .node value .nil (spine rest)

/-- A balancing keeps the order of the nodes. -/
structure Rebalance (α : Type*) where
  run : BinaryTree α → BinaryTree α
  inOrder_run : ∀ tree, inOrder (run tree) = inOrder tree

def Rebalance.id : Rebalance α := ⟨fun tree => tree, fun _ => rfl⟩

/-- Links a new leaf. At each node of the path `visit` says whether to go left; `none` rejects the
node. -/
def linkLeaf (visit : α → Option Bool) (new : α) : BinaryTree α → Option (BinaryTree α)
  | .nil => some (.node new .nil .nil)
  | .node value left right =>
    match visit value with
    | none => none
    | some true => (linkLeaf visit new left).map fun left => .node value left right
    | some false => (linkLeaf visit new right).map fun right => .node value left right

/-- The node of the path that `visit` rejects. -/
def searchNode (visit : α → Option Bool) : BinaryTree α → Option α
  | .nil => none
  | .node value left right =>
    match visit value with
    | none => some value
    | some true => searchNode visit left
    | some false => searchNode visit right

/-- A node is taken out. -/
def eraseNode [DecidableEq α] (balance : Rebalance α) (value : α) (tree : BinaryTree α) :
    BinaryTree α :=
  balance.run (spine ((inOrder tree).erase value))

@[simp] theorem inOrder_spine (values : List α) : inOrder (spine values) = values := by
  induction values with
  | nil => rfl
  | cons value rest ih => simp [spine, inOrder, ih]

@[simp] theorem inOrder_eraseNode [DecidableEq α] (balance : Rebalance α) (value : α)
    (tree : BinaryTree α) : inOrder (eraseNode balance value tree) = (inOrder tree).erase value := by
  rw [eraseNode, balance.inOrder_run, inOrder_spine]

theorem perm_eraseNode [DecidableEq α] {value : α} {tree : BinaryTree α} {rest : List α}
    (nodes : (inOrder tree).Perm (value :: rest)) (balance : Rebalance α) :
    (inOrder (eraseNode balance value tree)).Perm rest := by
  rw [inOrder_eraseNode]
  exact erase_cons_head value rest ▸ nodes.erase value

/-- **A link adds one node**, when no node is rejected. -/
theorem linkLeaf_spec {visit : α → Option Bool} (new : α) {tree : BinaryTree α}
    (accepts : ∀ value ∈ inOrder tree, (visit value).isSome) :
    ∃ linked, linkLeaf visit new tree = some linked ∧
      (inOrder linked).Perm (new :: inOrder tree) := by
  induction tree with
  | nil => exact ⟨_, rfl, .refl _⟩
  | node value left right leftIh rightIh =>
    simp only [inOrder, forall_mem_append, forall_mem_cons] at accepts
    obtain ⟨inLeft, here, inRight⟩ := accepts
    obtain ⟨goesLeft, visited⟩ := isSome_iff_exists.mp here
    cases goesLeft with
    | true =>
      obtain ⟨linked, links, nodes⟩ := leftIh inLeft
      refine ⟨.node value linked right, ?_, nodes.append_right _⟩
      rw [linkLeaf, visited, links]
      rfl
    | false =>
      obtain ⟨linked, links, nodes⟩ := rightIh inRight
      refine ⟨.node value left linked, ?_, ?_⟩
      · rw [linkLeaf, visited, links]
        rfl
      · exact (((nodes.cons value).trans (.swap ..)).append_left _).trans perm_middle

end KernelImx.Lib
