import Mathlib.Data.Tree.Basic
import Mathlib.Order.Defs.PartialOrder

/-! The order and the balance of binary trees. -/
namespace Foundation

variable {α : Type} {t l r : BinaryTree α} {x : α}

def inOrder : BinaryTree α → List α
  | .nil => []
  | .node x l r => inOrder l ++ x :: inOrder r

/-- At every node the heights of the two subtrees differ by at most one. -/
def Balanced : BinaryTree α → Prop
  | .nil => True
  | .node _ l r => (l.height ≤ r.height + 1 ∧ r.height ≤ l.height + 1) ∧ Balanced l ∧ Balanced r

section
variable [Preorder α]

/-- At every node nothing in the left subtree is greater, and nothing in the right one less. -/
def Ordered : BinaryTree α → Prop
  | .nil => True
  | .node x l r => (∀ y ∈ inOrder l, y ≤ x) ∧ (∀ y ∈ inOrder r, x ≤ y) ∧ Ordered l ∧ Ordered r

theorem ordered_iff_pairwise (t : BinaryTree α) : Ordered t ↔ (inOrder t).Pairwise (· ≤ ·) := by
  induction t with
  | nil => exact iff_of_true trivial .nil
  | node x l r hl hr =>
    rw [Ordered, inOrder]
    rw [hl, hr, List.pairwise_append, List.pairwise_cons]
    constructor
    · rintro ⟨hle, hge, hlsorted, hrsorted⟩
      refine ⟨hlsorted, ⟨hge, hrsorted⟩, ?_⟩
      intro y hy
      rw [List.forall_mem_cons]
      exact ⟨hle y hy, fun z hz => le_trans (hle y hy) (hge z hz)⟩
    · rintro ⟨hlsorted, ⟨hge, hrsorted⟩, hacross⟩
      exact ⟨fun y hy => hacross y hy x List.mem_cons_self, hge, hlsorted, hrsorted⟩

end

end Foundation
