import Mathlib.Data.Tree.Basic
import Mathlib.Order.Bounds.Image
import Mathlib.Order.MinMax
import Mathlib.Order.Nat

/-! The pre-order, the layers and the leaves of binary trees. -/
namespace Foundation

variable {α : Type} {t l r : BinaryTree α} {x : α} {d k : ℕ}

def preOrder : BinaryTree α → List α
  | .nil => []
  | .node x l r => x :: (preOrder l ++ preOrder r)

theorem length_preOrder (t : BinaryTree α) : (preOrder t).length = t.numNodes := by
  induction t with
  | nil => rfl
  | node x l r hl hr =>
    rw [preOrder, List.length_cons, List.length_append, hl, hr, BinaryTree.numNodes]

theorem node_ne_nil (x : α) (l r : BinaryTree α) : BinaryTree.node x l r ≠ .nil := nofun

theorem numNodes_eq_zero_iff : t.numNodes = 0 ↔ t = .nil := by
  cases t with
  | nil => exact iff_of_true rfl rfl
  | node x l r => exact iff_of_false (Nat.succ_ne_zero _) (node_ne_nil x l r)

/-! ### Layers -/

def layer : BinaryTree α → ℕ → List α
  | .nil, _ => []
  | .node x _ _, 0 => [x]
  | .node _ l r, k + 1 => layer l k ++ layer r k

theorem layer_ne_nil_iff : layer t k ≠ [] ↔ k < t.height := by
  induction t generalizing k with
  | nil => exact iff_of_false (fun h => h rfl) (Nat.not_lt_zero k)
  | node x l r hl hr =>
    cases k with
    | zero => exact iff_of_true (List.cons_ne_nil x []) (Nat.succ_pos _)
    | succ k =>
      rw [layer, BinaryTree.height, Nat.succ_lt_succ_iff, lt_max_iff, ← hl, ← hr, ne_eq,
        List.append_eq_nil_iff, not_and_or]

/-- The layers of a tree whose root is at depth `n`. -/
def layerFrom (n : ℕ) (t : BinaryTree α) (k : ℕ) : List α := if n ≤ k then layer t (k - n) else []

theorem layerFrom_zero (t : BinaryTree α) (k : ℕ) : layerFrom 0 t k = layer t k := by
  unfold layerFrom
  rw [if_pos (Nat.zero_le k), Nat.sub_zero]

theorem layerFrom_nil (n k : ℕ) : layerFrom n (.nil : BinaryTree α) k = [] := by
  unfold layerFrom layer
  rw [ite_self]

theorem layerFrom_node (n : ℕ) (x : α) (l r : BinaryTree α) (k : ℕ) :
    layerFrom n (.node x l r) k =
      layerFrom (n + 1) l k ++ layerFrom (n + 1) r k ++ if k = n then [x] else [] := by
  unfold layerFrom
  rcases lt_trichotomy k n with hlt | rfl | hgt
  · rw [if_neg (by omega), if_neg (by omega), if_neg (by omega), if_neg (by omega)]
    rfl
  · rw [if_pos le_rfl, if_neg (by omega), if_neg (by omega), if_pos rfl, Nat.sub_self]
    rfl
  · obtain ⟨i, rfl⟩ : ∃ i, k = n + 1 + i := ⟨k - (n + 1), by omega⟩
    rw [if_pos (by omega), if_pos (by omega), if_pos (by omega), if_neg (by omega),
      Nat.add_sub_cancel_left, show n + 1 + i - n = i + 1 by omega, layer, List.append_nil]

/-- The number of layers needed for a tree whose root is at depth `n`. -/
def layersFrom (n : ℕ) : BinaryTree α → ℕ
  | .nil => 0
  | .node x l r => n + (BinaryTree.node x l r).height

theorem layersFrom_zero (t : BinaryTree α) : layersFrom 0 t = t.height := by
  cases t with
  | nil => rfl
  | node x l r => exact Nat.zero_add _

theorem layersFrom_eq (n : ℕ) (t : BinaryTree α) :
    layersFrom n t = if t.height = 0 then 0 else n + t.height := by
  cases t with
  | nil => rfl
  | node x l r => exact (if_neg (Nat.succ_ne_zero _)).symm

theorem layersFrom_node (n : ℕ) (x : α) (l r : BinaryTree α) :
    layersFrom n (.node x l r) =
      max (max (layersFrom (n + 1) l) (layersFrom (n + 1) r)) (n + 1) := by
  rw [layersFrom, BinaryTree.height, layersFrom_eq, layersFrom_eq]
  split <;> split <;> omega

/-! ### Leaves -/

/-- Some path from the root to a node without children has `d` nodes. -/
inductive LeafDepth : BinaryTree α → ℕ → Prop
  | leaf (x : α) : LeafDepth (.node x .nil .nil) 1
  | left (x : α) (l r : BinaryTree α) (d : ℕ) : LeafDepth l d → LeafDepth (.node x l r) (d + 1)
  | right (x : α) (l r : BinaryTree α) (d : ℕ) : LeafDepth r d → LeafDepth (.node x l r) (d + 1)

def leafDepths (t : BinaryTree α) : Set ℕ := {d | LeafDepth t d}

theorem leafDepths_nil : leafDepths (.nil : BinaryTree α) = ∅ := by
  ext d
  exact iff_of_false nofun id

theorem leafDepths_leaf (x : α) : leafDepths (.node x .nil .nil) = {1} := by
  ext d
  constructor
  · rintro (_ | ⟨_, _, _, _, h⟩ | ⟨_, _, _, _, h⟩)
    · rfl
    · exact nomatch h
    · exact nomatch h
  · rintro rfl
    exact .leaf x

theorem leafDepths_node (x : α) (h : l ≠ .nil ∨ r ≠ .nil) :
    leafDepths (.node x l r) = Nat.succ '' (leafDepths l ∪ leafDepths r) := by
  ext d
  constructor
  · rintro (_ | ⟨_, _, _, e, hl⟩ | ⟨_, _, _, e, hr⟩)
    · exact absurd rfl (h.resolve_left (fun h => h rfl))
    · exact ⟨e, .inl hl, rfl⟩
    · exact ⟨e, .inr hr, rfl⟩
  · rintro ⟨e, hl | hr, rfl⟩
    · exact .left x l r e hl
    · exact .right x l r e hr

theorem isLeast_image_succ {s : Set ℕ} (h : IsLeast s d) : IsLeast (Nat.succ '' s) (d + 1) :=
  Monotone.map_isLeast (fun _ _ => Nat.succ_le_succ) h

theorem isLeast_leafDepths_leaf (x : α) : IsLeast (leafDepths (.node x .nil .nil)) 1 := by
  rw [leafDepths_leaf]
  exact isLeast_singleton

theorem isLeast_leafDepths_left (x : α) (hl : l ≠ .nil) (h : IsLeast (leafDepths l) d) :
    IsLeast (leafDepths (.node x l .nil)) (d + 1) := by
  rw [leafDepths_node x (.inl hl), leafDepths_nil, Set.union_empty]
  exact isLeast_image_succ h

theorem isLeast_leafDepths_right (x : α) (hr : r ≠ .nil) (h : IsLeast (leafDepths r) d) :
    IsLeast (leafDepths (.node x .nil r)) (d + 1) := by
  rw [leafDepths_node x (.inr hr), leafDepths_nil, Set.empty_union]
  exact isLeast_image_succ h

theorem isLeast_leafDepths_node (x : α) (hl : l ≠ .nil) (h : IsLeast (leafDepths l) d)
    (h' : IsLeast (leafDepths r) k) : IsLeast (leafDepths (.node x l r)) (min d k + 1) := by
  rw [leafDepths_node x (.inl hl)]
  exact isLeast_image_succ (h.union h')

end Foundation
