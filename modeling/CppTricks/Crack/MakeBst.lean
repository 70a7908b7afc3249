import CppTricks.Foundation.SearchTree
import Mathlib.Data.Nat.Log
import Mathlib.Data.Nat.Size

/-! `make_bst`: a sorted vector as a search tree, halved at every node. -/
namespace CppTricks.Crack
open Foundation

variable {α : Type}

/-- What has been written, after what was written before. A null pointer is a tree without nodes. -/
def inOrderTraversal : BinaryTree α → List α → List α
  | .nil, out => out
  | .node data left right, out =>
    let out := inOrderTraversal left out
    let out := out ++ [data]
    inOrderTraversal right out

def makeBst (v : List α) : BinaryTree α :=
  if h : v = [] then .nil
  else
    let elemIdx := v.length / 2
    have hlt : elemIdx < v.length := Nat.div_lt_self (List.length_pos_iff.mpr h) Nat.one_lt_two
    .node v[elemIdx] (makeBst (v.take elemIdx)) (makeBst (v.drop (elemIdx + 1)))
termination_by v.length
decreasing_by
  · rw [List.length_take]
    omega
  · rw [List.length_drop]
    omega

variable {v : List α} {n : ℕ}

theorem inOrderTraversal_eq (t : BinaryTree α) (out : List α) :
    inOrderTraversal t out = out ++ inOrder t := by
  induction t generalizing out with
  | nil => exact (List.append_nil out).symm
  | node data left right hleft hright =>
    unfold inOrderTraversal inOrder
    rw [hleft, hright, List.append_assoc, List.append_assoc, List.singleton_append]

/-! ### The height -/

theorem size_half (h : 0 < n) : n.size = (n / 2).size + 1 := by
  rw [← Nat.div2_val]
  conv_lhs => rw [← Nat.bit_bodd_div2 n]
  refine Nat.size_bit ?_
  rw [Nat.bit_bodd_div2]
  exact h.ne'

theorem size_succ_le (n : ℕ) : (n + 1).size ≤ n.size + 1 := by
  rw [Nat.size_le, Nat.pow_succ]
  have := Nat.lt_size_self n
  omega

theorem size_eq_log (h : n ≠ 0) : n.size = Nat.log 2 n + 1 := by
  apply le_antisymm
  · rw [Nat.size_le]
    exact Nat.lt_pow_succ_log_self Nat.one_lt_two n
  · rw [Nat.succ_le_iff, Nat.lt_size]
    exact Nat.pow_log_le_self 2 h

/-! ### The tree -/

theorem makeBst_nil : makeBst ([] : List α) = .nil := by
  unfold makeBst
  rw [dif_pos rfl]

theorem makeBst_of_ne_nil (h : v ≠ []) : ∃ left data right, v = left ++ data :: right ∧
    left.length = v.length / 2 ∧ makeBst v = .node data (makeBst left) (makeBst right) := by
  have hlt : v.length / 2 < v.length :=
    Nat.div_lt_self (List.length_pos_iff.mpr h) Nat.one_lt_two
  refine ⟨v.take (v.length / 2), v[v.length / 2], v.drop (v.length / 2 + 1), ?_, ?_, ?_⟩
  · rw [← List.drop_eq_getElem_cons hlt, List.take_append_drop]
  · rw [List.length_take, Nat.min_eq_left hlt.le]
  · rw [makeBst, dif_neg h]

/-- What holds of no element, and of an element in the middle of two halves of which it holds, holds
of every vector. -/
theorem halves_induction {P : List α → Prop} (nil : P [])
    (node : ∀ v left data right, v = left ++ data :: right → left.length = v.length / 2 →
      makeBst v = .node data (makeBst left) (makeBst right) → P left → P right → P v)
    (v : List α) : P v := by
  induction hn : v.length using Nat.strong_induction_on generalizing v with
  | _ n ih =>
    by_cases h : v = []
    · exact h ▸ nil
    · obtain ⟨left, data, right, hv, hleft, hrun⟩ := makeBst_of_ne_nil h
      have hlen : left.length + (right.length + 1) = n := by
        rw [← hn, hv, List.length_append, List.length_cons]
      exact node v left data right hv hleft hrun (ih _ (by omega) left rfl)
        (ih _ (by omega) right rfl)

theorem inOrder_makeBst (v : List α) : inOrder (makeBst v) = v := by
  induction v using halves_induction with
  | nil => rw [makeBst_nil, inOrder]
  | node v left data right hv _ hrun hleft hright => rw [hrun, inOrder, hleft, hright, hv]

theorem halves_length {left right : List α} {data : α} (hv : v = left ++ data :: right)
    (hleft : left.length = v.length / 2) :
    right.length ≤ left.length ∧ left.length ≤ right.length + 1 := by
  have hlen := congrArg List.length hv
  rw [List.length_append, List.length_cons] at hlen
  omega

theorem height_makeBst (v : List α) : (makeBst v).height = v.length.size := by
  induction v using halves_induction with
  | nil => rw [makeBst_nil]; rfl
  | node v left data right hv hlen hrun hleft hright =>
    have hpos : 0 < v.length := by
      rw [hv, List.length_append, List.length_cons]
      omega
    have hle := Nat.size_le_size (halves_length hv hlen).1
    rw [hrun, BinaryTree.height, hleft, hright, max_eq_left hle, size_half hpos, hlen]

theorem balanced_makeBst (v : List α) : Balanced (makeBst v) := by
  induction v using halves_induction with
  | nil =>
    rw [makeBst_nil]
    trivial
  | node v left data right hv hlen hrun hleft hright =>
    obtain ⟨hle, hge⟩ := halves_length hv hlen
    rw [hrun]
    refine ⟨?_, hleft, hright⟩
    rw [height_makeBst, height_makeBst]
    constructor
    · exact (Nat.size_le_size hge).trans (size_succ_le _)
    · exact (Nat.size_le_size hle).trans (Nat.le_succ _)

example : makeBst [1, 2, 2, 5] =
    .node 2 (.node 2 (.node 1 .nil .nil) .nil) (.node 5 .nil .nil) := by simp [makeBst]

end CppTricks.Crack
