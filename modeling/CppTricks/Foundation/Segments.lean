import Mathlib.Algebra.BigOperators.Group.List.Basic

/-! Sums of contiguous segments of a list. -/
namespace Foundation

variable {M : Type*} [AddCommGroup M] {v : List M} {l m r : ℕ} {x : M}

/-- The sum of the elements from `l` up to, but not including, `r`. -/
def segmentSum (v : List M) (l r : ℕ) : M := ((v.take r).drop l).sum

theorem segmentSum_self (v : List M) (l : ℕ) : segmentSum v l l = 0 := by
  unfold segmentSum
  rw [List.drop_take_self, List.sum_nil]

theorem sum_take_add_segmentSum (v : List M) (h : l ≤ r) :
    (v.take l).sum + segmentSum v l r = (v.take r).sum := by
  have hsplit := List.take_append_drop l (v.take r)
  rw [List.take_take, Nat.min_eq_left h] at hsplit
  unfold segmentSum
  rw [← List.sum_append, hsplit]

theorem segmentSum_eq_sub (v : List M) (h : l ≤ r) :
    segmentSum v l r = (v.take r).sum - (v.take l).sum :=
  eq_sub_of_add_eq' (sum_take_add_segmentSum v h)

theorem segmentSum_add (v : List M) (hl : l ≤ m) (hr : m ≤ r) :
    segmentSum v l m + segmentSum v m r = segmentSum v l r := by
  rw [segmentSum_eq_sub v hl, segmentSum_eq_sub v hr, segmentSum_eq_sub v (Nat.le_trans hl hr),
    add_comm, sub_add_sub_cancel]

theorem segmentSum_succ (hx : v[l]? = some x) : segmentSum v l (l + 1) = x := by
  rw [segmentSum_eq_sub v (Nat.le_succ l), List.take_add_one, hx, Option.toList_some,
    List.sum_append, List.sum_singleton, add_sub_cancel_left]

end Foundation
