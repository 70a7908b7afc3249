import Mathlib.Data.List.Basic
import Mathlib.Order.Nat

/-! Arrays that are assigned to within their bounds. -/
namespace Foundation

variable {α : Type} {d : List α} {i : ℕ}

def assign (d : List α) (i : ℕ) (x : α) : Option (List α) :=
  if i < d.length then some (d.set i x) else none

theorem assign_eq (h : i < d.length) (x : α) : assign d i x = some (d.set i x) := if_pos h

theorem assign_append (u v : List α) (y x : α) :
    assign (u ++ y :: v) u.length x = some (u ++ x :: v) := by
  unfold assign
  rw [if_pos (by simp), List.set_append_right _ _ le_rfl, Nat.sub_self, List.set_cons_zero]

theorem assign_eq_none (h : d.length ≤ i) (x : α) : assign d i x = none :=
  if_neg (Nat.not_lt.mpr h)

end Foundation
