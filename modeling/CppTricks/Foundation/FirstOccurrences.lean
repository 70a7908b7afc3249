import Mathlib.Data.List.Induction

/-! The first occurrences of the elements of a list, in their order. -/
namespace Foundation

variable {α : Type} [DecidableEq α] {u v : List α} {x : α}

theorem removeAll_eq_nil_iff : v.removeAll u = [] ↔ ∀ y ∈ v, y ∈ u := by
  unfold List.removeAll
  rw [List.filter_eq_nil_iff]
  simp

theorem eraseDups_append_eq_iff : (u ++ v).eraseDups = u.eraseDups ↔ ∀ y ∈ v, y ∈ u := by
  rw [List.eraseDups_append, List.append_right_eq_self, ← removeAll_eq_nil_iff]
  cases hrest : v.removeAll u with
  | nil => exact iff_of_true rfl rfl
  | cons y w =>
    rw [List.eraseDups_cons]
    exact iff_of_false (List.cons_ne_nil _ _) (List.cons_ne_nil _ _)

theorem eraseDups_concat_of_mem (h : x ∈ u) : (u ++ [x]).eraseDups = u.eraseDups := by
  rw [eraseDups_append_eq_iff, List.forall_mem_singleton]
  exact h

theorem eraseDups_concat_of_not_mem (h : x ∉ u) :
    (u ++ [x]).eraseDups = u.eraseDups ++ [x] := by
  have hrest : [x].removeAll u = [x] := by simp [List.cons_removeAll, h]
  rw [List.eraseDups_append, hrest, List.eraseDups_cons, List.filter_nil, List.eraseDups_nil]

theorem eraseDups_append_cons_of_mem (h : x ∈ u) :
    (u ++ x :: v).eraseDups = (u ++ v).eraseDups := by
  have hrest : (x :: v).removeAll u = v.removeAll u := by simp [List.cons_removeAll, h]
  rw [List.eraseDups_append, List.eraseDups_append, hrest]

theorem eraseDups_of_nodup (h : u.Nodup) : u.eraseDups = u := by
  induction u using List.reverseRecOn with
  | nil => rfl
  | append_singleton u x ih =>
    rw [List.nodup_append] at h
    rw [eraseDups_concat_of_not_mem, ih h.1]
    exact fun hx => h.2.2 x hx x List.mem_cons_self rfl

/-- A prefix has all first occurrences exactly if it has every element. -/
theorem eraseDups_take_eq_iff (u : List α) (m : ℕ) :
    (u.take m).eraseDups = u.eraseDups ↔ ∀ y ∈ u, y ∈ u.take m := by
  have happend := eraseDups_append_eq_iff (u := u.take m) (v := u.drop m)
  rw [List.take_append_drop] at happend
  rw [eq_comm, happend]
  constructor
  · intro h y hy
    rw [← List.take_append_drop m u, List.mem_append] at hy
    exact hy.elim id (h y)
  · exact fun h y hy => h y (List.mem_of_mem_drop hy)

end Foundation
