import Mathlib.Data.List.Basic
import Mathlib.Data.List.Count
import Mathlib.Data.List.Perm.Basic

/-! Rearrangements of a list that keep elements with equal keys in their order. -/
namespace Foundation

variable {α β : Type*} [DecidableEq β] {key : α → β} {xs ys zs : List α}

/-- The elements with a given key, in the order they have in the list, are the same in both. -/
def SameOrder (key : α → β) (xs ys : List α) : Prop :=
  ∀ k, ys.filter (fun x => key x = k) = xs.filter fun x => key x = k

namespace SameOrder

theorem refl (key : α → β) (xs : List α) : SameOrder key xs xs := fun _ => rfl

theorem trans (h : SameOrder key xs ys) (h' : SameOrder key ys zs) : SameOrder key xs zs :=
  fun k => (h' k).trans (h k)

theorem append_left (us : List α) (h : SameOrder key xs ys) :
    SameOrder key (us ++ xs) (us ++ ys) := by
  intro k
  rw [List.filter_append, List.filter_append, h k]

/-- Each element occurs as often among those with its key as in the whole list. -/
theorem perm (h : SameOrder key xs ys) : ys.Perm xs := by
  classical
  rw [List.perm_iff_count]
  intro a
  have hcount : ∀ l : List α, (l.filter fun x => key x = key a).count a = l.count a :=
    fun l => List.count_filter (decide_eq_true rfl)
  rw [← hcount ys, h (key a), hcount xs]

end SameOrder

/-- An element may go to the front of those with other keys. -/
theorem sameOrder_move {us vs : List α} {m : α} (h : ∀ x ∈ us, key x ≠ key m) :
    SameOrder key (us ++ m :: vs) (m :: us ++ vs) := by
  intro k
  rw [List.cons_append, List.filter_cons, List.filter_append, List.filter_append, List.filter_cons]
  by_cases hk : key m = k
  · have hnone : us.filter (fun x => key x = k) = [] := by
      rw [List.filter_eq_nil_iff]
      intro x hx
      rw [decide_eq_true_eq]
      exact hk ▸ h x hx
    rw [hnone, List.nil_append, List.nil_append]
  · rw [if_neg (by simpa using hk), if_neg (by simpa using hk)]

end Foundation
