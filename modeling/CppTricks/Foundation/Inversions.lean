import Mathlib.Algebra.BigOperators.Fin
import Mathlib.Data.List.Perm.Basic
import Mathlib.Order.Lattice

/-! Index pairs of a list whose elements, in this order, are in a relation. -/
namespace Foundation

variable {α : Type*} (r s : α → α → Prop) [DecidableRel r] [DecidableRel s]

/-- The number of index pairs `i < j` with `r l[i] l[j]`. -/
def pairCount (l : List α) : ℕ :=
  (Finset.univ.filter fun p : Fin l.length × Fin l.length => p.1 < p.2 ∧ r l[p.1] l[p.2]).card

/-- The number of pairs of an element of `xs` and one of `ys` that are in the relation. -/
def crossCount (xs ys : List α) : ℕ := (xs.map fun x => ys.countP fun y => r x y).sum

private theorem sum_univ_cons (x : α) (l : List α) (f : Fin (x :: l).length → ℕ) :
    ∑ i, f i = f ⟨0, Nat.succ_pos _⟩ + ∑ i : Fin l.length, f i.succ := Fin.sum_univ_succ f

theorem countP_eq_sum (p : α → Prop) [DecidablePred p] (l : List α) :
    l.countP (fun y => p y) = ∑ i : Fin l.length, if p l[i] then 1 else 0 := by
  induction l with
  | nil => rfl
  | cons x l ih =>
    rw [List.countP_cons, ih, sum_univ_cons, Nat.add_comm]
    simp

@[simp] theorem pairCount_nil : pairCount r ([] : List α) = 0 := rfl

@[simp] theorem pairCount_cons (x : α) (l : List α) :
    pairCount r (x :: l) = l.countP (fun y => r x y) + pairCount r l := by
  unfold pairCount
  rw [Finset.card_filter, Finset.card_filter, Fintype.sum_prod_type, Fintype.sum_prod_type,
    countP_eq_sum, sum_univ_cons]
  congr 1
  · rw [sum_univ_cons]
    simp
  · apply Finset.sum_congr rfl
    intro i _
    rw [sum_univ_cons]
    simp

theorem pairCount_congr (h : ∀ x y, r x y ↔ s x y) (l : List α) :
    pairCount r l = pairCount s l := by
  unfold pairCount
  simp only [h]

@[simp] theorem crossCount_nil_left (ys : List α) : crossCount r [] ys = 0 := rfl

@[simp] theorem crossCount_nil_right (xs : List α) : crossCount r xs [] = 0 := by
  unfold crossCount
  simp

theorem crossCount_cons_left (x : α) (xs ys : List α) :
    crossCount r (x :: xs) ys = ys.countP (fun y => r x y) + crossCount r xs ys := by
  unfold crossCount
  rw [List.map_cons, List.sum_cons]

theorem crossCount_cons_right (xs : List α) (y : α) (ys : List α) :
    crossCount r xs (y :: ys) = xs.countP (fun x => r x y) + crossCount r xs ys := by
  induction xs with
  | nil => rfl
  | cons x xs ih =>
    rw [crossCount_cons_left, crossCount_cons_left, ih, List.countP_cons, List.countP_cons]
    omega

theorem crossCount_perm {xs xs' ys ys' : List α} (hx : xs.Perm xs') (hy : ys.Perm ys') :
    crossCount r xs ys = crossCount r xs' ys' := by
  unfold crossCount
  have hcount : ∀ x, ys.countP (fun y => r x y) = ys'.countP fun y => r x y := by
    intro x
    exact hy.countP_eq _
  simp only [hcount]
  exact (hx.map _).sum_eq

/-- The pairs within two parts of a list and the pairs across them. -/
theorem pairCount_append (xs ys : List α) :
    pairCount r (xs ++ ys) = pairCount r xs + pairCount r ys + crossCount r xs ys := by
  induction xs with
  | nil => simp
  | cons x xs ih =>
    rw [List.cons_append, pairCount_cons, pairCount_cons, crossCount_cons_left, ih,
      List.countP_append]
    omega

/-- A relation that splits into two that exclude each other has the pairs of both. -/
theorem pairCount_or (h : ∀ x y, r x y → ¬ s x y) (l : List α) :
    pairCount (fun x y => r x y ∨ s x y) l = pairCount r l + pairCount s l := by
  induction l with
  | nil => rfl
  | cons x l ih =>
    have hcount : l.countP (fun y => r x y ∨ s x y) =
        l.countP (fun y => r x y) + l.countP fun y => s x y := by
      clear ih
      induction l with
      | nil => rfl
      | cons y l ih =>
        rw [List.countP_cons, List.countP_cons, List.countP_cons, ih]
        have hxy := h x y
        by_cases hr : r x y <;> by_cases hs : s x y <;> simp [hr, hs] at hxy ⊢ <;> omega
    rw [pairCount_cons, pairCount_cons, pairCount_cons, ih, hcount]
    omega

/-- No two places of a list hold the same element exactly when no pair of places is counted. -/
theorem pairCount_eq_zero_iff_nodup [DecidableEq α] (l : List α) :
    pairCount (fun x y : α => x = y) l = 0 ↔ l.Nodup := by
  induction l with
  | nil => simp
  | cons x l ih =>
    have hmem : (∀ y ∈ l, ¬decide (x = y) = true) ↔ x ∉ l := by
      simp only [decide_eq_true_eq]
      exact ⟨fun h hx => h x hx rfl, fun h y hy hxy => h (hxy ▸ hy)⟩
    rw [pairCount_cons, Nat.add_eq_zero_iff, ih, List.nodup_cons, List.countP_eq_zero, hmem]

end Foundation
