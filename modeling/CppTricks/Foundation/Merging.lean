import Mathlib.Algebra.Group.Nat.Defs
import Mathlib.Data.List.Sort
import Mathlib.Logic.Function.Iterate
import Mathlib.Order.Defs.LinearOrder

/-! Merging two sorted lists until one of them is used up, and combining in pairs. -/
namespace Foundation

variable {α : Type*} [LinearOrder α]

/-- What a merge takes from `xs` and `ys`, an element of `xs` only where it is smaller, until one of
them is used up, and what is left of the other. -/
def mergeUntil : List α → List α → List α × List α
  | [], ys => ([], ys)
  | x :: xs, [] => ([], x :: xs)
  | x :: xs, y :: ys =>
    if x < y then
      let m := mergeUntil xs (y :: ys)
      (x :: m.1, m.2)
    else
      let m := mergeUntil (x :: xs) ys
      (y :: m.1, m.2)
termination_by xs ys => xs.length + ys.length

/-- Those elements of two lists that are not below the other list, the left ones also on a tie. -/
def outlasting (xs ys : List α) : List α :=
  xs.filter (fun x => ∀ y ∈ ys, y ≤ x) ++ ys.filter fun y => ∀ x ∈ xs, x < y

section MergeUntil

variable {x y : α} {xs ys : List α}

@[simp] theorem mergeUntil_nil_left (ys : List α) : mergeUntil [] ys = ([], ys) := by
  rw [mergeUntil]

@[simp] theorem mergeUntil_nil_right (xs : List α) : mergeUntil xs [] = ([], xs) := by
  cases xs with
  | nil => rw [mergeUntil]
  | cons x xs => rw [mergeUntil]

theorem mergeUntil_of_lt (h : x < y) : mergeUntil (x :: xs) (y :: ys) =
    (x :: (mergeUntil xs (y :: ys)).1, (mergeUntil xs (y :: ys)).2) := by
  rw [mergeUntil, if_pos h]

theorem mergeUntil_of_not_lt (h : ¬x < y) : mergeUntil (x :: xs) (y :: ys) =
    (y :: (mergeUntil (x :: xs) ys).1, (mergeUntil (x :: xs) ys).2) := by
  rw [mergeUntil, if_neg h]

/-- Induction on what a merge looks at. -/
theorem merge_induction {P : List α → List α → Prop} (nil_left : ∀ ys, P [] ys)
    (nil_right : ∀ xs, P xs [])
    (lt : ∀ x xs y ys, x < y → P xs (y :: ys) → P (x :: xs) (y :: ys))
    (not_lt : ∀ x xs y ys, ¬x < y → P (x :: xs) ys → P (x :: xs) (y :: ys)) (xs ys : List α) :
    P xs ys := by
  induction xs generalizing ys with
  | nil => exact nil_left ys
  | cons x xs ihx =>
    induction ys with
    | nil => exact nil_right (x :: xs)
    | cons y ys ihy =>
      by_cases h : x < y
      · exact lt x xs y ys h (ihx (y :: ys))
      · exact not_lt x xs y ys h ihy

theorem mergeUntil_perm (xs ys : List α) :
    ((mergeUntil xs ys).1 ++ (mergeUntil xs ys).2).Perm (xs ++ ys) := by
  induction xs, ys using merge_induction with
  | nil_left ys => simp
  | nil_right xs => simp
  | lt x xs y ys h ih =>
    rw [mergeUntil_of_lt h]
    exact ih.cons x
  | not_lt x xs y ys h ih =>
    rw [mergeUntil_of_not_lt h]
    exact (ih.cons y).trans List.perm_middle.symm

theorem length_mergeUntil (xs ys : List α) :
    (mergeUntil xs ys).1.length + (mergeUntil xs ys).2.length = xs.length + ys.length := by
  simpa using (mergeUntil_perm xs ys).length_eq

theorem le_of_mem {z : α} (h : x ≤ y) (hy : (y :: ys).Pairwise (· ≤ ·))
    (hz : z ∈ y :: ys) : x ≤ z := by
  cases List.mem_cons.mp hz with
  | inl heq => exact heq ▸ h
  | inr hz => exact h.trans (List.rel_of_pairwise_cons hy hz)

theorem pairwise_mergeUntil (hx : xs.Pairwise (· ≤ ·)) (hy : ys.Pairwise (· ≤ ·)) :
    ((mergeUntil xs ys).1 ++ (mergeUntil xs ys).2).Pairwise (· ≤ ·) := by
  induction xs, ys using merge_induction with
  | nil_left ys => simpa using hy
  | nil_right xs => simpa using hx
  | lt x xs y ys h ih =>
    rw [mergeUntil_of_lt h, List.cons_append, List.pairwise_cons]
    rw [List.pairwise_cons] at hx
    refine ⟨?_, ih hx.2 hy⟩
    intro z hz
    cases List.mem_append.mp ((mergeUntil_perm xs (y :: ys)).mem_iff.mp hz) with
    | inl hz => exact hx.1 z hz
    | inr hz => exact le_of_mem h.le hy hz
  | not_lt x xs y ys h ih =>
    rw [mergeUntil_of_not_lt h, List.cons_append, List.pairwise_cons]
    rw [List.pairwise_cons] at hy
    refine ⟨?_, ih hx hy.2⟩
    intro z hz
    cases List.mem_append.mp ((mergeUntil_perm (x :: xs) ys).mem_iff.mp hz) with
    | inl hz => exact le_of_mem (not_lt.mp h) hx hz
    | inr hz => exact hy.1 z hz

theorem outlasting_of_lt (h : x < y) (hy : (y :: ys).Pairwise (· ≤ ·)) :
    outlasting (x :: xs) (y :: ys) = outlasting xs (y :: ys) := by
  unfold outlasting
  congr 1
  · apply List.filter_cons_of_neg
    rw [decide_eq_true_eq]
    intro hall
    exact absurd (hall y List.mem_cons_self) (not_le.mpr h)
  · apply List.filter_congr
    intro z hz
    rw [decide_eq_decide, List.forall_mem_cons]
    have hxz : x < z := h.trans_le (le_of_mem le_rfl hy hz)
    exact ⟨fun hall => hall.2, fun hall => ⟨hxz, hall⟩⟩

theorem outlasting_of_not_lt (h : ¬x < y) (hx : (x :: xs).Pairwise (· ≤ ·)) :
    outlasting (x :: xs) (y :: ys) = outlasting (x :: xs) ys := by
  unfold outlasting
  congr 1
  · apply List.filter_congr
    intro z hz
    rw [decide_eq_decide, List.forall_mem_cons]
    exact ⟨fun hall => hall.2, fun hall => ⟨le_of_mem (not_lt.mp h) hx hz, hall⟩⟩
  · apply List.filter_cons_of_neg
    rw [decide_eq_true_eq]
    intro hall
    exact h (hall x List.mem_cons_self)

/-- What is left of one list outlasts the other, and nothing else does. -/
theorem mergeUntil_snd (hx : xs.Pairwise (· ≤ ·)) (hy : ys.Pairwise (· ≤ ·)) :
    (mergeUntil xs ys).2 = outlasting xs ys := by
  induction xs, ys using merge_induction with
  | nil_left ys => simp [outlasting]
  | nil_right xs => simp [outlasting]
  | lt x xs y ys h ih => rw [mergeUntil_of_lt h, ih hx.of_cons hy, outlasting_of_lt h hy]
  | not_lt x xs y ys h ih =>
    rw [mergeUntil_of_not_lt h, ih hx hy.of_cons, outlasting_of_not_lt h hx]

theorem mem_outlasting_congr {xs' ys' : List α} {z : α} (hx : xs.Perm xs') (hy : ys.Perm ys') :
    z ∈ outlasting xs ys ↔ z ∈ outlasting xs' ys' := by
  unfold outlasting
  simp only [List.mem_append, List.mem_filter, hx.mem_iff, hy.mem_iff]

end MergeUntil

/-- What is left of the lists `B` and `C` from the places `i` and `j` on. -/
structure LeftAt {β : Type*} (B C : List β) (i j : ℕ) (xs ys : List β) : Prop where
  left : B.drop i = xs
  right : C.drop j = ys
  left_le : i ≤ B.length
  right_le : j ≤ C.length

namespace LeftAt

variable {β : Type*} {B C xs ys : List β} {i j : ℕ} {x y : β}

theorem start (B C : List β) : LeftAt B C 0 0 B C := ⟨rfl, rfl, Nat.zero_le _, Nat.zero_le _⟩

theorem left_length (h : LeftAt B C i j xs ys) : i + xs.length = B.length := by
  rw [← h.left, List.length_drop]
  have := h.left_le
  omega

theorem right_length (h : LeftAt B C i j xs ys) : j + ys.length = C.length := by
  rw [← h.right, List.length_drop]
  have := h.right_le
  omega

theorem left_get (h : LeftAt B C i j (x :: xs) ys) : B[i]? = some x := by
  have hget := @List.getElem?_drop β B i 0
  rwa [h.left, List.getElem?_cons_zero, Nat.add_zero, eq_comm] at hget

theorem right_get (h : LeftAt B C i j xs (y :: ys)) : C[j]? = some y := by
  have hget := @List.getElem?_drop β C j 0
  rwa [h.right, List.getElem?_cons_zero, Nat.add_zero, eq_comm] at hget

theorem take_left (h : LeftAt B C i j (x :: xs) ys) : LeftAt B C (i + 1) j xs ys := by
  have hlen := h.left_length
  rw [List.length_cons] at hlen
  refine ⟨?_, h.right, by omega, h.right_le⟩
  rw [← List.drop_drop, h.left, List.drop_one, List.tail_cons]

theorem take_right (h : LeftAt B C i j xs (y :: ys)) : LeftAt B C i (j + 1) xs ys := by
  have hlen := h.right_length
  rw [List.length_cons] at hlen
  refine ⟨h.left, ?_, h.left_le, by omega⟩
  rw [← List.drop_drop, h.right, List.drop_one, List.tail_cons]

end LeftAt

section Pairing

variable {β : Type*} (f : β → β → β)

/-- One round: the first element with the second, the third with the fourth, and so on. -/
def pairUp : List β → List β
  | [] => []
  | [x] => [x]
  | x :: y :: zs => f x y :: pairUp zs

theorem pairUp_append {xs : List β} (h : 2 ∣ xs.length) (ys : List β) :
    pairUp f (xs ++ ys) = pairUp f xs ++ pairUp f ys := by
  induction xs using pairUp.induct with
  | case1 => rfl
  | case2 x => simp at h
  | case3 x y zs ih =>
    simp only [List.length_cons] at h
    simp only [List.cons_append, pairUp, ih (by omega)]

theorem length_pairUp {xs : List β} (h : 2 ∣ xs.length) :
    2 * (pairUp f xs).length = xs.length := by
  induction xs using pairUp.induct with
  | case1 => rfl
  | case2 x => simp at h
  | case3 x y zs ih =>
    simp only [List.length_cons] at h
    simp only [pairUp, List.length_cons]
    have := ih (by omega)
    omega

theorem length_pairUp_two_pow {xs : List β} {k : ℕ} (h : xs.length = 2 ^ (k + 1)) :
    (pairUp f xs).length = 2 ^ k := by
  have hpow : 2 ^ (k + 1) = 2 * 2 ^ k := Nat.pow_succ'
  have hlen : 2 * (pairUp f xs).length = xs.length := length_pairUp f (by omega)
  omega

/-- After `k` rounds one element is left of the first `2 ^ k`. -/
theorem iterate_pairUp_append {xs : List β} {k : ℕ} (h : xs.length = 2 ^ k) :
    ∃ x, (pairUp f)^[k] xs = [x] ∧
      ∀ ys, (pairUp f)^[k] (xs ++ ys) = x :: (pairUp f)^[k] ys := by
  induction k generalizing xs with
  | zero =>
    obtain ⟨x, rfl⟩ := List.length_eq_one_iff.mp h
    exact ⟨x, rfl, fun ys => rfl⟩
  | succ k ih =>
    have hdvd : 2 ∣ xs.length := ⟨2 ^ k, by rw [h, Nat.pow_succ']⟩
    obtain ⟨x, hx, hall⟩ := ih (length_pairUp_two_pow f h)
    refine ⟨x, hx, ?_⟩
    intro ys
    rw [Function.iterate_succ_apply, pairUp_append f hdvd, hall, Function.iterate_succ_apply]

/-- The last of `k + 1` rounds combines what is left of the two halves. -/
theorem iterate_pairUp_succ {xs ys : List β} {k : ℕ} {x y : β} (hxs : xs.length = 2 ^ k)
    (hx : (pairUp f)^[k] xs = [x]) (hy : (pairUp f)^[k] ys = [y]) :
    (pairUp f)^[k + 1] (xs ++ ys) = [f x y] := by
  obtain ⟨x', hx', hall⟩ := iterate_pairUp_append f hxs
  obtain rfl : x' = x := by simpa using hx'.symm.trans hx
  rw [Function.iterate_succ_apply', hall, hy]
  rfl

end Pairing

end Foundation
