import CppTricks.Foundation.Inversions
import CppTricks.Foundation.Merging
import Mathlib.Data.Int.Order.Basic

/-! `count_and_sort` and `count_and_merge`; no result stands for an index error, or for a recursion
that was cut off. -/
namespace CppTricks.Sort.CountingInversions
open Foundation

variable {α : Type} [LinearOrder α]

structure Merging (α : Type) where
  i : ℕ
  j : ℕ
  D : List α
  numberInversion : ℕ

def mergeBody (B C : List α) (oneStLen twoStLen : ℕ) (st : Merging α) (_k : ℕ) :
    Option (Merging α) :=
  if (st.i : ℤ) > oneStLen - 1 then do
    let c ← C[st.j]?
    return { st with D := st.D ++ [c], j := st.j + 1 }
  else if (st.j : ℤ) > twoStLen - 1 then do
    let b ← B[st.i]?
    return { st with D := st.D ++ [b], i := st.i + 1 }
  else do
    let b ← B[st.i]?
    let c ← C[st.j]?
    if b < c then
      return { st with D := st.D ++ [b], i := st.i + 1 }
    else
      -- here `i` is below `one_st_len`
      return { st with
        D := st.D ++ [c]
        numberInversion := st.numberInversion + (oneStLen - st.i)
        j := st.j + 1 }

def countAndMerge (B C : List α) (n : ℕ) : Option (List α × ℕ) := do
  let oneStLen := n / 2
  let twoStLen := n - oneStLen
  let st ← (List.range n).foldlM (mergeBody B C oneStLen twoStLen) ⟨0, 0, [], 0⟩
  return (st.D, st.numberInversion)

def countAndSort : ℕ → List α → ℕ → Option (List α × ℕ)
  | 0, _, _ => none
  | fuel + 1, A, n =>
    if n = 1 then some (A, 0)
    else do
      let bRaw := A.take (n / 2)
      let cRaw := A.drop (n / 2)
      let (B, x) ← countAndSort fuel bRaw bRaw.length
      let (C, y) ← countAndSort fuel cRaw cRaw.length
      let (D, z) ← countAndMerge B C n
      return (D, x + y + z)

section Merge

variable {B C xs ys : List α} {st : Merging α}

theorem mergeBody_nil_left {c : α} (h : LeftAt B C st.i st.j [] (c :: ys)) (k : ℕ) :
    mergeBody B C B.length C.length st k =
      some { st with D := st.D ++ [c], j := st.j + 1 } := by
  have hi : st.i = B.length := h.left_length
  unfold mergeBody
  rw [if_pos (by omega), h.right_get]
  rfl

theorem mergeBody_nil_right {b : α} (h : LeftAt B C st.i st.j (b :: xs) []) (k : ℕ) :
    mergeBody B C B.length C.length st k =
      some { st with D := st.D ++ [b], i := st.i + 1 } := by
  have hi := h.left_length
  have hj : st.j = C.length := h.right_length
  rw [List.length_cons] at hi
  unfold mergeBody
  rw [if_neg (by omega), if_pos (by omega), h.left_get]
  rfl

theorem mergeBody_cons {b c : α} (h : LeftAt B C st.i st.j (b :: xs) (c :: ys)) (k : ℕ) :
    mergeBody B C B.length C.length st k = some (if b < c
      then { st with D := st.D ++ [b], i := st.i + 1 }
      else { st with
        D := st.D ++ [c]
        numberInversion := st.numberInversion + (b :: xs).length
        j := st.j + 1 }) := by
  have hi := h.left_length
  have hj := h.right_length
  have hrest : B.length - st.i = (b :: xs).length := by omega
  rw [List.length_cons] at hi hj
  unfold mergeBody
  rw [if_neg (by omega), if_neg (by omega), h.left_get, h.right_get, hrest]
  by_cases hlt : b < c
  · rw [if_pos hlt]
    exact if_pos hlt
  · rw [if_neg hlt]
    exact if_neg hlt

/-- An element of the first list before those of the second is in no pair with them. -/
theorem crossCount_of_lt {b c : α} (h : b < c) (hy : (c :: ys).Pairwise (· ≤ ·)) :
    crossCount (fun x y => y ≤ x) (b :: xs) (c :: ys) =
      crossCount (fun x y => y ≤ x) xs (c :: ys) := by
  have hnone : (c :: ys).countP (fun y => y ≤ b) = 0 := by
    rw [List.countP_eq_zero]
    intro y hmem
    simpa using h.trans_le (le_of_mem le_rfl hy hmem)
  rw [crossCount_cons_left, hnone, Nat.zero_add]

/-- An element of the second list is in a pair with all that are left of the first. -/
theorem crossCount_of_not_lt {b c : α} (h : ¬b < c) (hx : (b :: xs).Pairwise (· ≤ ·)) :
    crossCount (fun x y => y ≤ x) (b :: xs) (c :: ys) =
      (b :: xs).length + crossCount (fun x y => y ≤ x) (b :: xs) ys := by
  have hall : (b :: xs).countP (fun x => c ≤ x) = (b :: xs).length := by
    rw [List.countP_eq_length]
    intro x hmem
    simpa using le_of_mem (not_lt.mp h) hx hmem
  rw [crossCount_cons_right, hall]

theorem mergeBody_loop (st : Merging α) (h : LeftAt B C st.i st.j xs ys)
    (hx : xs.Pairwise (· ≤ ·)) (hy : ys.Pairwise (· ≤ ·)) (ks : List ℕ)
    (hks : ks.length = xs.length + ys.length) :
    ks.foldlM (mergeBody B C B.length C.length) st = some ⟨B.length, C.length,
      st.D ++ ((mergeUntil xs ys).1 ++ (mergeUntil xs ys).2),
      st.numberInversion + crossCount (fun x y => y ≤ x) xs ys⟩ := by
  induction ks generalizing st xs ys with
  | nil =>
    obtain ⟨rfl, rfl⟩ : xs = [] ∧ ys = [] := by simpa using hks.symm
    obtain ⟨i, j, D, z⟩ := st
    obtain rfl : i = B.length := h.left_length
    obtain rfl : j = C.length := h.right_length
    simp
  | cons k ks ih =>
    rw [List.foldlM_cons]
    cases xs with
    | nil =>
      cases ys with
      | nil => cases hks
      | cons c ys =>
        rw [mergeBody_nil_left h]
        have hrun := ih { st with D := st.D ++ [c], j := st.j + 1 } h.take_right hx hy.of_cons
          (by simpa using hks)
        simpa using hrun
    | cons b xs =>
      cases ys with
      | nil =>
        rw [mergeBody_nil_right h]
        have hrun := ih { st with D := st.D ++ [b], i := st.i + 1 } h.take_left hx.of_cons hy
          (by simpa using hks)
        simpa using hrun
      | cons c ys =>
        rw [mergeBody_cons h]
        by_cases hlt : b < c
        · have hrun := ih { st with D := st.D ++ [b], i := st.i + 1 } h.take_left hx.of_cons hy
            (by simp at hks ⊢; omega)
          rw [if_pos hlt, mergeUntil_of_lt hlt, crossCount_of_lt hlt hy]
          simpa using hrun
        · have hrun := ih { st with
            D := st.D ++ [c]
            numberInversion := st.numberInversion + (b :: xs).length
            j := st.j + 1 } h.take_right hx hy.of_cons (by simp at hks ⊢; omega)
          rw [if_neg hlt, mergeUntil_of_not_lt hlt, crossCount_of_not_lt hlt hx, ← Nat.add_assoc]
          simpa using hrun

theorem countAndMerge_eq {n : ℕ} (hB : B.length = n / 2) (hC : C.length = n - n / 2)
    (hx : B.Pairwise (· ≤ ·)) (hy : C.Pairwise (· ≤ ·)) : countAndMerge B C n =
      some ((mergeUntil B C).1 ++ (mergeUntil B C).2, crossCount (fun x y => y ≤ x) B C) := by
  have hloop := mergeBody_loop ⟨0, 0, [], 0⟩ (LeftAt.start B C) hx hy (List.range n)
    (by rw [List.length_range]; omega)
  rw [hB, hC] at hloop
  unfold countAndMerge
  dsimp only
  rw [hloop]
  simp

end Merge

/-- What is counted are the pairs that do not increase, equal elements among them. -/
theorem countAndSort_eq (fuel : ℕ) (A : List α) (hne : A ≠ []) (hfuel : A.length ≤ fuel) :
    ∃ D, countAndSort fuel A A.length = some (D, pairCount (fun x y => y ≤ x) A) ∧
      D.Perm A ∧ D.Pairwise (· ≤ ·) := by
  induction fuel generalizing A with
  | zero => exact absurd (List.eq_nil_of_length_eq_zero (Nat.le_zero.mp hfuel)) hne
  | succ fuel ih =>
    unfold countAndSort
    by_cases hone : A.length = 1
    · obtain ⟨a, rfl⟩ := List.length_eq_one_iff.mp hone
      refine ⟨[a], ?_, List.Perm.refl _, List.pairwise_singleton _ _⟩
      rw [if_pos hone]
      simp
    · have hpos : 0 < A.length := List.length_pos_iff.mpr hne
      have hlenB : (A.take (A.length / 2)).length = A.length / 2 := by
        rw [List.length_take]
        omega
      have hlenC : (A.drop (A.length / 2)).length = A.length - A.length / 2 := List.length_drop
      obtain ⟨B, hB, hpermB, hsortB⟩ := ih (A.take (A.length / 2))
        (List.ne_nil_of_length_pos (by omega)) (by omega)
      obtain ⟨C, hC, hpermC, hsortC⟩ := ih (A.drop (A.length / 2))
        (List.ne_nil_of_length_pos (by omega)) (by omega)
      have hmerge := countAndMerge_eq (n := A.length) (hpermB.length_eq.trans hlenB)
        (hpermC.length_eq.trans hlenC) hsortB hsortC
      refine ⟨(mergeUntil B C).1 ++ (mergeUntil B C).2, ?_, ?_, pairwise_mergeUntil hsortB hsortC⟩
      · rw [if_neg hone]
        dsimp only
        rw [hB, Option.bind_eq_bind, Option.bind_some, hC, Option.bind_some]
        dsimp only
        rw [hmerge, Option.bind_some]
        have hsplit := pairCount_append (fun x y : α => y ≤ x) (A.take (A.length / 2))
          (A.drop (A.length / 2))
        rw [List.take_append_drop] at hsplit
        rw [hsplit, crossCount_perm _ hpermB hpermC]
        rfl
      · calc ((mergeUntil B C).1 ++ (mergeUntil B C).2).Perm (B ++ C) := mergeUntil_perm B C
          List.Perm _ (A.take (A.length / 2) ++ A.drop (A.length / 2)) := hpermB.append hpermC
          _ = A := List.take_append_drop _ _

/-- The result is a sorted permutation of the list, of any length and with any repetitions. -/
theorem countAndSort_sorts (A : List α) (hne : A ≠ []) (fuel : ℕ) (hfuel : A.length ≤ fuel) :
    ∃ D z, countAndSort fuel A A.length = some (D, z) ∧ D.Perm A ∧ D.Pairwise (· ≤ ·) := by
  obtain ⟨D, hD, hperm, hsort⟩ := countAndSort_eq fuel A hne hfuel
  exact ⟨D, _, hD, hperm, hsort⟩

theorem countAndSort_sorts_five :
    ∃ D z, countAndSort 5 ([4, 1, 4, 2, 1] : List ℤ) 5 = some (D, z) ∧
      D.Perm [4, 1, 4, 2, 1] ∧ D.Pairwise (· ≤ ·) :=
  countAndSort_sorts [4, 1, 4, 2, 1] (List.cons_ne_nil _ _) 5 (Nat.le_refl 5)

theorem pairCount_ge_iff (A : List α) :
    pairCount (fun x y => y ≤ x) A = pairCount (fun x y => y < x) A ↔ A.Nodup := by
  have hsplit : pairCount (fun x y => y ≤ x) A =
      pairCount (fun x y => y < x) A + pairCount (fun x y => x = y) A := by
    rw [← pairCount_or _ _ (fun x y (h : y < x) => h.ne')]
    apply pairCount_congr
    intro x y
    rw [le_iff_lt_or_eq, eq_comm]
  rw [hsplit, ← pairCount_eq_zero_iff_nodup]
  omega

/-- What is counted are the inversions exactly when no element repeats. -/
theorem countAndSort_counts_iff (A : List α) (hne : A ≠ []) (fuel : ℕ) (hfuel : A.length ≤ fuel) :
    (∃ D, countAndSort fuel A A.length = some (D, pairCount (fun x y => y < x) A)) ↔
      A.Nodup := by
  obtain ⟨D, hD, -, -⟩ := countAndSort_eq fuel A hne hfuel
  rw [← pairCount_ge_iff, hD]
  constructor
  · intro h
    obtain ⟨E, hE⟩ := h
    exact (Prod.mk.inj (Option.some.inj hE)).2
  · intro h
    exact ⟨D, by rw [h]⟩

theorem countAndSort_counts_iff_five :
    (∃ D, countAndSort 5 ([1, 3, 5, 2, 4] : List ℤ) 5 =
      some (D, pairCount (fun x y => y < x) [1, 3, 5, 2, 4])) ↔
      ([1, 3, 5, 2, 4] : List ℤ).Nodup :=
  countAndSort_counts_iff [1, 3, 5, 2, 4] (List.cons_ne_nil _ _) 5 (Nat.le_refl 5)

/-- Two equal elements are counted. -/
theorem countAndSort_two_equal : countAndSort 2 ([1, 1] : List ℤ) 2 = some ([1, 1], 1) ∧
    pairCount (fun x y => y < x) ([1, 1] : List ℤ) = 0 := by decide

end CppTricks.Sort.CountingInversions
