import CppTricks.Foundation.Loops
import CppTricks.Foundation.OrderStatistics
import Mathlib.Algebra.BigOperators.Intervals

/-! `q2_nth`: the sum of the medians of all prefixes, with `nth_element` as a parameter. -/
namespace CppTricks.W6
open Foundation
open scoped BigOperators

variable (nthElement : List ℤ → ℕ → List ℤ)

/-- The body of the loop. `none` is a failed assertion, or an access outside `cursor`. -/
def medianStep (st : List ℤ × ℤ) (elem : ℤ) : Option (List ℤ × ℤ) := do
  let (cursor, mean) := st
  let cursor := cursor ++ [elem]
  let size := cursor.length
  let nth := if size % 2 = 1 then (size + 1) / 2 - 1 else size / 2 - 1
  if nth = cursor.length then none
  else
    let cursor := nthElement cursor nth
    let median ← cursor[nth]?
    return (cursor, mean + median)

def q2Nth (input : List ℤ) : Option ℤ := do
  let (_, mean) ← input.foldlM (medianStep nthElement) ([], 0)
  return mean

variable {nthElement} {input : List ℤ}

/-- The position of the median is the same for both parities. -/
theorem nth_eq (n : ℕ) :
    (if (n + 1) % 2 = 1 then (n + 1 + 1) / 2 - 1 else (n + 1) / 2 - 1) = (n + 2) / 2 - 1 := by
  split <;> omega

/-- The median of the first `k` elements, or 0 where there is none. -/
def medianOf (input : List ℤ) (k : ℕ) : ℤ := (kthSmallest ((k + 1) / 2) (input.take k)).getD 0

theorem medianStep_eq (h : IsNthElement nthElement) {t cursor : List ℤ} {elem : ℤ} (mean : ℤ)
    (hfront : t ++ [elem] <+: input) (hcursor : cursor.Perm t) :
    ∃ cursor', medianStep nthElement (cursor, mean) elem =
      some (cursor', mean + medianOf input (t.length + 1)) ∧ cursor'.Perm (t ++ [elem]) := by
  have hperm : (cursor ++ [elem]).Perm (t ++ [elem]) := hcursor.append_right [elem]
  have hlength : (cursor ++ [elem]).length = t.length + 1 := by
    rw [hperm.length_eq, List.length_append, List.length_singleton]
  have htake : input.take (t.length + 1) = t ++ [elem] := by
    have := (List.prefix_iff_eq_take.mp hfront).symm
    rwa [List.length_append, List.length_singleton] at this
  have hnth : (t.length + 2) / 2 - 1 < (cursor ++ [elem]).length := by omega
  obtain ⟨x, hx⟩ := exists_kthSmallest (k := (t.length + 2) / 2 - 1 + 1) hnth
  have hmedian : medianOf input (t.length + 1) = x := by
    unfold medianOf
    rw [htake, ← kthSmallest_perm hperm, show (t.length + 1 + 1) / 2 = (t.length + 2) / 2 - 1 + 1 by
      omega, hx, Option.getD_some]
  refine ⟨_, ?_, (h.perm _ ((t.length + 2) / 2 - 1)).trans hperm⟩
  unfold medianStep
  dsimp only
  rw [hlength, nth_eq, if_neg (by omega), h.kthSmallest hnth, hx, hmedian]
  rfl

/-- The medians of all prefixes are there, and the result is their sum. -/
theorem q2Nth_eq (h : IsNthElement nthElement) (input : List ℤ) :
    (∀ k ∈ Finset.Icc 1 input.length,
      ∃ x, kthSmallest ((k + 1) / 2) (input.take k) = some x) ∧
    q2Nth nthElement input = some (∑ k ∈ Finset.Icc 1 input.length,
      (kthSmallest ((k + 1) / 2) (input.take k)).getD 0) := by
  constructor
  · intro k hk
    rw [Finset.mem_Icc] at hk
    apply exists_kthSmallest
    rw [List.length_take]
    omega
  · obtain ⟨⟨cursor, mean⟩, hrun, -, hmean⟩ := foldlM_prefix
      (P := fun t (st : List ℤ × ℤ) =>
        st.1.Perm t ∧ st.2 = ∑ k ∈ Finset.Icc 1 t.length, medianOf input k)
      (f := medianStep nthElement) input (by
        rintro t elem ⟨cursor, mean⟩ hfront ⟨hcursor, hmean⟩
        obtain ⟨cursor', hstep, hperm⟩ := medianStep_eq h mean hfront hcursor
        refine ⟨_, hstep, hperm, ?_⟩
        rw [List.length_append, List.length_singleton,
          Finset.sum_Icc_succ_top (Nat.succ_le_succ (Nat.zero_le _)), ← hmean])
      ([], 0) ⟨.nil, rfl⟩
    unfold q2Nth
    rw [hrun]
    exact congrArg some hmean

theorem q2Nth_eq_three : (∀ k ∈ Finset.Icc 1 [5, 1, 4].length,
      ∃ x, kthSmallest ((k + 1) / 2) (([5, 1, 4] : List ℤ).take k) = some x) ∧
    q2Nth (fun v _ => v.mergeSort (· ≤ ·)) [5, 1, 4] = some (∑ k ∈ Finset.Icc 1 [5, 1, 4].length,
      (kthSmallest ((k + 1) / 2) (([5, 1, 4] : List ℤ).take k)).getD 0) :=
  q2Nth_eq isNthElement_mergeSort [5, 1, 4]

end CppTricks.W6
