import Mathlib.Data.List.Sort

/-! Order statistics of a list, and what a partial sort around a position does. -/
namespace Foundation

variable {α : Type} [LinearOrder α] {v w : List α}

/-- The `k`-th smallest element, counted from 1 and with multiplicity. -/
def kthSmallest (k : ℕ) (v : List α) : Option α := (v.mergeSort (· ≤ ·))[k - 1]?

theorem kthSmallest_perm (h : v.Perm w) (k : ℕ) : kthSmallest k v = kthSmallest k w := by
  have hperm : (v.mergeSort (· ≤ ·)).Perm (w.mergeSort (· ≤ ·)) :=
    ((v.mergeSort_perm _).trans h).trans (w.mergeSort_perm _).symm
  have hsort := hperm.eq_of_pairwise' (v.pairwise_mergeSort' (· ≤ ·))
    (w.pairwise_mergeSort' (· ≤ ·))
  unfold kthSmallest
  rw [hsort]

theorem exists_kthSmallest {k : ℕ} (hk : k - 1 < v.length) : ∃ x, kthSmallest k v = some x := by
  have hlt : k - 1 < (v.mergeSort (· ≤ ·)).length := by rwa [List.length_mergeSort]
  exact ⟨_, List.getElem?_eq_getElem hlt⟩

/-- The range is permuted, and the element at position `n` is where a full sort would put it. -/
structure IsNthElement (nthElement : List α → ℕ → List α) : Prop where
  perm : ∀ v n, (nthElement v n).Perm v
  getElem?_eq : ∀ v n, n < v.length → (nthElement v n)[n]? = (v.mergeSort (· ≤ ·))[n]?

theorem IsNthElement.kthSmallest {nthElement : List α → ℕ → List α} (h : IsNthElement nthElement)
    {n : ℕ} (hn : n < v.length) : (nthElement v n)[n]? = kthSmallest (n + 1) v :=
  h.getElem?_eq v n hn

theorem isNthElement_mergeSort : IsNthElement fun (v : List α) _ => v.mergeSort (· ≤ ·) where
  perm v _ := v.mergeSort_perm _
  getElem?_eq _ _ _ := rfl

end Foundation
