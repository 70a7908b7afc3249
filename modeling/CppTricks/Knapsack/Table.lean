import CppTricks.Foundation.Grid
import CppTricks.Knapsack.KnapSackExp
import Mathlib.Algebra.Order.Interval.Finset.SuccPred
import Mathlib.Data.Nat.SuccPred
import Mathlib.Order.Interval.Finset.Nat

/-! The table of `KnapsackProblem`, with exact integers. Row 0 stands for no items: entry 0 of the
items is a guard that no cell uses. -/
namespace CppTricks.Knapsack
open Foundation

/-- The capacity and the value that the inner loop ends up with for `item`. -/
def reroute (item : Item) (x : ℕ) : ℤ × ℤ :=
  let wBoundary := x - item.w
  if wBoundary < 0 then (x, 0) else (wBoundary, item.v)

def fillCell (items : List Item) (A : Grid ℤ) (i x : ℕ) : Option (Grid ℤ) := do
  let item ← items[i]?
  let (wBoundary, v) := reroute item x
  let invalid ← A.cell (i - 1) x
  let valid ← A.cell (i - 1) wBoundary.toNat
  A.write i x (max invalid (valid + v))

/-- `none` is an access outside `items` or `A`. -/
def knapsackProblem (W : ℕ) (items : List Item) : Option (Grid ℤ) :=
  (List.range' 1 (items.length - 1)).foldlM
    (fun A i => (List.range (W + 1)).foldlM (fun A x => fillCell items A i x) A)
    (List.replicate items.length (List.replicate (W + 1) 0))

variable {items : List Item} {item : Item} {i x : ℕ} {m invalid valid : ℤ}

/-- Items `1` to `i`, those a cell of row `i` speaks of. -/
def row (i : ℕ) : Finset ℕ := Finset.Icc 1 i

theorem row_succ (i : ℕ) : row (i + 1) = insert (i + 1) (row i) :=
  (Finset.insert_Icc_right_eq_Icc_add_one (Nat.le_add_left 1 i)).symm

theorem reroute_of_lt (h : (x : ℤ) < item.w) : reroute item x = ((x : ℤ), (0 : ℤ)) :=
  if_pos (sub_neg.mpr h)

theorem reroute_of_le (h : item.w ≤ x) : reroute item x = (x - item.w, item.v) :=
  if_neg (not_lt.mpr (sub_nonneg.mpr h))

theorem reroute_nonneg (hv : 0 ≤ item.v) (x : ℕ) : 0 ≤ (reroute item x).2 := by
  by_cases h : (x : ℤ) < item.w
  · rw [reroute_of_lt h]
  · rw [reroute_of_le (not_lt.mp h)]
    exact hv

theorem reroute_le (hw : 0 ≤ item.w) (x : ℕ) : (reroute item x).1.toNat ≤ x := by
  by_cases h : (x : ℤ) < item.w
  · rw [reroute_of_lt h]
    exact (Int.toNat_natCast x).le
  · rw [reroute_of_le (not_lt.mp h)]
    simp only
    omega

theorem optimum_row_zero (items : List Item) (x : ℕ) : Optimum items (row 0) x 0 := by
  apply best_empty
  intro S
  exact fits_empty_iff _ (by omega)

theorem Optimum.nonneg (h : Optimum items (row i) x m) : 0 ≤ m := by
  have hempty : Fits (weight items) (row i) (x : ℤ) ∅ := by
    constructor
    · exact Finset.empty_subset _
    · rw [Finset.sum_empty]
      exact Int.natCast_nonneg x
  exact h.le hempty

/-- The recurrence of the table, for an item that fits and for one that does not. -/
theorem optimum_row_succ (hitems : ∀ item ∈ items, 0 ≤ item.w) (hi : items[i + 1]? = some item)
    (hinvalid : Optimum items (row i) x invalid)
    (hvalid : Optimum items (row i) (reroute item x).1.toNat valid) :
    Optimum items (row (i + 1)) x (max invalid (valid + (reroute item x).2)) := by
  have hwi := weight_eq hi
  have hw := hitems item (List.mem_of_getElem? hi)
  unfold Optimum at *
  rw [row_succ]
  by_cases hlt : (x : ℤ) < item.w
  · rw [reroute_of_lt hlt] at hvalid ⊢
    obtain rfl := hinvalid.unique hvalid
    rw [add_zero, max_self]
    apply hinvalid.congr
    intro S
    exact (fits_insert_iff_of_lt (fun i _ => weight_nonneg hitems i) (by rwa [hwi]) S).symm
  · have hle : item.w ≤ x := not_lt.mp hlt
    have hnat : ((x - item.w).toNat : ℤ) = x - item.w := Int.toNat_of_nonneg (by omega)
    have hnotMem : i + 1 ∉ row i := by simp [row]
    rw [reroute_of_le hle] at hvalid ⊢
    rw [hnat, ← hwi] at hvalid
    rw [← value_eq hi]
    apply hinvalid.choose hvalid
    · intro T hT
      exact hT.notMem hnotMem
    · exact fits_insert_iff (weight items) hnotMem x

/-- What a step of the loop reads for item `i + 1`: the item, and two optima of the row above. -/
theorem exists_reads {A : Grid ℤ} (hitems : ∀ item ∈ items, 0 ≤ item.w) (hi : i + 1 < items.length)
    (habove : ∀ y ≤ x, ∃ m, A.cell i y = some m ∧ Optimum items (row i) y m) :
    ∃ item invalid valid, items[i + 1]? = some item ∧ A.cell i x = some invalid ∧
      A.cell i (reroute item x).1.toNat = some valid ∧ 0 ≤ valid ∧
      Optimum items (row (i + 1)) x (max invalid (valid + (reroute item x).2)) := by
  have hget : items[i + 1]? = some items[i + 1] := List.getElem?_eq_getElem hi
  have hle := reroute_le (hitems items[i + 1] (List.getElem_mem hi)) x
  obtain ⟨invalid, hinvalid, hopt⟩ := habove x le_rfl
  obtain ⟨valid, hvalid, hopt'⟩ := habove _ hle
  exact ⟨items[i + 1], invalid, valid, hget, hinvalid, hvalid, hopt'.nonneg,
    optimum_row_succ hitems hget hopt hopt'⟩

/-- Every cell is the optimum over the items up to its row and its capacity. -/
theorem knapsackProblem_optimum (hitems : ∀ item ∈ items, 0 ≤ item.w) (W : ℕ) :
    ∃ A, knapsackProblem W items = some A ∧ ∀ i x, i < items.length → x < W + 1 →
      ∃ m, A.cell i x = some m ∧ Optimum items (row i) x m := by
  apply Grid.Filled.rows (P := fun i x m => Optimum items (row i) x m) (Q := fun _ _ _ => True)
  · intro A i x hi hiN hx hA
    obtain ⟨i, rfl⟩ : ∃ j, i = j + 1 := ⟨i - 1, by omega⟩
    obtain ⟨item, invalid, valid, hget, hinvalid, hvalid, -, hopt⟩ :=
      exists_reads (x := x) hitems hiN fun y hy => by
        obtain ⟨m, hm, hopt, -⟩ := hA i y (by omega) (by omega)
        exact ⟨m, hm, hopt (.inl (Nat.lt_succ_self i))⟩
    refine ⟨_, ?_, hopt⟩
    unfold fillCell
    simp [hget, hinvalid, hvalid]
  · intro j y hj hy
    refine ⟨0, Grid.cell_replicate hj hy 0, fun hbefore => ?_, fun _ => trivial⟩
    obtain rfl : j = 0 := by
      unfold Grid.Before at hbefore
      omega
    exact optimum_row_zero items y

/-- Every cell of the table is the optimum of its row and column, and no step of the loops reads or
writes outside the table. -/
theorem knapsackProblem_cells_optimal (items : List Item) (W : ℕ)
    (hitems : ∀ item ∈ items, 0 ≤ item.w) :
    (∃ A, knapsackProblem W items = some A ∧ ∀ i x, i < items.length → x ≤ W →
      ∃ m, A.cell i x = some m ∧ Optimum items (row i) x m) ∧
    ∀ item ∈ items, ∀ x ≤ W, 0 ≤ (reroute item x).1 ∧ (reroute item x).1 ≤ W := by
  constructor
  · obtain ⟨A, hA, hcells⟩ := knapsackProblem_optimum hitems W
    exact ⟨A, hA, fun i x hi hx => hcells i x hi (Nat.lt_succ_of_le hx)⟩
  · intro item hitem x hx
    have hw := hitems item hitem
    by_cases h : (x : ℤ) < item.w
    · rw [reroute_of_lt h]
      constructor
      · exact Int.natCast_nonneg x
      · exact Int.ofNat_le.mpr hx
    · rw [reroute_of_le (not_lt.mp h)]
      constructor
      · exact sub_nonneg.mpr (not_lt.mp h)
      · have hle : (x : ℤ) ≤ W := Int.ofNat_le.mpr hx
        exact (Int.sub_le_self _ hw).trans hle

theorem knapsackProblem_cells_optimal_getTestItems :
    ∃ A m, knapsackProblem 6 getTestItems.2 = some A ∧ A.cell 4 6 = some m ∧
      Optimum getTestItems.2 (row 4) (6 : ℕ) m := by
  obtain ⟨⟨A, hA, hcells⟩, -⟩ := knapsackProblem_cells_optimal getTestItems.2 6 (by decide)
  obtain ⟨m, hm, hopt⟩ := hcells 4 6 (by decide) (by decide)
  exact ⟨A, m, hA, hm, hopt⟩

end CppTricks.Knapsack
