import CppTricks.Knapsack.IntSums

/-! The table of `BigKnapsackProblem`, where an item that fits is compared with the cell itself and
not with the row above. -/
namespace CppTricks.Knapsack
open Foundation

def bigFillCell? (items : List Item) (A : Grid ℤ) (i x : ℕ) : Option (Grid ℤ) := do
  let item ← items[i]?
  let wBoundary ← int? (x - item.w)
  if wBoundary < 0 then
    let above ← A.cell (i - 1) x
    A.write i x above
  else
    let own ← A.cell i x
    let valid ← A.cell (i - 1) wBoundary.toNat
    let sum ← int? (valid + item.v)
    A.write i x (max own sum)

def bigKnapsackProblem? (W : ℕ) (items : List Item) : Option (Grid ℤ) :=
  fillTable? W items (bigFillCell? items)

/-- Each item, wherever it fits, is in some best selection of the items up to it. -/
def EachIsTaken (items : List Item) (W : ℕ) : Prop :=
  ∀ i x : ℕ, 1 ≤ i → i < items.length → weight items i ≤ x → x ≤ W →
    ∃ S, i ∈ S ∧ Fits (weight items) (row i) x S ∧
      Optimum items (row i) x (∑ j ∈ S, value items j)

/-- What the loop leaves in row `i` at capacity `x`. -/
def bigCell (items : List Item) : ℕ → ℤ → ℤ
  | 0, _ => 0
  | i + 1, x =>
    if x < weight items (i + 1) then bigCell items i x
    else max 0 (bigCell items i (x - weight items (i + 1)) + value items (i + 1))

variable {items : List Item} {i x W : ℕ} {m m₁ m₂ : ℤ}

theorem bigCell_of_lt (h : (x : ℤ) < weight items (i + 1)) :
    bigCell items (i + 1) x = bigCell items i x := if_pos h

theorem bigCell_of_le (h : weight items (i + 1) ≤ x) :
    bigCell items (i + 1) x =
      max 0 (bigCell items i (x - weight items (i + 1)) + value items (i + 1)) :=
  if_neg (not_lt.mpr h)

theorem bigCell_nonneg (items : List Item) (i : ℕ) (x : ℤ) : 0 ≤ bigCell items i x := by
  induction i generalizing x with
  | zero => exact le_rfl
  | succ i ih =>
    unfold bigCell
    split
    · exact ih x
    · exact le_max_left 0 _

theorem exists_bigCell (items : List Item) (i : ℕ) {c : ℤ} (hc : 0 ≤ c) :
    ∃ S, Fits (weight items) (row i) c S ∧ ∑ j ∈ S, value items j = bigCell items i c := by
  have hempty : ∀ i c, 0 ≤ c → Fits (weight items) (row i) c ∅ := fun i c hc =>
    ⟨Finset.empty_subset _, by simpa using hc⟩
  induction i generalizing c with
  | zero => exact ⟨∅, hempty 0 c hc, rfl⟩
  | succ i ih =>
    unfold bigCell
    split
    case isTrue hlt =>
      obtain ⟨S, hS, hsum⟩ := ih hc
      exact ⟨S, hS.mono (row_subset_row (Nat.le_succ i)) le_rfl, hsum⟩
    case isFalse hle =>
      obtain ⟨T, hT, hsum⟩ := ih (c := c - weight items (i + 1)) (by omega)
      have hnotMem : i + 1 ∉ row i := by simp [row]
      have htaken : ∑ j ∈ insert (i + 1) T, value items j =
          bigCell items i (c - weight items (i + 1)) + value items (i + 1) := by
        rw [Finset.sum_insert (hT.notMem hnotMem), hsum, add_comm]
      cases le_total 0 (bigCell items i (c - weight items (i + 1)) + value items (i + 1)) with
      | inl hpos =>
        refine ⟨insert (i + 1) T, ?_, by rw [htaken, max_eq_right hpos]⟩
        rw [row_succ, fits_insert_iff (weight items) hnotMem]
        exact .inr ⟨T, hT, rfl⟩
      | inr hneg => exact ⟨∅, hempty (i + 1) c hc, (max_eq_left hneg).symm⟩

/-- The loop leaves `bigCell` in every cell, or some selection that fits is worth no `int`. -/
theorem bigKnapsackProblem?_or_none (hitems : ∀ item ∈ items, item.Nonneg)
    (hlen : items.length ≤ intMax) (hW : W < intMax) :
    (∃ B, bigKnapsackProblem? W items = some B ∧ ∀ i x, i < items.length → x < W + 1 →
      ∃ m, B.cell i x = some m ∧ m = bigCell items i x) ∨
    bigKnapsackProblem? W items = none ∧ ¬ WorthInt items (row (items.length - 1)) W := by
  refine fillTable?_or_none (P := fun i x m => m = bigCell items i x) (Q := fun _ _ m => m = 0)
    hlen hW ?_ (fun _ => rfl) fun _ _ => rfl
  intro A i x hi hiN hx hA
  obtain ⟨i, rfl⟩ : ∃ j, i = j + 1 := ⟨i - 1, by omega⟩
  have habove : ∀ y < W + 1, A.cell i y = some (bigCell items i y) := by
    intro y hy
    obtain ⟨m, hm, hcell, -⟩ := hA i y (by omega) hy
    rw [hm, hcell (.inl (Nat.lt_succ_self i))]
  have hown : A.cell (i + 1) x = some 0 := by
    obtain ⟨m, hm, -, hzero⟩ := hA (i + 1) x hiN hx
    rw [hm, hzero (by unfold Grid.Before; omega)]
  have hget : items[i + 1]? = some items[i + 1] := List.getElem?_eq_getElem hiN
  have hitem := hitems items[i + 1] (List.getElem_mem hiN)
  have hwi := weight_eq hget
  have hvi := value_eq hget
  have hint := int?_sub_weight hitem (x := x) (by omega)
  have hw := hitem.2.1
  unfold bigFillCell?
  rw [hget, Option.bind_eq_bind, Option.bind_some, hint, Option.bind_eq_bind, Option.bind_some,
    Nat.add_sub_cancel]
  by_cases hlt : (x : ℤ) < items[i + 1].w
  · rw [if_pos (by omega), habove x hx]
    exact .inl ⟨_, rfl, (bigCell_of_lt (by rwa [hwi])).symm⟩
  · have hle := not_lt.mp hlt
    have hnat : ((x - items[i + 1].w).toNat : ℤ) = x - items[i + 1].w :=
      Int.toNat_of_nonneg (sub_nonneg.mpr hle)
    have hleft := habove (x - items[i + 1].w).toNat (by omega)
    have hcell : bigCell items (i + 1) x = _ := bigCell_of_le (by rwa [hwi])
    rw [hnat] at hleft
    rw [hwi, hvi] at hcell
    rw [if_neg (by omega), hown, hleft, Option.bind_some, Option.bind_some,
      int?_of_nonneg (add_nonneg (bigCell_nonneg items i _) hitem.1.1)]
    by_cases hsum : bigCell items i (x - items[i + 1].w) + items[i + 1].v ≤ intMax
    · rw [if_pos hsum]
      exact .inl ⟨_, rfl, hcell.symm⟩
    · rw [if_neg hsum]
      refine .inr ⟨rfl, fun hworth => hsum ?_⟩
      obtain ⟨S, hS, heq⟩ := exists_bigCell items (i + 1) (Int.natCast_nonneg x)
      have hrow : WorthInt items (row (i + 1)) x :=
        hworth.mono (row_subset_row (by omega)) (Nat.le_of_lt_succ hx)
      rw [hcell] at heq
      exact (le_max_right _ _).trans (heq ▸ hrow S hS)

/-! ### When the two tables agree -/

/-- Row `i` of the big table has the optimum in every cell. -/
def RowOptimal (items : List Item) (W i : ℕ) : Prop :=
  ∀ x : ℕ, x ≤ W → Optimum items (row i) x (bigCell items i x)

/-- One cell is optimal exactly when its item, if it fits, is in some best selection. -/
private theorem optimum_bigCell_succ_iff (hitems : ∀ item ∈ items, 0 ≤ item.v ∧ 0 ≤ item.w)
    (hrow : RowOptimal items W i) (hi : i + 1 < items.length) (hx : x ≤ W) :
    Optimum items (row (i + 1)) x (bigCell items (i + 1) x) ↔
      (weight items (i + 1) ≤ x → ∃ S, i + 1 ∈ S ∧ Fits (weight items) (row (i + 1)) x S ∧
        Optimum items (row (i + 1)) x (∑ j ∈ S, value items j)) := by
  have hget : items[i + 1]? = some items[i + 1] := List.getElem?_eq_getElem hi
  have hv : 0 ≤ value items (i + 1) := by
    rw [value_eq hget]
    exact (hitems _ (List.getElem_mem hi)).1
  have hw : ∀ j, 0 ≤ weight items j := weight_nonneg fun item hmem => (hitems item hmem).2
  have hnotMem : i + 1 ∉ row i := by simp [row]
  have hout := hrow x hx
  by_cases hlt : (x : ℤ) < weight items (i + 1)
  · have hopt : Optimum items (row (i + 1)) x (bigCell items (i + 1) x) := by
      rw [bigCell_of_lt hlt, row_succ]
      apply hout.congr
      intro S
      exact (fits_insert_iff_of_lt (fun j _ => hw j) hlt S).symm
    constructor
    · intro _ hle
      exact absurd hlt (not_lt.mpr hle)
    · intro _
      exact hopt
  · have hle : weight items (i + 1) ≤ x := not_lt.mp hlt
    obtain ⟨y, hy⟩ := Int.eq_ofNat_of_zero_le (sub_nonneg.mpr hle)
    have hyW : y ≤ W := by
      have := hw (i + 1)
      omega
    have hin := hrow y hyW
    have hnonneg := hin.nonneg
    have hcell : bigCell items (i + 1) x = bigCell items i y + value items (i + 1) := by
      rw [bigCell_of_le hle, hy]
      exact max_eq_right (add_nonneg hnonneg hv)
    have hH : ∀ S, Fits (weight items) (row (i + 1)) x S ↔ Fits (weight items) (row i) x S ∨
        ∃ T, Fits (weight items) (row i) y T ∧ S = insert (i + 1) T := by
      intro S
      rw [row_succ, ← hy]
      exact fits_insert_iff (weight items) hnotMem x S
    have hbest : Optimum items (row (i + 1)) x
        (max (bigCell items i x) (bigCell items i y + value items (i + 1))) :=
      hout.choose hin (fun T hT => hT.notMem hnotMem) hH
    have htaking := hout.exists_taking_iff hin (fun S hS => hS.notMem hnotMem)
      (fun T hT => hT.notMem hnotMem) hH
    rw [hcell]
    constructor
    · intro hopt _
      exact htaking.mpr (max_eq_right_iff.mp (hbest.unique hopt))
    · intro htaken
      rwa [max_eq_right (htaking.mp (htaken hle))] at hbest

theorem rowOptimal_zero (items : List Item) (W : ℕ) : RowOptimal items W 0 :=
  fun x _ => optimum_row_zero items x

/-- The big table is optimal everywhere exactly when each item is taken wherever it fits. -/
theorem rowOptimal_iff (hitems : ∀ item ∈ items, 0 ≤ item.v ∧ 0 ≤ item.w) (W : ℕ) :
    (∀ i < items.length, RowOptimal items W i) ↔ EachIsTaken items W := by
  constructor
  · intro h i x hi hiN hle hx
    obtain ⟨i, rfl⟩ : ∃ j, i = j + 1 := ⟨i - 1, by omega⟩
    exact (optimum_bigCell_succ_iff hitems (h i (by omega)) hiN hx).mp (h (i + 1) hiN x hx) hle
  · intro h i hi
    induction i with
    | zero => exact rowOptimal_zero items W
    | succ i ih =>
      intro x hx
      apply (optimum_bigCell_succ_iff hitems (ih (by omega)) hi hx).mpr
      intro hle
      exact h (i + 1) x (Nat.le_add_left 1 i) hi hle hx

example : bigKnapsackProblem? 1 [⟨0, 0⟩, ⟨5, 1⟩, ⟨1, 1⟩] = some [[0, 0], [0, 5], [0, 1]] := by
  decide

end CppTricks.Knapsack
