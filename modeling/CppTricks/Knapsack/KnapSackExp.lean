import CppTricks.Foundation.Selection
import Mathlib.Algebra.Order.Group.Int

/-! The knapsack recursion on a vector of items, with exact integers. -/
namespace CppTricks.Knapsack
open Foundation

structure Item where
  v : ℤ
  w : ℤ
deriving DecidableEq

def getTestItems : ℕ × List Item := (6, [⟨0, 0⟩, ⟨3, 4⟩, ⟨2, 3⟩, ⟨4, 2⟩, ⟨4, 3⟩])

/-- `none` is a read outside `items`. -/
def knapSackExp : ℤ → ℕ → List Item → Option ℤ
  | _, 0, _ => some 0
  | wBound, n + 1, items =>
    if wBound = 0 then some 0
    else do
      let item ← items[n]?
      if item.w > wBound then knapSackExp wBound n items
      else
        let included ← knapSackExp (wBound - item.w) n items
        let excluded ← knapSackExp wBound n items
        return max (included + item.v) excluded

variable {items : List Item} {item : Item} {wBound x y : ℤ} {n : ℕ}

@[simp] theorem knapSackExp_idx_zero (wBound : ℤ) (items : List Item) :
    knapSackExp wBound 0 items = some 0 := by
  unfold knapSackExp
  rfl

@[simp] theorem knapSackExp_wBound_zero (n : ℕ) (items : List Item) :
    knapSackExp 0 n items = some 0 := by
  cases n with
  | zero => exact knapSackExp_idx_zero 0 items
  | succ n =>
    unfold knapSackExp
    exact if_pos rfl

theorem knapSackExp_of_lt (hw : wBound ≠ 0) (hi : items[n]? = some item) (h : item.w > wBound) :
    knapSackExp wBound (n + 1) items = knapSackExp wBound n items := by
  rw [knapSackExp, if_neg hw, hi]
  exact if_pos h

theorem knapSackExp_of_le (hw : wBound ≠ 0) (hi : items[n]? = some item) (h : item.w ≤ wBound)
    (hx : knapSackExp (wBound - item.w) n items = some x)
    (hy : knapSackExp wBound n items = some y) :
    knapSackExp wBound (n + 1) items = some (max (x + item.v) y) := by
  rw [knapSackExp, if_neg hw, hi]
  have hle : ¬ item.w > wBound := not_lt.mpr h
  simp [hle, hx, hy]

/-- No call for at most `items.size()` items reads outside them. -/
theorem exists_knapSackExp (hn : n ≤ items.length) (wBound : ℤ) :
    ∃ m, knapSackExp wBound n items = some m := by
  induction n generalizing wBound with
  | zero => exact ⟨0, knapSackExp_idx_zero wBound items⟩
  | succ n ih =>
    by_cases hw : wBound = 0
    · exact ⟨0, by rw [hw, knapSackExp_wBound_zero]⟩
    · have hi : items[n]? = some items[n] := List.getElem?_eq_getElem hn
      obtain ⟨y, hy⟩ := ih (by omega) wBound
      by_cases h : items[n].w > wBound
      · exact ⟨y, by rw [knapSackExp_of_lt hw hi h, hy]⟩
      · obtain ⟨x, hx⟩ := ih (by omega) (wBound - items[n].w)
        exact ⟨_, knapSackExp_of_le hw hi (not_lt.mp h) hx hy⟩

/-! ### Selections of items -/

def weight (items : List Item) (i : ℕ) : ℤ := (items[i]?.map Item.w).getD 0

def value (items : List Item) (i : ℕ) : ℤ := (items[i]?.map Item.v).getD 0

/-- The greatest total value of items with indices in `K` that weigh at most `x` together. -/
def Optimum (items : List Item) (K : Finset ℕ) (x m : ℤ) : Prop :=
  Best (Fits (weight items) K x) (value items) m

/-- Some best selection takes each of its items, from the last one downwards, while capacity is
left. -/
def RoomSuffices (items : List Item) (W : ℤ) : Prop :=
  ∃ S, (Fits (weight items) (Finset.range items.length) W S ∧ WhileRoom (weight items) W S) ∧
    Optimum items (Finset.range items.length) W (∑ i ∈ S, value items i)

theorem weight_eq (hi : items[n]? = some item) : weight items n = item.w := by
  unfold weight
  rw [hi]
  rfl

theorem value_eq (hi : items[n]? = some item) : value items n = item.v := by
  unfold value
  rw [hi]
  rfl

theorem weight_nonneg (hitems : ∀ item ∈ items, 0 ≤ item.w) (i : ℕ) : 0 ≤ weight items i := by
  unfold weight
  cases hi : items[i]? with
  | none => exact le_rfl
  | some item => exact hitems item (List.mem_of_getElem? hi)

/-- The recursion searches the selections that are taken while capacity is left. -/
theorem knapSackExp_best (hitems : ∀ item ∈ items, 0 ≤ item.w) (hn : n ≤ items.length)
    (hw : 0 ≤ wBound) :
    ∃ m, knapSackExp wBound n items = some m ∧
      Best (fun S => Fits (weight items) (Finset.range n) wBound S ∧
        WhileRoom (weight items) wBound S) (value items) m := by
  induction n generalizing wBound with
  | zero =>
    refine ⟨0, knapSackExp_idx_zero wBound items, best_empty _ fun S => ?_⟩
    rw [Finset.range_zero, fits_empty_iff _ hw]
    constructor
    · intro h
      exact h.1
    · intro h
      subst h
      exact ⟨rfl, by simp [WhileRoom]⟩
  | succ n ih =>
    by_cases hzero : wBound = 0
    · subst hzero
      refine ⟨0, knapSackExp_wBound_zero _ items, best_empty _ fun S => ?_⟩
      exact fits_whileRoom_zero_iff (fun i _ => weight_nonneg hitems i) S
    · have hi : items[n]? = some items[n] := List.getElem?_eq_getElem hn
      have hwi := weight_eq hi
      have hpos : 0 < wBound := by omega
      obtain ⟨y, hy, hbest⟩ := ih (by omega) hw
      by_cases h : items[n].w > wBound
      · refine ⟨y, by rw [knapSackExp_of_lt hzero hi h, hy], hbest.congr fun S => ?_⟩
        rw [Finset.range_add_one, fits_insert_iff_of_lt (fun i _ => weight_nonneg hitems i)
          (by rw [hwi]; exact h)]
      · have hleft : 0 ≤ wBound - items[n].w := by omega
        obtain ⟨x, hx, hbest'⟩ := ih (by omega) hleft
        refine ⟨_, knapSackExp_of_le hzero hi (not_lt.mp h) hx hy, ?_⟩
        rw [max_comm, ← value_eq hi]
        rw [← hwi] at hbest'
        apply hbest.choose hbest'
        · intro T hT
          exact hT.1.notMem Finset.notMem_range_self
        · intro S
          rw [Finset.range_add_one]
          exact fits_whileRoom_insert_iff (fun i hi => Finset.mem_range.mp hi) hpos S

/-- The recursion is optimal exactly when no item of every best selection is met at capacity 0. -/
theorem knapSackExp_optimum_iff (hitems : ∀ item ∈ items, 0 ≤ item.w) (hw : 0 ≤ wBound) :
    (∃ m, knapSackExp wBound items.length items = some m ∧
        Optimum items (Finset.range items.length) wBound m) ↔
      RoomSuffices items wBound := by
  obtain ⟨m, hm, hbest⟩ := knapSackExp_best hitems (Nat.le_refl items.length) hw
  constructor
  · intro h
    obtain ⟨m', hm', hopt⟩ := h
    obtain rfl : m = m' := Option.some.inj (hm.symm.trans hm')
    obtain ⟨S, hS, rfl⟩ := hbest.exists
    exact ⟨S, hS, hopt⟩
  · intro h
    obtain ⟨S, hS, hopt⟩ := h
    obtain ⟨T, hT, rfl⟩ := hbest.exists
    have heq : ∑ i ∈ T, value items i = ∑ i ∈ S, value items i :=
      le_antisymm (hopt.le hT.1) (hbest.le hS)
    exact ⟨_, hm, by rwa [heq]⟩

/-- Where an item that weighs nothing is worth nothing, the room suffices. -/
theorem roomSuffices_of_worthless (hitems : ∀ item ∈ items, 0 ≤ item.w)
    (hzero : ∀ item ∈ items, item.w = 0 → item.v = 0) (hw : 0 ≤ wBound) :
    RoomSuffices items wBound := by
  obtain ⟨S, hS, hbest⟩ := exists_best_fits (weight items) (value items)
    (Finset.range items.length) hw
  have hworth : ∀ i ∈ Finset.range items.length, weight items i = 0 → value items i = 0 := by
    intro i hi hwi
    have hlt := Finset.mem_range.mp hi
    have hget : items[i]? = some items[i] := List.getElem?_eq_getElem hlt
    rw [weight_eq hget] at hwi
    rw [value_eq hget]
    exact hzero items[i] (List.getElem_mem hlt) hwi
  obtain ⟨T, hT, hroom, heq⟩ :=
    hS.exists_whileRoom (fun i _ => weight_nonneg hitems i) hworth
  exact ⟨T, ⟨hT, hroom⟩, by rwa [heq]⟩

end CppTricks.Knapsack
