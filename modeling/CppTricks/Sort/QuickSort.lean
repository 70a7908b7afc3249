import CppTricks.Sort.Pivots
import Mathlib.Algebra.Group.Nat.Defs

/-! `QuickSortImpl` and `QuickSortInv`. -/
namespace CppTricks.Sort

variable {σ R : Type}

/-- `partition(array, idxPivot)` of a `Partioner`: the index it returns and the list it leaves. -/
abbrev Partioner (R : Type) := List R → ℤ → Except Thrown (ℕ × List R)

structure SortState (σ : Type) where
  pivot : σ
  sum : ℤ

def SortState.add (st : SortState σ) (array : List R) : SortState σ :=
  { st with sum := (st.sum + ((array.length : ℤ) - 1)).bmod (2 ^ 32) }

/-- `if (i != 0) sort(array.subList(0, i));`, where a view writes through to the list. -/
def sortLeft (sort : List R → SortState σ → Except Thrown (List R × SortState σ)) (array : List R)
    (i : ℕ) (st : SortState σ) : Except Thrown (List R × SortState σ) :=
  if i ≠ 0 then do
    let (left, st) ← sort (array.take i) st
    return (left ++ array.drop i, st)
  else return (array, st)

/-- `if (i != array.size()-1) sort(array.subList(i + 1, array.size()));` -/
def sortRight (sort : List R → SortState σ → Except Thrown (List R × SortState σ)) (array : List R)
    (i : ℕ) (st : SortState σ) : Except Thrown (List R × SortState σ) :=
  if i ≠ array.length - 1 then do
    let (right, st) ← sort (array.drop (i + 1)) st
    return (array.take (i + 1) ++ right, st)
  else return (array, st)

def QuickSortImpl.sort (pivot : Pivot σ R) (partioner : Partioner R) :
    ℕ → List R → SortState σ → Except Thrown (List R × SortState σ)
  | 0, _, _ => throw .cutOff
  | fuel + 1, array, st => do
    let st := st.add array
    if array.length = 1 then return (array, st)
    let (p, s) ← pivot.choose array st.pivot
    let (i, array) ← partioner array p
    let (array, st) ← sortLeft (sort pivot partioner fuel) array i { st with pivot := s }
    sortRight (sort pivot partioner fuel) array i st

def QuickSortInv.sort (pivot : Pivot σ R) (partioner : Partioner R) :
    ℕ → List R → SortState σ → Except Thrown (List R × SortState σ)
  | 0, _, _ => throw .cutOff
  | fuel + 1, array, st => do
    let st := st.add array
    if array.length = 1 then return (array, st)
    let (p, s) ← pivot.choose array st.pivot
    let array ← swap array 0 (← toIndex p)
    let (i, array) ← partioner array 0
    let (array, st) ← sortLeft (sort pivot partioner fuel) array i { st with pivot := s }
    sortRight (sort pivot partioner fuel) array i st

/-! ### Sorting -/

/-- The method returns, and leaves a sorted permutation of the list. -/
def Sorts (value : R → ℤ) (sort : List R → SortState σ → Except Thrown (List R × SortState σ))
    (array : List R) : Prop :=
  ∀ st, ∃ array' st', sort array st = .ok (array', st') ∧ array'.Perm array ∧
    array'.Pairwise fun x y => value x ≤ value y

variable {value : R → ℤ} {pivot : R} {array : List R} {i : ℕ}

theorem Partitioned.split (h : Partitioned value pivot array i) :
    ∃ left right, array = left ++ pivot :: right ∧ left.length = i ∧
      (∀ x ∈ left, value x < value pivot) ∧ ∀ x ∈ right, value pivot ≤ value x := by
  obtain ⟨hi, hpivot⟩ := List.getElem?_eq_some_iff.mp h.pivot_at
  refine ⟨array.take i, array.drop (i + 1), ?_, List.length_take_of_le (Nat.le_of_lt hi), ?_, ?_⟩
  · rw [← hpivot, List.getElem_cons_drop, List.take_append_drop]
  · intro x hx
    obtain ⟨k, hk⟩ := List.mem_iff_getElem?.mp hx
    rw [List.getElem?_take] at hk
    split_ifs at hk with hki
    exact h.left k x hki hk
  · intro x hx
    obtain ⟨k, hk⟩ := List.mem_iff_getElem?.mp hx
    rw [List.getElem?_drop] at hk
    exact h.right _ x (by omega) hk

theorem pairwise_append_pivot {left right : List R}
    (hleft : left.Pairwise fun x y => value x ≤ value y)
    (hright : right.Pairwise fun x y => value x ≤ value y)
    (hlt : ∀ x ∈ left, value x < value pivot) (hge : ∀ x ∈ right, value pivot ≤ value x) :
    (left ++ pivot :: right).Pairwise fun x y => value x ≤ value y := by
  rw [List.pairwise_append]
  refine ⟨hleft, List.pairwise_cons.mpr ⟨hge, hright⟩, ?_⟩
  intro x hx y hy
  rcases List.mem_cons.mp hy with rfl | hyr
  · exact le_of_lt (hlt x hx)
  · exact le_trans (le_of_lt (hlt x hx)) (hge y hyr)

section Sides

variable {sort : List R → SortState σ → Except Thrown (List R × SortState σ)} {left right : List R}

theorem sortLeft_eq_ok (h : left ≠ [] → Sorts value sort left) (tail : List R) (st : SortState σ) :
    ∃ left' st', sortLeft sort (left ++ tail) left.length st = .ok (left' ++ tail, st') ∧
      left'.Perm left ∧ left'.Pairwise fun x y => value x ≤ value y := by
  unfold sortLeft
  by_cases hnil : left = []
  · subst left
    exact ⟨[], st, rfl, .refl _, .nil⟩
  · obtain ⟨left', st', hrun, hperm, hsorted⟩ := h hnil st
    refine ⟨left', st', ?_, hperm, hsorted⟩
    rw [if_pos (by simpa using hnil), List.take_left, List.drop_left, hrun]
    rfl

theorem sortRight_eq_ok (h : right ≠ [] → Sorts value sort right) (head : List R) (pivot : R)
    (st : SortState σ) :
    ∃ right' st', sortRight sort (head ++ pivot :: right) head.length st =
        .ok (head ++ pivot :: right', st') ∧
      right'.Perm right ∧ right'.Pairwise fun x y => value x ≤ value y := by
  have hlast : head.length ≠ (head ++ pivot :: right).length - 1 ↔ right ≠ [] := by
    rw [List.length_append, List.length_cons, ne_eq, ne_eq, ← List.length_eq_zero_iff]
    omega
  unfold sortRight
  by_cases hnil : right = []
  · subst right
    exact ⟨[], st, by simp; rfl, .refl _, .nil⟩
  · obtain ⟨right', st', hrun, hperm, hsorted⟩ := h hnil st
    refine ⟨right', st', ?_, hperm, hsorted⟩
    have hlength : head.length + 1 = (head ++ [pivot]).length := by simp
    rw [if_pos (hlast.mpr hnil), List.append_cons head pivot right, hlength, List.drop_left,
      List.take_left, hrun, List.append_cons head pivot right']
    rfl

/-- When the views of the partitioned list get sorted, so does the list. -/
theorem sorts_sides {parted : List R} (h : Partitioned value pivot parted i)
    (hperm : parted.Perm array)
    (hsort : ∀ part : List R, part ≠ [] → part.length < array.length → Sorts value sort part)
    (st : SortState σ) :
    ∃ sorted st', (do
        let (array, st) ← sortLeft sort parted i st
        sortRight sort array i st) = .ok (sorted, st') ∧ sorted.Perm array ∧
      sorted.Pairwise fun x y => value x ≤ value y := by
  obtain ⟨left, right, rfl, rfl, hlt, hge⟩ := h.split
  have hlength := hperm.length_eq
  rw [List.length_append, List.length_cons] at hlength
  obtain ⟨left', st₁, hrunL, hpermL, hsortedL⟩ :=
    sortLeft_eq_ok (fun hne => hsort left hne (by omega)) (pivot :: right) st
  obtain ⟨right', st₂, hrunR, hpermR, hsortedR⟩ :=
    sortRight_eq_ok (fun hne => hsort right hne (by omega)) left' pivot st₁
  rw [hpermL.length_eq] at hrunR
  have hpermLR := hpermL.append (hpermR.cons pivot)
  refine ⟨left' ++ pivot :: right', st₂, ?_, hpermLR.trans hperm, ?_⟩
  · rw [hrunL]
    exact hrunR
  · apply pairwise_append_pivot hsortedL hsortedR
    · intro x hx
      exact hlt x (hpermL.mem_iff.mp hx)
    · intro x hx
      exact hge x (hpermR.mem_iff.mp hx)

end Sides

/-- What is asked of a `Partioner`. -/
def Partitions (value : R → ℤ) (partioner : Partioner R) : Prop :=
  ∀ (array : List R) (idxPivot : ℕ) (pivot : R), array[idxPivot]? = some pivot →
    ∃ i array', partioner array idxPivot = .ok (i, array') ∧ array'.Perm array ∧
      Partitioned value pivot array' i

variable {strategy : Pivot σ R} {partioner : Partioner R}

theorem Pivot.Valid.choose (h : strategy.Valid) (hne : array ≠ []) (s : σ) :
    ∃ (p : ℕ) (s' : σ) (pivot : R), strategy.choose array s = .ok ((p : ℤ), s') ∧
      array[p]? = some pivot := by
  obtain ⟨p, s', hchoose, hnonneg, hlt⟩ := h array s hne
  obtain ⟨p, rfl⟩ := Int.eq_ofNat_of_zero_le hnonneg
  exact ⟨p, s', _, hchoose, List.getElem?_eq_getElem (by exact_mod_cast hlt)⟩

theorem QuickSortImpl.sorts (hvalid : strategy.Valid) (hpart : Partitions value partioner)
    (fuel : ℕ) (array : List R) (hne : array ≠ []) (hfuel : array.length ≤ fuel) :
    Sorts value (sort strategy partioner fuel) array := by
  induction fuel generalizing array with
  | zero => exact absurd (List.length_eq_zero_iff.mp (Nat.le_zero.mp hfuel)) hne
  | succ fuel ih =>
    intro st
    unfold sort
    by_cases hone : array.length = 1
    · obtain ⟨x, rfl⟩ := List.length_eq_one_iff.mp hone
      exact ⟨[x], st.add [x], rfl, .refl _, List.pairwise_singleton _ x⟩
    · obtain ⟨p, s', pivot, hchoose, hp⟩ := hvalid.choose hne (st.add array).pivot
      obtain ⟨i, array', hrun, hperm, hpartitioned⟩ := hpart array p pivot hp
      obtain ⟨sorted, st', hsides, hsorted⟩ := sorts_sides hpartitioned hperm
        (fun part hnepart hlt => ih part hnepart (by omega)) { st.add array with pivot := s' }
      refine ⟨sorted, st', ?_, hsorted⟩
      simp only [hone, if_false, hchoose, ok_bind, hrun]
      exact hsides

theorem QuickSortInv.sorts (hvalid : strategy.Valid) (hpart : Partitions value partioner)
    (fuel : ℕ) (array : List R) (hne : array ≠ []) (hfuel : array.length ≤ fuel) :
    Sorts value (sort strategy partioner fuel) array := by
  induction fuel generalizing array with
  | zero => exact absurd (List.length_eq_zero_iff.mp (Nat.le_zero.mp hfuel)) hne
  | succ fuel ih =>
    intro st
    unfold sort
    by_cases hone : array.length = 1
    · obtain ⟨x, rfl⟩ := List.length_eq_one_iff.mp hone
      exact ⟨[x], st.add [x], rfl, .refl _, List.pairwise_singleton _ x⟩
    · obtain ⟨p, s', pivot, hchoose, hp⟩ := hvalid.choose hne (st.add array).pivot
      have hplt := (List.getElem?_eq_some_iff.mp hp).1
      obtain ⟨swapped, hswap, hpermS, hzero, -, -⟩ := swap_eq_ok (Nat.zero_lt_of_lt hplt) hplt
      obtain ⟨i, array', hrun, hperm, hpartitioned⟩ := hpart swapped 0 pivot (hzero.trans hp)
      obtain ⟨sorted, st', hsides, hsorted⟩ := sorts_sides hpartitioned (hperm.trans hpermS)
        (fun part hnepart hlt => ih part hnepart (by omega)) { st.add array with pivot := s' }
      refine ⟨sorted, st', ?_, hsorted⟩
      have hindex : toIndex (p : ℤ) = .ok p := if_neg (not_lt.mpr (Int.natCast_nonneg p))
      have hrun' : partioner swapped 0 = .ok (i, array') := hrun
      simp only [hone, if_false, hchoose, ok_bind, hindex, hswap, hrun']
      exact hsides

theorem partitions_base [DecidableEq R] (value : R → ℤ) :
    Partitions value (PartionerBase.partition value) :=
  fun _ _ _ h => PartionerBase.partition_spec _ h

theorem values_eq {array₁ array₂ : List R} (hperm : array₁.Perm array₂)
    (hsorted₁ : array₁.Pairwise fun x y => value x ≤ value y)
    (hsorted₂ : array₂.Pairwise fun x y => value x ≤ value y) :
    array₁.map value = array₂.map value := by
  apply (hperm.map value).eq_of_pairwise
  · intro a b _ _ hab hba
    exact le_antisymm hab hba
  · exact List.pairwise_map.mpr hsorted₁
  · exact List.pairwise_map.mpr hsorted₂

/-- Both sorts return on every list that is not empty, with every valid pivot strategy, and leave
the same values in order. -/
theorem quickSorts_agree [DecidableEq R] {σ' : Type} (value : R → ℤ) {strategy : Pivot σ R}
    {strategy' : Pivot σ' R} (hvalid : strategy.Valid) (hvalid' : strategy'.Valid) {array : List R}
    (hne : array ≠ []) {fuel : ℕ} (hfuel : array.length ≤ fuel) (st : SortState σ)
    (st' : SortState σ') :
    (∃ impl inv stImpl stInv,
      QuickSortImpl.sort strategy (PartionerBase.partition value) fuel array st =
        .ok (impl, stImpl) ∧
      QuickSortInv.sort strategy' (PartionerBase.partition value) fuel array st' =
        .ok (inv, stInv) ∧
      impl.Perm array ∧ impl.Pairwise (fun x y => value x ≤ value y) ∧
      inv.Perm array ∧ inv.Pairwise (fun x y => value x ≤ value y) ∧
      impl.map value = inv.map value) ∧
      (pivotFirst : Pivot Unit R).Valid ∧ (pivotLast : Pivot Unit R).Valid ∧
      (pivotMedianOfThree value).Valid ∧ ∀ draws, (pivotRandom draws : Pivot ℕ R).Valid := by
  refine ⟨?_, pivotFirst_valid, pivotLast_valid, pivotMedianOfThree_valid value, pivotRandom_valid⟩
  have hpart := partitions_base value
  obtain ⟨impl, stImpl, himpl, hpermI, hsortedI⟩ :=
    QuickSortImpl.sorts hvalid hpart fuel array hne hfuel st
  obtain ⟨inv, stInv, hinv, hpermV, hsortedV⟩ :=
    QuickSortInv.sorts hvalid' hpart fuel array hne hfuel st'
  exact ⟨impl, inv, stImpl, stInv, himpl, hinv, hpermI, hsortedI, hpermV, hsortedV,
    values_eq (hpermI.trans hpermV.symm) hsortedI hsortedV⟩

/-- Two of the objects have the value 3. -/
private def mixed : List (Char × ℤ) := [('a', 3), ('b', 1), ('c', 3), ('d', 2)]

theorem quickSorts_agree_mixed :
    ∃ impl inv stImpl stInv,
      QuickSortImpl.sort pivotLast (PartionerBase.partition Prod.snd) 4 mixed ⟨(), 0⟩ =
        .ok (impl, stImpl) ∧
      QuickSortInv.sort (pivotRandom id) (PartionerBase.partition Prod.snd) 4 mixed ⟨0, 0⟩ =
        .ok (inv, stInv) ∧
      impl.map Prod.snd = inv.map Prod.snd := by
  have hne : mixed ≠ [] := by decide
  obtain ⟨⟨impl, inv, stImpl, stInv, himpl, hinv, -, -, -, -, heq⟩, -⟩ :=
    quickSorts_agree Prod.snd pivotLast_valid (pivotRandom_valid id) hne (Nat.le_refl 4) ⟨(), 0⟩
      ⟨0, 0⟩
  exact ⟨impl, inv, stImpl, stInv, himpl, hinv, heq⟩

end CppTricks.Sort
