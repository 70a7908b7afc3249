import CppTricks.Foundation.Loops
import Mathlib.Data.Int.Order.Basic
import Mathlib.Data.List.Perm.Basic

/-! `PartionerBase.partition`, on lists of references to integer objects. -/
namespace CppTricks.Sort
open Foundation

/-- What ends a method without a result; `cutOff` is not an exception but a run that was cut off. -/
inductive Thrown
  | runtimeException (msg : String)
  | indexOutOfBounds
  | illegalArgument
  | cutOff
  deriving DecidableEq

variable {R : Type}

def get (array : List R) (i : ℕ) : Except Thrown R :=
  match array[i]? with
  | some x => .ok x
  | none => .error .indexOutOfBounds

def swap (array : List R) (i j : ℕ) : Except Thrown (List R) := do
  let x ← get array i
  let y ← get array j
  return (array.set i y).set j x

/-- An index that a method was given; no list has an element at a negative one. -/
def toIndex (i : ℤ) : Except Thrown ℕ := if i < 0 then .error .indexOutOfBounds else .ok i.toNat

namespace PartionerBase

variable (value : R → ℤ)

/-- The body of the loop: the list and `i`, after the element at `j` was looked at. -/
def body (pivot : R) (idxPivot : ℕ) (st : List R × ℕ) (j : ℕ) : Except Thrown (List R × ℕ) := do
  let (array, i) := st
  if j = idxPivot then return (array, i)
  let x ← get array j
  if value pivot > value x then
    let i := if i = idxPivot then i + 1 else i
    if i = idxPivot ∨ j = idxPivot then throw (.runtimeException "Active move pivot")
    let array ← swap array j i
    return (array, i + 1)
  return (array, i)

def inLeftPart (idxPivot i : ℕ) : Bool := idxPivot < i

/-- `partition(array, idxPivot)`: the index it returns and the list it leaves. -/
def partition [DecidableEq R] (array : List R) (idxPivot : ℤ) : Except Thrown (ℕ × List R) := do
  let idxPivot ← toIndex idxPivot
  let pivot ← get array idxPivot
  let x ← get array idxPivot
  if value pivot ≠ value x then throw (.runtimeException "Befor cycle partioning.")
  let (array, i) ← (List.range array.length).foldlM (body value pivot idxPivot) (array, 0)
  let x ← get array idxPivot
  if value pivot ≠ value x then throw (.runtimeException "Pivot moved!")
  let i := if inLeftPart idxPivot i then i - 1 else i
  let array ← swap array idxPivot i
  -- the objects are compared here, not their values
  let x ← get array i
  if pivot ≠ x then throw (.runtimeException "Pivot not in right place")
  return (i, array)

end PartionerBase

@[simp] theorem ok_bind {α β : Type} (x : α) (f : α → Except Thrown β) :
    ((Except.ok x : Except Thrown α) >>= f) = f x := rfl

theorem get_eq_ok {array : List R} {i : ℕ} {x : R} (h : array[i]? = some x) :
    get array i = .ok x := by
  unfold get
  rw [h]

/-- A swap permutes the list and changes two places of it. -/
theorem swap_eq_ok {array : List R} {i j : ℕ} (hi : i < array.length) (hj : j < array.length) :
    ∃ array', swap array i j = .ok array' ∧ array'.Perm array ∧ array'[i]? = array[j]? ∧
      array'[j]? = array[i]? ∧ ∀ k, k ≠ i → k ≠ j → array'[k]? = array[k]? := by
  refine ⟨(array.set i array[j]).set j array[i], ?_, List.set_set_perm hi hj, ?_, ?_, ?_⟩
  · unfold swap
    rw [get_eq_ok (List.getElem?_eq_getElem hi), get_eq_ok (List.getElem?_eq_getElem hj)]
    rfl
  · by_cases hij : j = i
    · subst j
      simp
    · rw [List.getElem?_set_ne hij, List.getElem?_set_self hi, List.getElem?_eq_getElem hj]
  · rw [List.getElem?_set_self (by simpa using hj), List.getElem?_eq_getElem hi]
  · intro k hki hkj
    rw [List.getElem?_set_ne (Ne.symm hkj), List.getElem?_set_ne (Ne.symm hki)]

namespace PartionerBase

/-- Before `j` is looked at: the places before `i` hold less than the pivot, those from `i` to `j`
do not, and the pivot is passed over. -/
structure Parted (value : R → ℤ) (pivot : R) (idxPivot : ℕ) (array : List R) (i j : ℕ) : Prop where
  pivot_at : array[idxPivot]? = some pivot
  le : i ≤ j
  left : ∀ k x, k < i → k ≠ idxPivot → array[k]? = some x → value x < value pivot
  right : ∀ k x, i ≤ k → k < j → k ≠ idxPivot → array[k]? = some x → value pivot ≤ value x

variable {value : R → ℤ} {pivot : R} {idxPivot i j : ℕ} {array : List R}

theorem parted_zero (h : array[idxPivot]? = some pivot) :
    Parted value pivot idxPivot array 0 0 :=
  ⟨h, Nat.le_refl 0, fun _ _ hk => absurd hk (Nat.not_lt_zero _),
    fun _ _ _ hk => absurd hk (Nat.not_lt_zero _)⟩

namespace Parted

/-- The pivot itself and an element that is not less stay where they are. -/
theorem keep (h : Parted value pivot idxPivot array i j)
    (hj : j = idxPivot ∨ ∀ x, array[j]? = some x → value pivot ≤ value x) :
    Parted value pivot idxPivot array i (j + 1) := by
  refine ⟨h.pivot_at, Nat.le_succ_of_le h.le, h.left, ?_⟩
  intro k x hik hkj hk hx
  by_cases hlast : k = j
  · subst k
    rcases hj with hpivot | hge
    · exact absurd hpivot hk
    · exact hge x hx
  · exact h.right k x hik (by omega) hk hx

theorem skip (h : Parted value pivot idxPivot array i j) (hj : j ≠ idxPivot) :
    Parted value pivot idxPivot array (if i = idxPivot then i + 1 else i) j ∧
      (if i = idxPivot then i + 1 else i) ≠ idxPivot := by
  split_ifs with hi
  · have hle := h.le
    refine ⟨⟨h.pivot_at, by omega, ?_, ?_⟩, by omega⟩
    · intro k x hki hk hx
      exact h.left k x (by omega) hk hx
    · intro k x hik hkj hk hx
      exact h.right k x (by omega) hkj hk hx
  · exact ⟨h, hi⟩

/-- An element less than the pivot goes to the end of the left part. -/
theorem move (h : Parted value pivot idxPivot array i j) (hi : i ≠ idxPivot) (hj : j ≠ idxPivot)
    {x : R} (hx : array[j]? = some x) (hlt : value x < value pivot) :
    ∃ array', swap array j i = .ok array' ∧ array'.Perm array ∧
      Parted value pivot idxPivot array' (i + 1) (j + 1) := by
  have hjlt : j < array.length := (List.getElem?_eq_some_iff.mp hx).1
  have hle := h.le
  obtain ⟨array', hswap, hperm, hatj, hati, hother⟩ := swap_eq_ok hjlt (Nat.lt_of_le_of_lt hle hjlt)
  refine ⟨array', hswap, hperm, ?_, by omega, ?_, ?_⟩
  · rw [hother idxPivot (Ne.symm hj) (Ne.symm hi)]
    exact h.pivot_at
  · intro k y hk hkp hy
    by_cases hki : k = i
    · subst k
      rw [hati, hx] at hy
      obtain rfl := Option.some.inj hy
      exact hlt
    · rw [hother k (by omega) hki] at hy
      exact h.left k y (by omega) hkp hy
  · intro k y hik hkj hkp hy
    by_cases hlast : k = j
    · subst k
      rw [hatj] at hy
      exact h.right i y (Nat.le_refl i) (by omega) hi hy
    · rw [hother k hlast (by omega)] at hy
      exact h.right k y (by omega) (by omega) hkp hy

theorem body (h : Parted value pivot idxPivot array i j) (hj : j < array.length) :
    ∃ array' i', body value pivot idxPivot (array, i) j = .ok (array', i') ∧
      array'.Perm array ∧ Parted value pivot idxPivot array' i' (j + 1) := by
  have hx := List.getElem?_eq_getElem hj
  have hget := get_eq_ok hx
  unfold PartionerBase.body
  by_cases hjp : j = idxPivot
  · refine ⟨array, i, ?_, .refl _, h.keep (Or.inl hjp)⟩
    simp only [hjp, if_true]
    rfl
  by_cases hlt : value array[j] < value pivot
  · obtain ⟨hskip, hne⟩ := h.skip hjp
    obtain ⟨array', hswap, hperm, hmove⟩ := hskip.move hne hjp hx hlt
    refine ⟨array', _, ?_, hperm, hmove⟩
    simp only [hjp, hget, ok_bind, gt_iff_lt, hlt, hne, or_self, if_false, if_true, hswap]
    rfl
  · refine ⟨array, i, ?_, .refl _, h.keep (Or.inr ?_)⟩
    · simp only [hjp, hget, ok_bind, gt_iff_lt, hlt, if_false]
      rfl
    · intro x hx'
      rw [hx] at hx'
      obtain rfl := Option.some.inj hx'
      exact not_lt.mp hlt

end Parted

theorem loop (value : R → ℤ) (h : array[idxPivot]? = some pivot) :
    ∃ array' i, (List.range array.length).foldlM (body value pivot idxPivot) (array, 0) =
        .ok (array', i) ∧ array'.Perm array ∧
      Parted value pivot idxPivot array' i array.length := by
  let P : List ℕ → List R × ℕ → Prop := fun t st =>
    st.1.Perm array ∧ Parted value pivot idxPivot st.1 st.2 t.length
  have hstep : ∀ t j st, t ++ [j] <+: List.range array.length → P t st →
      ∃ st', body value pivot idxPivot st j = pure st' ∧ P (t ++ [j]) st' := by
    intro t j st ht hP
    obtain ⟨hperm, hparted⟩ := hP
    obtain ⟨rfl, hlt⟩ := eq_length_of_prefix_range ht
    obtain ⟨array', i, hbody, hperm', hparted'⟩ := hparted.body (hperm.length_eq ▸ hlt)
    refine ⟨(array', i), hbody, hperm'.trans hperm, ?_⟩
    rwa [List.length_append, List.length_singleton]
  obtain ⟨st, hrun, hperm, hparted⟩ := foldlM_pure _ hstep (array, 0) ⟨.refl _, parted_zero h⟩
  rw [List.length_range] at hparted
  exact ⟨st.1, st.2, hrun, hperm, hparted⟩

end PartionerBase

/-- The place `i` holds the pivot, with less before it and no less behind it. -/
structure Partitioned (value : R → ℤ) (pivot : R) (array : List R) (i : ℕ) : Prop where
  pivot_at : array[i]? = some pivot
  left : ∀ k x, k < i → array[k]? = some x → value x < value pivot
  right : ∀ k x, i < k → array[k]? = some x → value pivot ≤ value x

namespace PartionerBase

variable {value : R → ℤ} {pivot : R} {idxPivot i : ℕ} {array : List R}

theorem Parted.finish (h : Parted value pivot idxPivot array i array.length) :
    ∃ array', swap array idxPivot (if inLeftPart idxPivot i then i - 1 else i) = .ok array' ∧
      array'.Perm array ∧
      Partitioned value pivot array' (if inLeftPart idxPivot i then i - 1 else i) := by
  have hle := h.le
  have hidx : idxPivot < array.length := (List.getElem?_eq_some_iff.mp h.pivot_at).1
  unfold inLeftPart
  simp only [decide_eq_true_eq]
  split_ifs with hin
  · obtain ⟨array', hswap, hperm, hatp, hati, hother⟩ :=
      swap_eq_ok (i := idxPivot) (j := i - 1) hidx (by omega)
    refine ⟨array', hswap, hperm, hati.trans h.pivot_at, ?_, ?_⟩
    · intro k x hk hx
      by_cases hkp : k = idxPivot
      · subst k
        exact h.left (i - 1) x (by omega) (by omega) (hatp.symm.trans hx)
      · rw [hother k hkp (by omega)] at hx
        exact h.left k x (by omega) hkp hx
    · intro k x hk hx
      rw [hother k (by omega) (by omega)] at hx
      have hlen := (List.getElem?_eq_some_iff.mp hx).1
      exact h.right k x (by omega) hlen (by omega) hx
  · obtain ⟨array', hswap, hperm, hatp, hati, hother⟩ :=
      swap_eq_ok (i := idxPivot) (j := i) hidx (by omega)
    refine ⟨array', hswap, hperm, hati.trans h.pivot_at, ?_, ?_⟩
    · intro k x hk hx
      rw [hother k (by omega) (by omega)] at hx
      exact h.left k x hk (by omega) hx
    · intro k x hk hx
      by_cases hkp : k = idxPivot
      · subst k
        exact h.right i x (Nat.le_refl i) (by omega) (by omega) (hatp.symm.trans hx)
      · have hlen := (List.getElem?_eq_some_iff.mp hx).1
        rw [hperm.length_eq] at hlen
        rw [hother k hkp (by omega)] at hx
        exact h.right k x (by omega) hlen hkp hx

/-- None of the exceptions is thrown, and the list is partitioned around the object at the given
index. -/
theorem partition_spec [DecidableEq R] (value : R → ℤ) (hidx : array[idxPivot]? = some pivot) :
    ∃ i array', partition value array idxPivot = .ok (i, array') ∧ array'.Perm array ∧
      Partitioned value pivot array' i := by
  obtain ⟨array₁, i, hloop, hperm₁, hparted⟩ := loop value hidx
  have hget := get_eq_ok hidx
  have hget₁ := get_eq_ok hparted.pivot_at
  rw [← hperm₁.length_eq] at hparted
  obtain ⟨array₂, hswap, hperm₂, hpartitioned⟩ := hparted.finish
  have hget₂ := get_eq_ok hpartitioned.pivot_at
  refine ⟨_, array₂, ?_, hperm₂.trans hperm₁, hpartitioned⟩
  unfold partition toIndex
  simp only [Int.natCast_nonneg, not_lt.mpr, if_false, Int.toNat_natCast, ok_bind, hget, ne_eq,
    not_true_eq_false, hloop, hget₁, hswap, hget₂]
  rfl

/-- For every valid index: no exception, the same objects, and the pivot object between what is less
and what is not. -/
theorem partition_of_valid [DecidableEq R] (value : R → ℤ) (array : List R) (idxPivot : ℤ)
    (hnonneg : 0 ≤ idxPivot) (hlt : idxPivot < array.length) :
    ∃ pivot i array', array[idxPivot.toNat]? = some pivot ∧
      partition value array idxPivot = .ok (i, array') ∧ array'.Perm array ∧
      array'[i]? = some pivot ∧
      (∀ k x, k < i → array'[k]? = some x → value x < value pivot) ∧
      ∀ k x, i < k → array'[k]? = some x → value pivot ≤ value x := by
  obtain ⟨idxPivot, rfl⟩ := Int.eq_ofNat_of_zero_le hnonneg
  have hidx : array[idxPivot]? = some array[idxPivot] :=
    List.getElem?_eq_getElem (Int.ofNat_lt.mp hlt)
  obtain ⟨i, array', hrun, hperm, hpartitioned⟩ := partition_spec value hidx
  exact ⟨array[idxPivot], i, array', hidx, hrun, hperm, hpartitioned.pivot_at, hpartitioned.left,
    hpartitioned.right⟩

/-- Two objects with the value 3, of which the second is the pivot. -/
theorem partition_of_valid_two : ∃ pivot i array',
    [((3 : ℤ), 0), (8, 1), (3, 2), (1, 3)][(2 : ℤ).toNat]? = some pivot ∧
      partition Prod.fst [((3 : ℤ), 0), (8, 1), (3, 2), (1, 3)] 2 = .ok (i, array') ∧
      array'.Perm [((3 : ℤ), 0), (8, 1), (3, 2), (1, 3)] ∧ array'[i]? = some pivot ∧
      (∀ k x, k < i → array'[k]? = some x → x.1 < pivot.1) ∧
      ∀ k x, i < k → array'[k]? = some x → pivot.1 ≤ x.1 :=
  partition_of_valid Prod.fst [((3 : ℤ), 0), (8, 1), (3, 2), (1, 3)] 2 (by decide) (by decide)

end PartionerBase

end CppTricks.Sort
