import CppTricks.Sort.PartionerBase

/-! The pivot strategies. -/
namespace CppTricks.Sort

/-- `choose(array)`; the state is whatever a strategy keeps from one call to the next. -/
structure Pivot (σ R : Type) where
  choose : List R → σ → Except Thrown (ℤ × σ)

variable {σ R : Type}

/-- On a list that has elements the strategy returns the index of one. -/
def Pivot.Valid (pivot : Pivot σ R) : Prop :=
  ∀ array s, array ≠ [] →
    ∃ p s', pivot.choose array s = .ok (p, s') ∧ 0 ≤ p ∧ p < (array.length : ℤ)

def pivotFirst : Pivot Unit R := ⟨fun _ s => .ok (0, s)⟩

def pivotLast : Pivot Unit R := ⟨fun array s => .ok ((array.length : ℤ) - 1, s)⟩

def getAt (array : List R) (i : ℤ) : Except Thrown R := do get array (← toIndex i)

/-- The index of an element with the middle one of the first, the middle and the last value. -/
def medianOfThree (value : R → ℤ) (array : List R) : Except Thrown ℤ := do
  let size : ℤ := array.length
  let idxFirst := 0
  let idxLast := size - 1
  let idxMiddle := size / 2
  let idxDoubled := 2 * idxMiddle
  let idxMiddle := if idxDoubled = size then idxMiddle - 1 else idxMiddle
  let first ← getAt array idxFirst
  let middle ← getAt array idxMiddle
  let last ← getAt array idxLast
  let forSort := [first, middle, last].mergeSort fun x y => value x ≤ value y
  let midValue ← get forSort 1
  if value midValue = value first then return idxFirst
  if value midValue = value middle then return idxMiddle
  if value midValue = value last then return idxLast
  return 0

def pivotMedianOfThree (value : R → ℤ) : Pivot Unit R :=
  ⟨fun array s => do return (← medianOfThree value array, s)⟩

/-- `new Random().nextInt(array.size())`, with the draws of one call after another. -/
def pivotRandom (draws : ℕ → ℕ) : Pivot ℕ R :=
  ⟨fun array call =>
    if array.length = 0 then .error .illegalArgument
    else .ok (((draws call % array.length : ℕ) : ℤ), call + 1)⟩

private theorem length_pos_of_ne_nil {array : List R} (h : array ≠ []) :
    0 < (array.length : ℤ) := by
  exact_mod_cast List.length_pos_iff.mpr h

theorem pivotFirst_valid : (pivotFirst : Pivot Unit R).Valid :=
  fun _ s hne => ⟨0, s, rfl, le_refl 0, length_pos_of_ne_nil hne⟩

theorem pivotLast_valid : (pivotLast : Pivot Unit R).Valid := by
  intro array s hne
  have hpos := length_pos_of_ne_nil hne
  exact ⟨_, s, rfl, by omega, by omega⟩

theorem pivotRandom_valid (draws : ℕ → ℕ) : (pivotRandom draws : Pivot ℕ R).Valid := by
  intro array call hne
  have hpos := List.length_pos_iff.mpr hne
  have hlt := Nat.mod_lt (draws call) hpos
  refine ⟨_, call + 1, if_neg (Nat.ne_of_gt hpos), Int.natCast_nonneg _, ?_⟩
  exact_mod_cast hlt

theorem getAt_eq_ok {array : List R} {i : ℤ} (hi : 0 ≤ i) (hlt : i < (array.length : ℤ)) :
    ∃ x, getAt array i = .ok x := by
  have hnat : i.toNat < array.length := by omega
  refine ⟨array[i.toNat], ?_⟩
  unfold getAt toIndex
  rw [if_neg (not_lt.mpr hi), ok_bind, get_eq_ok (List.getElem?_eq_getElem hnat)]

theorem medianOfThree_eq_ok (value : R → ℤ) {array : List R} (hpos : 0 < (array.length : ℤ)) :
    ∃ p, medianOfThree value array = .ok p ∧ 0 ≤ p ∧ p < (array.length : ℤ) := by
  let idxMiddle : ℤ := if 2 * ((array.length : ℤ) / 2) = array.length then
    (array.length : ℤ) / 2 - 1 else (array.length : ℤ) / 2
  have hmiddle : 0 ≤ idxMiddle ∧ idxMiddle < (array.length : ℤ) := by
    dsimp only [idxMiddle]
    split_ifs <;> omega
  obtain ⟨first, hfirst⟩ := getAt_eq_ok (le_refl 0) hpos
  obtain ⟨middle, hmid⟩ := getAt_eq_ok hmiddle.1 hmiddle.2
  have hlow : 0 ≤ (array.length : ℤ) - 1 := by omega
  have hhigh : (array.length : ℤ) - 1 < array.length := by omega
  obtain ⟨last, hlast⟩ := getAt_eq_ok hlow hhigh
  let forSort := [first, middle, last].mergeSort fun x y => value x ≤ value y
  have hsize : 1 < forSort.length := by
    rw [List.length_mergeSort]
    exact Nat.lt_of_sub_eq_succ rfl
  have hget := get_eq_ok (List.getElem?_eq_getElem hsize)
  unfold medianOfThree
  simp only [hfirst, hlast, ok_bind]
  rw [show getAt array _ = _ from hmid, ok_bind, show get _ 1 = _ from hget, ok_bind]
  split_ifs <;> exact ⟨_, rfl, by omega, by omega⟩

theorem pivotMedianOfThree_valid (value : R → ℤ) : (pivotMedianOfThree value).Valid := by
  intro array s hne
  obtain ⟨p, hp, hrange⟩ := medianOfThree_eq_ok value (length_pos_of_ne_nil hne)
  refine ⟨p, s, ?_, hrange⟩
  unfold pivotMedianOfThree
  simp only [hp, ok_bind]
  rfl

end CppTricks.Sort
