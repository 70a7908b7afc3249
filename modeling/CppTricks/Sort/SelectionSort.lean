import CppTricks.Foundation.Arrays
import CppTricks.Foundation.Loops
import CppTricks.Foundation.Stability
import Mathlib.Order.Lattice

/-! The script `selection_sort.py`, on elements that are compared by a key. -/
namespace CppTricks.Sort.Selection
open Foundation

variable {α β : Type} [LinearOrder β] (key : α → β)

/-- The search for the minimal element: `minElement` and `k`. `none` is an index outside `A`. -/
def searchBody (A : List α) (st : α × ℕ) (i : ℕ) : Option (α × ℕ) := do
  let (minElement, k) := st
  let a ← A[i]?
  if key minElement > key a then return (a, i)
  return (minElement, k)

/-- `while k > j: A[k] = A[k - 1]; k -= 1` -/
def shift (A : List α) (j k : ℕ) : Option (List α) := do
  if k > j then
    let a ← A[k - 1]?
    let A ← assign A k a
    shift A j (k - 1)
  else return A
termination_by k

/-- The body of the outer loop. -/
def round (n : ℕ) (A : List α) (j : ℕ) : Option (List α) := do
  let minElement ← A[j]?
  let (minElement, k) ←
    (List.range' (j + 1) (n - (j + 1))).foldlM (searchBody key A) (minElement, j)
  let A ← shift A j k
  assign A j minElement

def selectionSort (A : List α) : Option (List α) :=
  let n := A.length
  (List.range (n - 1)).foldlM (round key n) A

variable {key} {A sorted rest : List α} {j n : ℕ}

/-! ### One round -/

structure FirstLeast (key : α → β) (l before : List α) (m : α) (after : List α) : Prop where
  eq : l = before ++ m :: after
  lt_before : ∀ x ∈ before, key m < key x
  le_after : ∀ x ∈ after, key m ≤ key x

namespace FirstLeast

variable {l before after : List α} {m x : α}

theorem concat_of_lt (h : FirstLeast key l before m after) (hx : key x < key m) :
    FirstLeast key (l ++ [x]) l x [] where
  eq := rfl
  lt_before := by
    intro y hy
    rw [h.eq, List.mem_append, List.mem_cons] at hy
    rcases hy with hbefore | rfl | hafter
    · exact hx.trans (h.lt_before y hbefore)
    · exact hx
    · exact hx.trans_le (h.le_after y hafter)
  le_after := by simp

theorem concat_of_le (h : FirstLeast key l before m after) (hx : key m ≤ key x) :
    FirstLeast key (l ++ [x]) before m (after ++ [x]) where
  eq := by rw [h.eq, List.append_assoc, List.cons_append]
  lt_before := h.lt_before
  le_after := by
    intro y hy
    rcases List.mem_append.mp hy with hafter | hlast
    · exact h.le_after y hafter
    · exact List.mem_singleton.mp hlast ▸ hx

theorem le (h : FirstLeast key l before m after) : ∀ x ∈ l, key m ≤ key x := by
  intro x hx
  rw [h.eq, List.mem_append, List.mem_cons] at hx
  rcases hx with hbefore | rfl | hafter
  · exact (h.lt_before x hbefore).le
  · exact le_rfl
  · exact h.le_after x hafter

end FirstLeast

/-- `minElement` is the first of the least among `n + 1` elements from `j` on, and stands at `k`. -/
def Searched (key : α → β) (A : List α) (j n : ℕ) (st : α × ℕ) : Prop :=
  ∃ before after, st.2 = j + before.length ∧
    FirstLeast key ((A.drop j).take (n + 1)) before st.1 after

theorem Searched.step {st : α × ℕ} (h : Searched key A j n st) (hi : j + 1 + n < A.length) :
    ∃ st', searchBody key A st (j + 1 + n) = some st' ∧ Searched key A j (n + 1) st' := by
  obtain ⟨m, k⟩ := st
  obtain ⟨before, after, hk, hleast⟩ := h
  have htake : (A.drop j).take (n + 1 + 1) = (A.drop j).take (n + 1) ++ [A[j + 1 + n]] := by
    rw [List.take_succ_eq_append_getElem (by rw [List.length_drop]; omega), List.getElem_drop]
    simp only [Nat.add_assoc, Nat.add_comm 1]
  unfold searchBody Searched
  dsimp only at hk hleast ⊢
  rw [htake, List.getElem?_eq_getElem hi, Option.bind_eq_bind, Option.bind_some]
  by_cases hlt : key m > key A[j + 1 + n]
  · rw [if_pos hlt]
    refine ⟨_, rfl, _, _, ?_, hleast.concat_of_lt hlt⟩
    rw [List.length_take, List.length_drop]
    omega
  · rw [if_neg hlt]
    exact ⟨_, rfl, before, _, hk, hleast.concat_of_le (not_lt.mp hlt)⟩

/-- The search ends at the first of the least elements from `j` on. -/
theorem search_spec (key : α → β) (hj : j < A.length) :
    ∃ before m after, FirstLeast key (A.drop j) before m after ∧
      (List.range' (j + 1) (A.length - (j + 1))).foldlM (searchBody key A) (A[j], j) =
        some (m, j + before.length) := by
  have hstart : Searched key A j 0 (A[j], j) := by
    refine ⟨[], [], rfl, ?_, by simp, by simp⟩
    rw [List.drop_eq_getElem_cons hj]
    rfl
  obtain ⟨⟨m, k⟩, hrun, before, after, rfl, hleast⟩ := foldlM_prefix
    (P := fun t st => Searched key A j t.length st) (f := searchBody key A)
    (List.range' (j + 1) (A.length - (j + 1))) (by
      intro t i st ht hst
      obtain ⟨rfl, hlt⟩ := eq_add_length_of_prefix_range' ht
      rw [List.length_append, List.length_singleton]
      exact hst.step (by omega)) (A[j], j) hstart
  refine ⟨before, m, after, ?_, hrun⟩
  rwa [List.length_range', List.take_of_length_le (by rw [List.length_drop]; omega)] at hleast

/-- The elements in front of the minimum move one place on. -/
theorem shift_eq (sorted before after : List α) (m : α) :
    ∃ y, shift (sorted ++ before ++ m :: after) sorted.length (sorted.length + before.length) =
      some (sorted ++ y :: before ++ after) := by
  induction before using List.reverseRecOn generalizing m after with
  | nil =>
    refine ⟨m, ?_⟩
    unfold shift
    rw [List.length_nil, if_neg (by omega), List.append_nil, List.append_assoc,
      List.singleton_append]
    rfl
  | append_singleton before x ih =>
    obtain ⟨y, hrun⟩ := ih (x :: after) x
    have hget : (sorted ++ (before ++ [x]) ++ m :: after)[sorted.length + before.length]? =
        some x := by
      rw [List.append_assoc, List.append_assoc,
        List.getElem?_append_right (Nat.le_add_right _ _), Nat.add_sub_cancel_left,
        List.getElem?_append_right (Nat.le_refl _), Nat.sub_self]
      rfl
    have hassign := assign_append (sorted ++ (before ++ [x])) after m x
    have hlength : (sorted ++ (before ++ [x])).length = sorted.length + (before.length + 1) := by
      simp
    have hbefore : (before ++ [x]).length = before.length + 1 := by simp
    rw [hlength] at hassign
    refine ⟨y, ?_⟩
    unfold shift
    rw [hbefore, if_pos (by omega), Nat.add_sub_assoc (by omega), Nat.add_sub_cancel, hget,
      Option.bind_eq_bind, Option.bind_some, hassign, Option.bind_eq_bind, Option.bind_some]
    simpa only [List.append_assoc, List.cons_append, List.nil_append] using hrun

/-- What is left after the first of the least elements has gone to the front. -/
theorem round_eq (key : α → β) (sorted : List α) (hrest : rest ≠ []) :
    ∃ before m after, FirstLeast key rest before m after ∧
      round key (sorted ++ rest).length (sorted ++ rest) sorted.length =
        some (sorted ++ m :: (before ++ after)) := by
  have hj : sorted.length < (sorted ++ rest).length := by
    rw [List.length_append]
    have hpos := List.length_pos_iff.mpr hrest
    omega
  obtain ⟨before, m, after, hleast, hsearch⟩ := search_spec key hj
  rw [List.drop_left] at hleast
  obtain ⟨y, hshift⟩ := shift_eq sorted before after m
  refine ⟨before, m, after, hleast, ?_⟩
  unfold round
  rw [List.getElem?_eq_getElem hj, Option.bind_eq_bind, Option.bind_some, hsearch,
    Option.bind_eq_bind, Option.bind_some]
  dsimp only
  rw [hleast.eq, ← List.append_assoc, hshift, Option.bind_eq_bind, Option.bind_some,
    List.append_assoc, List.cons_append, assign_append]

/-! ### All rounds -/

/-- After `j` rounds: the first `j` elements are sorted and no greater than the rest. -/
structure Rounds (key : α → β) (A : List α) (j : ℕ) (st : List α) : Prop where
  length_eq : st.length = A.length
  sameOrder : SameOrder key A st
  sorted : (st.take j).Pairwise fun x y => key x ≤ key y
  below : ∀ x ∈ st.take j, ∀ y ∈ st.drop j, key x ≤ key y

theorem rounds_zero (key : α → β) (A : List α) : Rounds key A 0 A where
  length_eq := rfl
  sameOrder := .refl key A
  sorted := .nil
  below := by simp

theorem Rounds.round {st : List α} (h : Rounds key A j st) (hj : j < A.length) :
    ∃ st', round key A.length st j = some st' ∧ Rounds key A (j + 1) st' := by
  have hlt : j < st.length := by rwa [h.length_eq]
  have hrest : st.drop j ≠ [] := by
    intro hnil
    rw [List.drop_eq_nil_iff] at hnil
    omega
  obtain ⟨before, m, after, hleast, hround⟩ := round_eq key (st.take j) hrest
  rw [List.take_append_drop, List.length_take_of_le hlt.le, h.length_eq] at hround
  have hdone : st.take j ++ m :: (before ++ after) = st.take j ++ [m] ++ (before ++ after) := by
    rw [List.append_assoc, List.singleton_append]
  have hlength : (st.take j ++ [m]).length = j + 1 := by
    rw [List.length_append, List.length_singleton, List.length_take_of_le hlt.le]
  have hmem : ∀ x ∈ m :: (before ++ after), x ∈ st.drop j := by
    intro x hx
    rw [hleast.eq]
    simpa [or_left_comm] using hx
  have hbelow : ∀ x ∈ st.take j, key x ≤ key m := by
    intro x hx
    exact h.below x hx m (hmem m List.mem_cons_self)
  refine ⟨_, hround, ?_, ?_, ?_, ?_⟩
  · have hsplit := congrArg List.length (List.take_append_drop j st)
    have hparts := congrArg List.length hleast.eq
    simp only [List.length_append, List.length_cons] at hsplit hparts ⊢
    rw [← h.length_eq]
    omega
  · have hmove : SameOrder key (st.drop j) (m :: before ++ after) := by
      rw [hleast.eq]
      exact sameOrder_move fun x hx => (hleast.lt_before x hx).ne'
    have hstep := hmove.append_left (st.take j)
    rw [List.take_append_drop] at hstep
    exact h.sameOrder.trans hstep
  · rw [hdone, ← hlength, List.take_left, List.pairwise_append]
    refine ⟨h.sorted, List.pairwise_singleton _ m, ?_⟩
    intro x hx y hy
    rw [List.mem_singleton.mp hy]
    exact hbelow x hx
  · rw [hdone, ← hlength, List.take_left, List.drop_left]
    intro x hx y hy
    have hy' := hmem y (List.mem_cons_of_mem m hy)
    rcases List.mem_append.mp hx with hold | hnew
    · exact h.below x hold y hy'
    · rw [List.mem_singleton.mp hnew]
      exact hleast.le y hy'

/-- Where all but one are sorted and below the rest, all are. -/
theorem Rounds.pairwise {st : List α} (h : Rounds key A (A.length - 1) st) :
    st.Pairwise fun x y => key x ≤ key y := by
  rw [← List.take_append_drop (A.length - 1) st, List.pairwise_append]
  refine ⟨h.sorted, ?_, h.below⟩
  have hlength : (st.drop (A.length - 1)).length ≤ 1 := by
    rw [List.length_drop, h.length_eq]
    omega
  rw [List.pairwise_iff_getElem]
  intro i j hi hj hij
  omega

/-- The loops end, every index is in the list, and the list is sorted, with equal elements in the
order they had. -/
theorem selectionSort_stable (key : α → β) (A : List α) : ∃ A', selectionSort key A = some A' ∧
    A'.Perm A ∧ A'.Pairwise (fun x y => key x ≤ key y) ∧
    ∀ k, A'.filter (fun x => key x = k) = A.filter fun x => key x = k := by
  obtain ⟨A', hrun, hrounds⟩ := foldlM_prefix
    (P := fun t st => Rounds key A t.length st) (f := Selection.round key A.length)
    (List.range (A.length - 1)) (by
      intro t j st ht hst
      obtain ⟨rfl, hlt⟩ := eq_length_of_prefix_range ht
      rw [List.length_append, List.length_singleton]
      exact hst.round (by omega)) A (rounds_zero key A)
  rw [List.length_range] at hrounds
  exact ⟨A', hrun, hrounds.sameOrder.perm, hrounds.pairwise, hrounds.sameOrder⟩

end CppTricks.Sort.Selection
