import CppTricks.Foundation.Arrays
import CppTricks.Foundation.FixedWidth
import CppTricks.Foundation.Loops
import CppTricks.Foundation.Selection
import Mathlib.Algebra.Order.Group.Int
import Mathlib.Order.Interval.Finset.Nat

/-! The table of `TEST(W3, Wis)`: weighted independent sets of a path, whose cells are ints; entry 0
of the weights is a guard. -/
namespace CppTricks.Wis
open Foundation

def arr : List ℤ := [0, 1, 4, 5, 4]

/-- `A[i] = std::max(A[i - 1], A[i - 2] + W[i])` -/
def fill (W A : List ℤ) (i : ℕ) : Option (List ℤ) := do
  let excluded ← A[i - 1]?
  let included ← A[i - 2]?
  let w ← W[i]?
  let sum ← int? (included + w)
  assign A i (max excluded sum)

/-- `none` is an access outside `W` or `A`, or an overflow. -/
def table (W : List ℤ) : Option (List ℤ) := do
  let A := List.replicate W.length 0
  let w ← W[1]?
  let A ← assign A 1 w
  (List.range' 2 (W.length - 2)).foldlM (fill W) A

def weight (W : List ℤ) (i : ℕ) : ℤ := W[i]?.getD 0

/-- Vertices `1` to `i` of the path, no two of them adjacent. -/
def Independent (i : ℕ) (S : Finset ℕ) : Prop := S ⊆ Finset.Icc 1 i ∧ ∀ k ∈ S, k + 1 ∉ S

namespace Independent

variable {i k : ℕ} {S : Finset ℕ}

theorem pos (h : Independent i S) (hk : k ∈ S) : 1 ≤ k := (Finset.mem_Icc.mp (h.1 hk)).1

theorem le (h : Independent i S) (hk : k ∈ S) : k ≤ i := (Finset.mem_Icc.mp (h.1 hk)).2

theorem lt_succ (h : Independent i S) : ∀ k ∈ S, k < i + 1 :=
  fun _ hk => Nat.lt_succ_of_le (h.le hk)

theorem zero_iff : Independent 0 S ↔ S = ∅ := by
  constructor
  · intro h
    rw [Finset.eq_empty_iff_forall_notMem]
    intro k hk
    have hpos := h.pos hk
    have hle := h.le hk
    omega
  · intro h
    subst h
    exact ⟨Finset.empty_subset _, fun k hk => absurd hk (Finset.notMem_empty k)⟩

theorem mono {j : ℕ} (h : Independent i S) (hij : i ≤ j) : Independent j S :=
  ⟨h.1.trans (Finset.Icc_subset_Icc_right hij), h.2⟩

theorem of_notMem (h : Independent (i + 1) S) (hi : i + 1 ∉ S) : Independent i S := by
  refine ⟨?_, h.2⟩
  intro k hk
  have hne : k ≠ i + 1 := fun heq => hi (heq ▸ hk)
  have hle := h.le hk
  exact Finset.mem_Icc.mpr ⟨h.pos hk, by omega⟩

/-- The last vertex goes with what is independent before its neighbour. -/
theorem insert_last (h : Independent (i - 1) S) : Independent (i + 1) (insert (i + 1) S) := by
  constructor
  · intro k hk
    rw [Finset.mem_Icc]
    cases Finset.mem_insert.mp hk with
    | inl heq => omega
    | inr hk =>
      have hpos := h.pos hk
      have hle := h.le hk
      omega
  · intro k hk hsucc
    rw [Finset.mem_insert] at hk hsucc
    have hlt : ∀ j ∈ S, 1 ≤ j ∧ j ≤ i - 1 := fun j hj => ⟨h.pos hj, h.le hj⟩
    obtain rfl | hk := hk
    · obtain heq | hsucc := hsucc
      · omega
      · have := hlt _ hsucc
        omega
    · obtain heq | hsucc := hsucc
      · have := hlt _ hk
        omega
      · exact h.2 k hk hsucc

theorem erase_last (h : Independent (i + 1) S) (hi : i + 1 ∈ S) :
    Independent (i - 1) (S.erase (i + 1)) := by
  constructor
  · intro k hk
    obtain ⟨hne, hk⟩ := Finset.mem_erase.mp hk
    have hle := h.le hk
    have hadj : k ≠ i := fun heq => h.2 k hk (heq ▸ hi)
    exact Finset.mem_Icc.mpr ⟨h.pos hk, by omega⟩
  · intro k hk hsucc
    exact h.2 k (Finset.mem_of_mem_erase hk) (Finset.mem_of_mem_erase hsucc)

theorem succ_iff : Independent (i + 1) S ↔
    Independent i S ∨ ∃ T, Independent (i - 1) T ∧ S = insert (i + 1) T := by
  constructor
  · intro h
    by_cases hi : i + 1 ∈ S
    · exact .inr ⟨S.erase (i + 1), h.erase_last hi, (Finset.insert_erase hi).symm⟩
    · exact .inl (h.of_notMem hi)
  · intro h
    obtain h | ⟨T, hT, rfl⟩ := h
    · exact h.mono (Nat.le_succ i)
    · exact hT.insert_last

end Independent

/-- The greatest total weight of an independent set of the vertices `1` to `i`. -/
def Optimum (W : List ℤ) (i : ℕ) (m : ℤ) : Prop := Best (Independent i) (weight W) m

variable {W A : List ℤ} {i n : ℕ} {w m excluded included : ℤ}

theorem weight_eq (h : W[i]? = some w) : weight W i = w := by
  unfold weight
  rw [h]
  rfl

theorem optimum_zero (W : List ℤ) : Optimum W 0 0 := best_empty _ fun _ => Independent.zero_iff

theorem Optimum.succ (hw : W[i + 1]? = some w) (hexcluded : Optimum W i excluded)
    (hincluded : Optimum W (i - 1) included) :
    Optimum W (i + 1) (max excluded (included + w)) := by
  rw [← weight_eq hw]
  apply Best.choose hexcluded hincluded
  · intro T hT hmem
    have hle := hT.le hmem
    omega
  · intro S
    exact Independent.succ_iff

theorem optimum_one (hw : W[1]? = some w) (hnonneg : 0 ≤ w) : Optimum W 1 w := by
  have hsucc := Optimum.succ hw (optimum_zero W) (optimum_zero W)
  have hmax : max 0 (0 + w) = w := by omega
  rwa [hmax] at hsucc

/-- Every independent set of the path weighs an `int`. -/
def WeighsInt (W : List ℤ) : Prop :=
  ∀ S, Independent (W.length - 1) S → ∑ k ∈ S, weight W k ≤ intMax

theorem Optimum.le_intMax (h : Optimum W i m) (hi : i < W.length) (hweighs : WeighsInt W) :
    m ≤ intMax := by
  obtain ⟨S, hS, rfl⟩ := h.exists
  exact hweighs S (hS.mono (by omega))

theorem weight_nonneg (hnonneg : ∀ w ∈ W, 0 ≤ w) (i : ℕ) : 0 ≤ weight W i := by
  unfold weight
  cases hi : W[i]? with
  | none => exact le_rfl
  | some w => exact hnonneg w (List.mem_of_getElem? hi)

theorem Optimum.nonneg (h : Optimum W i m) : 0 ≤ m := by
  have hempty := h.le (Independent.mono (Independent.zero_iff.mpr rfl) (Nat.zero_le i))
  simpa using hempty

private theorem sum_weight (W : List ℤ) : ∑ i ∈ Finset.range W.length, weight W i = W.sum := by
  induction W with
  | nil => rfl
  | cons w W ih =>
    have hshift : ∀ i, weight (w :: W) (i + 1) = weight W i := fun _ => rfl
    rw [List.length_cons, Finset.sum_range_succ', List.sum_cons, ← ih, add_comm]
    simp only [hshift]
    rfl

/-- An `int` that holds the total weight holds every sum of the loop. -/
theorem weighsInt_of_sum_le (hnonneg : ∀ w ∈ W, 0 ≤ w) (hsum : W.sum ≤ intMax) : WeighsInt W := by
  intro S hS
  rw [← sum_weight W] at hsum
  refine (Finset.sum_le_sum_of_subset_of_nonneg ?_ fun k _ _ => ?_).trans hsum
  · intro k hk
    have hpos := hS.pos hk
    have hle := hS.le hk
    exact Finset.mem_range.mpr (by omega)
  · exact weight_nonneg hnonneg k

/-- The cells before `n` hold the optima, which are ints. -/
def Filled (W A : List ℤ) (n : ℕ) : Prop :=
  A.length = W.length ∧ ∀ i < n, ∃ m, A[i]? = some m ∧ Optimum W i m ∧ m ≤ intMax

theorem Filled.assign (h : Filled W A n) (hn : n < W.length) (hopt : Optimum W n m)
    (hint : m ≤ intMax) : ∃ A', Foundation.assign A n m = some A' ∧ Filled W A' (n + 1) := by
  refine ⟨A.set n m, assign_eq (h.1.symm ▸ hn) m, by rw [List.length_set, h.1], ?_⟩
  intro i hi
  by_cases heq : i = n
  · subst heq
    exact ⟨m, List.getElem?_set_self (h.1.symm ▸ hn), hopt, hint⟩
  · obtain ⟨x, hx, hopt'⟩ := h.2 i (by omega)
    exact ⟨x, by rw [List.getElem?_set_ne (Ne.symm heq), hx], hopt'⟩

theorem filled_one (hsize : 0 < W.length) : Filled W (List.replicate W.length 0) 1 := by
  refine ⟨List.length_replicate, ?_⟩
  intro i hi
  obtain rfl : i = 0 := by omega
  exact ⟨0, List.getElem?_replicate_of_lt hsize, optimum_zero W, by decide⟩

/-- One step fills its cell, or the sum overflows and is the weight of an independent set. -/
theorem Filled.fill (h : Filled W A n) (hnonneg : ∀ w ∈ W, 0 ≤ w) (htwo : 2 ≤ n)
    (hn : n < W.length) :
    (∃ A', Wis.fill W A n = some A' ∧ Filled W A' (n + 1)) ∨
      Wis.fill W A n = none ∧ ¬ WeighsInt W := by
  obtain ⟨n, rfl⟩ : ∃ k, n = k + 1 := ⟨n - 1, by omega⟩
  obtain ⟨excluded, hexcluded, hopt, hle⟩ := h.2 n (by omega)
  obtain ⟨included, hincluded, hopt', -⟩ := h.2 (n - 1) (by omega)
  have hw : W[n + 1]? = some W[n + 1] := List.getElem?_eq_getElem hn
  have hwnonneg := hnonneg _ (List.getElem_mem hn)
  have hsucc := hopt.succ hw hopt'
  unfold Wis.fill
  rw [show n + 1 - 1 = n by omega, show n + 1 - 2 = n - 1 by omega, hexcluded, hincluded, hw]
  simp only [Option.bind_eq_bind, Option.bind_some]
  rw [int?_of_nonneg (add_nonneg hopt'.nonneg hwnonneg)]
  by_cases hsum : included + W[n + 1] ≤ intMax
  · rw [if_pos hsum]
    exact .inl (h.assign hn hsucc (max_le hle hsum))
  · rw [if_neg hsum]
    exact .inr ⟨rfl, fun hweighs => hsum ((le_max_right _ _).trans (hsucc.le_intMax hn hweighs))⟩

/-- Every cell of the table is the optimum of its part of the path, or some sum overflows. -/
theorem table_filled_or_none (hsize : 2 ≤ W.length) (hW : ∀ w ∈ W, 0 ≤ w ∧ w ≤ intMax) :
    (∃ A, table W = some A ∧ Filled W A W.length) ∨ table W = none ∧ ¬ WeighsInt W := by
  have hw : W[1]? = some W[1] := List.getElem?_eq_getElem hsize
  have hone := hW _ (List.getElem_mem hsize)
  obtain ⟨A₁, hA₁, hfilled⟩ := (filled_one (by omega)).assign (by omega)
    (optimum_one hw hone.1) hone.2
  have hrun := foldlM_or_none (f := fill W) (P := fun t A => Filled W A (2 + t.length))
    (Q := ¬ WeighsInt W) (List.range' 2 (W.length - 2)) (fun t i A ht hA => by
      obtain ⟨rfl, hlt⟩ := eq_add_length_of_prefix_range' ht
      rw [List.length_append, List.length_singleton, ← Nat.add_assoc]
      exact hA.fill (fun w hmem => (hW w hmem).1) (by omega) (by omega)) A₁ hfilled
  rw [List.length_range', show 2 + (W.length - 2) = W.length by omega] at hrun
  unfold table
  rw [hw, Option.bind_eq_bind, Option.bind_some, hA₁]
  exact hrun

theorem Filled.weighsInt (h : Filled W A W.length) (hsize : 2 ≤ W.length) : WeighsInt W := by
  obtain ⟨m, -, hopt, hle⟩ := h.2 (W.length - 1) (by omega)
  intro S hS
  exact (hopt.le hS).trans hle

theorem table_filled (hsize : 2 ≤ W.length) (hW : ∀ w ∈ W, 0 ≤ w ∧ w ≤ intMax)
    (hweighs : WeighsInt W) : ∃ A, table W = some A ∧ Filled W A W.length :=
  (table_filled_or_none hsize hW).resolve_right fun hnone => hnone.2 hweighs

/-- The recurrence is optimal on every part of the path exactly where every independent set weighs
an `int`. -/
theorem table_optimum (hsize : 2 ≤ W.length) (hW : ∀ w ∈ W, 0 ≤ w ∧ w ≤ intMax) :
    (∃ A, table W = some A ∧ A.length = W.length ∧
      ∀ i, 1 ≤ i → i < W.length → ∃ m, A[i]? = some m ∧ Optimum W i m) ↔ WeighsInt W := by
  constructor
  · intro h
    obtain ⟨A, hA, -⟩ := h
    obtain ⟨A', -, hfilled⟩ := (table_filled_or_none hsize hW).resolve_right
      fun hnone => by rw [hA] at hnone; cases hnone.1
    exact hfilled.weighsInt hsize
  · intro hweighs
    obtain ⟨A, hA, hlen, hopt⟩ := table_filled hsize hW hweighs
    refine ⟨A, hA, hlen, fun i _ hi => ?_⟩
    obtain ⟨m, hm, hopt, -⟩ := hopt i hi
    exact ⟨m, hm, hopt⟩

theorem table_optimum_arr :
    ∃ A, table arr = some A ∧ A.length = arr.length ∧
      ∀ i, 1 ≤ i → i < arr.length → ∃ m, A[i]? = some m ∧ Optimum arr i m :=
  (table_optimum (by decide) (by decide)).mpr (weighsInt_of_sum_le (by decide) (by decide))

/-- The weights of vertices 1 and 3 have a sum that is no `int`. -/
theorem table_overflow : ¬ ∃ A, table [0, 2147483647, 0, 1] = some A ∧
    A.length = 4 ∧ ∀ i, 1 ≤ i → i < 4 →
      ∃ m, A[i]? = some m ∧ Optimum [0, 2147483647, 0, 1] i m := by
  have hnone : table [0, 2147483647, 0, 1] = none := by decide
  simp [hnone]

end CppTricks.Wis
