import CppTricks.Foundation.FixedWidth
import CppTricks.Foundation.Grid
import CppTricks.Foundation.LinearCongruential

/-! `fill`: a matrix of pseudo-random numbers and their sum. -/
namespace CppTricks.IntelCompetition
open Foundation
open scoped BigOperators

/-- `none` is a result that is no `int`, or a division by 0. -/
def prng (seed a b m : ℤ) : Option ℤ := do
  let product ← int? (a * seed)
  let shifted ← int? (product + b)
  if m = 0 then none
  else
    let _ ← int? (shifted.tdiv m)
    return shifted.tmod m

structure FillState where
  A : Grid ℤ
  sum : ℤ
  seed : ℤ

/-- The body of the inner loop. `none` is a write outside the matrix, or a result that is no
`int`. -/
def fillCell (a b m : ℤ) (i : ℕ) (st : FillState) (j : ℕ) : Option FillState := do
  let seed ← prng st.seed a b m
  let A ← st.A.write i j seed
  let sum ← int? (st.sum + seed)
  return ⟨A, sum, seed⟩

def fillLoop (A : Grid ℤ) (M N : ℕ) (a b m seed0 : ℤ) : Option FillState :=
  (List.range M).foldlM (fun st i => (List.range N).foldlM (fillCell a b m i) st) ⟨A, 0, seed0⟩

/-- The filling loop, and the product by which the sum is divided: the mean is a `float`, and the
matrix without the mean is left out. -/
def fill (A : Grid ℤ) (M N : ℕ) (a b m seed0 : ℤ) : Option (FillState × ℤ) := do
  let st ← fillLoop A M N a b m seed0
  let size ← int? (M * N)
  return (st, size)

variable {A : Grid ℤ} {M N i j : ℕ} {a b m seed0 seed : ℤ} {st : FillState}

theorem prng_eq (hseed : 0 ≤ seed ∧ seed ≤ 20000) (ha : 0 ≤ a ∧ a ≤ 20000)
    (hb : 0 ≤ b ∧ b ≤ 20000) (hm : 0 < m) : prng seed a b m = some ((a * seed + b) % m) := by
  have hmax : intMax = 2147483647 := rfl
  have hproduct : 0 ≤ a * seed := Int.mul_nonneg ha.1 hseed.1
  have hle : a * seed ≤ 20000 * 20000 := Int.mul_le_mul ha.2 hseed.2 hseed.1 (by omega)
  have hdiv : 0 ≤ (a * seed + b).tdiv m ∧ (a * seed + b).tdiv m ≤ a * seed + b := by
    rw [Int.tdiv_eq_ediv_of_nonneg (by omega)]
    exact ⟨Int.ediv_nonneg (by omega) hm.le, Int.ediv_le_self m (by omega)⟩
  unfold prng
  rw [int?_eq_some (by omega) (by omega), Option.bind_eq_bind, Option.bind_some,
    int?_eq_some (by omega) (by omega), Option.bind_some, if_neg hm.ne',
    int?_eq_some (by omega) (by omega), Option.bind_some, Int.tmod_eq_emod_of_nonneg (by omega)]
  rfl

def InBounds (x : ℤ) : Prop := 1 ≤ x ∧ x ≤ 20000

structure TaskBounds (a b m seed0 : ℤ) : Prop where
  a : InBounds a
  b : InBounds b
  m : InBounds m
  seed0 : InBounds seed0

/-- When `i, j` is next, which is element `n` of the matrix row by row. -/
structure Generated (M N : ℕ) (a b m seed0 : ℤ) (i j n : ℕ) (st : FillState) : Prop where
  filled : Grid.Filled M N (fun _ _ x => 0 ≤ x ∧ x < m) (fun _ _ _ => True) i j st.A
  sum_eq : st.sum = congruentialSum a b m seed0 n
  seed_eq : st.seed = congruential a b m seed0 n
  isInt : IsInt st.sum

theorem seed_bounds (h : TaskBounds a b m seed0) (n : ℕ) :
    0 ≤ congruential a b m seed0 n ∧ congruential a b m seed0 n ≤ 20000 := by
  have hseed := h.seed0
  have hm := h.m
  unfold InBounds at hseed hm
  cases n with
  | zero => exact ⟨by rw [congruential]; omega, hseed.2⟩
  | succ n =>
    have hbounds := congruential_bounds (a := a) (b := b) (m := m) (x := seed0) (by omega) n
    omega

theorem congruentialSum_nonneg (h : TaskBounds a b m seed0) (n : ℕ) :
    0 ≤ congruentialSum a b m seed0 n :=
  Finset.sum_nonneg fun k _ => (seed_bounds h k).1

theorem isInt_congruentialSum_iff (h : TaskBounds a b m seed0) (n : ℕ) :
    IsInt (congruentialSum a b m seed0 n) ↔ congruentialSum a b m seed0 n ≤ intMax := by
  have hnonneg := congruentialSum_nonneg h n
  unfold IsInt
  omega

/-- One cell: its number is added to the sum, or the sum is no `int`. -/
theorem fillCell_generated (h : TaskBounds a b m seed0) (hi : i < M) (hj : j < N) {n : ℕ}
    (hn : n < M * N) (hst : Generated M N a b m seed0 i j n st) :
    (∃ st', fillCell a b m i st j = some st' ∧
        Generated M N a b m seed0 i (j + 1) (n + 1) st') ∨
      fillCell a b m i st j = none ∧ ¬IsInt (congruentialSum a b m seed0 (M * N)) := by
  have hm : 0 < m := h.m.1
  have hseed := seed_bounds h n
  have hprng : prng st.seed a b m = some (congruential a b m seed0 (n + 1)) := by
    rw [hst.seed_eq, prng_eq hseed ⟨by have := h.a.1; omega, h.a.2⟩
      ⟨by have := h.b.1; omega, h.b.2⟩ hm]
    rfl
  have hsum : st.sum + congruential a b m seed0 (n + 1) = congruentialSum a b m seed0 (n + 1) := by
    rw [hst.sum_eq, congruentialSum_succ]
  obtain ⟨A', hwrite, hfilled⟩ := hst.filled.write hi hj (congruential_bounds hm n)
  unfold fillCell
  rw [hprng, Option.bind_eq_bind, Option.bind_some, hwrite, Option.bind_eq_bind, Option.bind_some,
    hsum]
  by_cases hint : IsInt (congruentialSum a b m seed0 (n + 1))
  · rw [int?_of_isInt hint]
    exact .inl ⟨_, rfl, hfilled, rfl, rfl, hint⟩
  · rw [int?_of_not_isInt hint]
    refine .inr ⟨rfl, ?_⟩
    rw [isInt_congruentialSum_iff h] at hint ⊢
    have hmono : congruentialSum a b m seed0 (n + 1) ≤ congruentialSum a b m seed0 (M * N) :=
      congruentialSum_mono hm hn
    omega

theorem fillRow_generated (h : TaskBounds a b m seed0) (hi : i < M)
    (hst : Generated M N a b m seed0 i 0 (i * N) st) :
    (∃ st', (List.range N).foldlM (fillCell a b m i) st = some st' ∧
        Generated M N a b m seed0 (i + 1) 0 ((i + 1) * N) st') ∨
      (List.range N).foldlM (fillCell a b m i) st = none ∧
        ¬IsInt (congruentialSum a b m seed0 (M * N)) := by
  have hrow : (i + 1) * N ≤ M * N := Nat.mul_le_mul_right N hi
  rw [Nat.succ_mul] at hrow
  have hrun := foldlM_or_none
    (P := fun t st => Generated M N a b m seed0 i t.length (i * N + t.length) st)
    (f := fillCell a b m i) (List.range N) (by
      intro t j st ht hst
      obtain ⟨rfl, hj⟩ := eq_length_of_prefix_range ht
      rw [List.length_append, List.length_singleton]
      have hn : i * N + t.length < M * N := by omega
      exact fillCell_generated h hi hj hn hst) st hst
  rcases hrun with ⟨st', hrun, hst'⟩ | hnone
  · rw [List.length_range] at hst'
    refine .inl ⟨st', hrun, hst'.filled.next, ?_, ?_, hst'.isInt⟩
    · rw [hst'.sum_eq, Nat.succ_mul]
    · rw [hst'.seed_eq, Nat.succ_mul]
  · exact .inr hnone

theorem fillLoop_generated (h : TaskBounds a b m seed0)
    (hA : ∀ i < M, ∀ j < N, ∃ c, A.cell i j = some c) :
    (∃ st, fillLoop A M N a b m seed0 = some st ∧
        Generated M N a b m seed0 M 0 (M * N) st) ∨
      fillLoop A M N a b m seed0 = none ∧ ¬IsInt (congruentialSum a b m seed0 (M * N)) := by
  have hstart : Generated M N a b m seed0 0 0 0 ⟨A, 0, seed0⟩ := by
    refine ⟨?_, rfl, rfl, (by decide : IsInt 0)⟩
    intro i j hi hj
    obtain ⟨c, hc⟩ := hA i hi j hj
    exact ⟨c, hc, fun hbefore => by unfold Grid.Before at hbefore; omega, fun _ => trivial⟩
  have hrun := foldlM_or_none
    (P := fun t st => Generated M N a b m seed0 t.length 0 (t.length * N) st)
    (f := fun st i => (List.range N).foldlM (fillCell a b m i) st) (List.range M) (by
      intro t i st ht hst
      obtain ⟨rfl, hi⟩ := eq_length_of_prefix_range ht
      rw [List.length_append, List.length_singleton]
      exact fillRow_generated h hi hst) ⟨A, 0, seed0⟩ (by rwa [List.length_nil, Nat.zero_mul])
  rw [List.length_range] at hrun
  exact hrun

/-- The run goes through, with all elements between 0 and `m`. -/
def FillsWithin (A : Grid ℤ) (M N : ℕ) (a b m seed0 : ℤ) : Prop :=
  ∃ st size, fill A M N a b m seed0 = some (st, size) ∧
    ∀ i < M, ∀ j < N, ∃ x, st.A.cell i j = some x ∧ 0 ≤ x ∧ x < m

theorem fillsWithin_iff_isInt (hM : InBounds M) (hN : InBounds N) (h : TaskBounds a b m seed0)
    (hA : ∀ i < M, ∀ j < N, ∃ c, A.cell i j = some c) :
    FillsWithin A M N a b m seed0 ↔ IsInt (congruentialSum a b m seed0 (M * N)) := by
  have hmax : intMax = 2147483647 := rfl
  have hsize : (0 : ℤ) ≤ M * N ∧ (M * N : ℤ) ≤ 20000 * 20000 := by
    unfold InBounds at hM hN
    exact ⟨Int.mul_nonneg (by omega) (by omega), Int.mul_le_mul hM.2 hN.2 (by omega) (by omega)⟩
  unfold FillsWithin fill
  rcases fillLoop_generated h hA with ⟨st, hrun, hst⟩ | ⟨hnone, hnot⟩
  · refine iff_of_true ⟨st, M * N, ?_, ?_⟩ (hst.sum_eq ▸ hst.isInt)
    · rw [hrun, Option.bind_eq_bind, Option.bind_some, int?_eq_some (by omega) (by omega)]
      rfl
    · intro i hi j hj
      obtain ⟨x, hx, hdone, -⟩ := hst.filled i j hi hj
      exact ⟨x, hx, hdone (.inl hi)⟩
  · rw [hnone]
    refine iff_of_false ?_ hnot
    rintro ⟨st, size, ⟨⟩, -⟩

/-- Nothing but the sum of the elements can leave `int`, and it does exactly if it is too large in
the end. -/
theorem fillsWithin_iff (A : Grid ℤ) (M N : ℕ) (a b m seed0 : ℤ) (hM : 1 ≤ M ∧ M ≤ 20000)
    (hN : 1 ≤ N ∧ N ≤ 20000) (ha : 1 ≤ a ∧ a ≤ 20000) (hb : 1 ≤ b ∧ b ≤ 20000)
    (hm : 1 ≤ m ∧ m ≤ 20000) (hseed0 : 1 ≤ seed0 ∧ seed0 ≤ 20000)
    (hA : ∀ i < M, ∀ j < N, ∃ c, A.cell i j = some c) :
    FillsWithin A M N a b m seed0 ↔
      ∑ k ∈ Finset.Icc 1 (M * N), (a ^ k * seed0 + b * ∑ i ∈ Finset.range k, a ^ i) % m ≤
        intMax := by
  have h : TaskBounds a b m seed0 := ⟨ha, hb, hm, hseed0⟩
  have hM' : InBounds M := by unfold InBounds; omega
  have hN' : InBounds N := by unfold InBounds; omega
  rw [fillsWithin_iff_isInt hM' hN' h hA, isInt_congruentialSum_iff h, congruentialSum_eq]

theorem fillsWithin_iff_two : FillsWithin (List.replicate 2 (List.replicate 2 0)) 2 2 3 5 7 1 ↔
    ∑ k ∈ Finset.Icc 1 (2 * 2), (3 ^ k * 1 + 5 * ∑ i ∈ Finset.range k, (3 : ℤ) ^ i) % 7 ≤ intMax :=
  fillsWithin_iff (List.replicate 2 (List.replicate 2 0)) 2 2 3 5 7 1 (by decide) (by decide)
    (by decide) (by decide) (by decide) (by decide) fun _ hi _ hj =>
      ⟨0, Grid.cell_replicate hi hj 0⟩

/-- In particular when the largest sum that the number of elements allows is an `int`. -/
theorem fillsWithin_of_small (hM : InBounds M) (hN : InBounds N) (h : TaskBounds a b m seed0)
    (hA : ∀ i < M, ∀ j < N, ∃ c, A.cell i j = some c) (hsmall : M * N * (m - 1) ≤ intMax) :
    FillsWithin A M N a b m seed0 := by
  have hm : 0 < m := h.m.1
  have hle := congruentialSum_le (a := a) (b := b) (x := seed0) hm (M * N)
  rw [fillsWithin_iff_isInt hM hN h hA, isInt_congruentialSum_iff h]
  push_cast at hle
  exact hle.trans hsmall

/-- With `a = 1` and `b = m` every element is the seed, and 120000 times 19999 is no `int`. -/
theorem not_fillsWithin_constant : ¬FillsWithin (List.replicate 6 (List.replicate 20000 0))
    6 20000 1 20000 20000 19999 := by
  have hbounds : TaskBounds 1 20000 20000 19999 := by constructor <;> unfold InBounds <;> omega
  rw [fillsWithin_iff_isInt (by unfold InBounds; omega) (by unfold InBounds; omega) hbounds
    fun _ hi _ hj => ⟨0, Grid.cell_replicate hi hj 0⟩, congruentialSum_eq]
  have hconst : ∀ k ∈ Finset.Icc 1 (6 * 20000),
      ((1 : ℤ) ^ k * 19999 + 20000 * ∑ i ∈ Finset.range k, 1 ^ i) % 20000 = 19999 := by
    intro k _
    rw [one_pow]
    omega
  rw [Finset.sum_congr rfl hconst, Finset.sum_const, Nat.card_Icc]
  decide

end CppTricks.IntelCompetition
