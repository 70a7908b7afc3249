import Mathlib.Algebra.BigOperators.Intervals
import Mathlib.Algebra.BigOperators.Ring.Finset
import Mathlib.Algebra.Order.BigOperators.Group.Finset
import Mathlib.Data.Int.ModEq
import Mathlib.Tactic.Ring

/-! Linear congruential generators: a closed form, and bounds. -/
namespace Foundation
open scoped BigOperators

def congruential (a b m x : ℤ) : ℕ → ℤ
  | 0 => x
  | k + 1 => (a * congruential a b m x k + b) % m

variable {a b m x : ℤ} {k n : ℕ}

/-- The remainder can be taken once, at the end. -/
theorem congruential_eq (a b m x : ℤ) (hk : 0 < k) :
    congruential a b m x k = (a ^ k * x + b * ∑ i ∈ Finset.range k, a ^ i) % m := by
  induction k with
  | zero => exact absurd hk (Nat.lt_irrefl 0)
  | succ k ih =>
    rw [congruential]
    rcases Nat.eq_zero_or_pos k with rfl | hpos
    · simp [congruential]
    · have hstep : a ^ (k + 1) * x + b * ∑ i ∈ Finset.range (k + 1), a ^ i =
          a * (a ^ k * x + b * ∑ i ∈ Finset.range k, a ^ i) + b := by
        rw [Finset.sum_range_succ', pow_zero]
        simp only [pow_succ']
        rw [← Finset.mul_sum]
        ring
      rw [ih hpos, hstep]
      exact ((Int.mod_modEq _ m).mul_left a).add_right b

theorem congruential_bounds (hm : 0 < m) (k : ℕ) :
    0 ≤ congruential a b m x (k + 1) ∧ congruential a b m x (k + 1) < m :=
  ⟨Int.emod_nonneg _ hm.ne', Int.emod_lt_of_pos _ hm⟩

/-- The sum of the first `n` numbers after the seed. -/
def congruentialSum (a b m x : ℤ) (n : ℕ) : ℤ := ∑ k ∈ Finset.Icc 1 n, congruential a b m x k

theorem congruentialSum_succ (a b m x : ℤ) (n : ℕ) : congruentialSum a b m x (n + 1) =
    congruentialSum a b m x n + congruential a b m x (n + 1) :=
  Finset.sum_Icc_succ_top (Nat.succ_le_succ (Nat.zero_le n)) _

theorem congruentialSum_mono (hm : 0 < m) (h : n ≤ k) :
    congruentialSum a b m x n ≤ congruentialSum a b m x k := by
  induction h with
  | refl => exact Int.le_refl _
  | @step k _ ih =>
    rw [congruentialSum_succ]
    exact ih.trans (Int.le_add_of_nonneg_right (congruential_bounds hm k).1)

theorem congruentialSum_le (hm : 0 < m) (n : ℕ) :
    congruentialSum a b m x n ≤ n * (m - 1) := by
  induction n with
  | zero => exact (Int.zero_mul _).ge
  | succ n ih =>
    have hlt := (congruential_bounds (a := a) (b := b) (m := m) (x := x) hm n).2
    rw [congruentialSum_succ, Nat.cast_succ, add_mul, one_mul]
    omega

theorem congruentialSum_eq (a b m x : ℤ) (n : ℕ) : congruentialSum a b m x n =
    ∑ k ∈ Finset.Icc 1 n, (a ^ k * x + b * ∑ i ∈ Finset.range k, a ^ i) % m :=
  Finset.sum_congr rfl fun _ hk => congruential_eq a b m x (Finset.mem_Icc.mp hk).1

end Foundation
