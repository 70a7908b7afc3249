import Mathlib.Data.Int.ModEq
import Mathlib.Data.Nat.GCD.Basic
import Mathlib.Tactic.LinearCombination
import Mathlib.Tactic.Ring

/-! Inverses modulo `m` by Euclid's algorithm, with coefficients that are never negative. -/
namespace Foundation

/-- The remainders `x` and `y` of the algorithm on `a` and `m`, and their coefficients. -/
structure Euclid (a m x y s t : ℕ) : Prop where
  det : x * t + y * s = m
  left : (a * s : ℤ) ≡ x [ZMOD m]
  right : (a * t : ℤ) ≡ -y [ZMOD m]
  coprime : Nat.Coprime x y

variable {a m x y s t : ℕ}

theorem Euclid.start (hc : Nat.Coprime a m) : Euclid a m a (m % a) 1 (m / a) where
  det := by rw [Nat.mul_one, Nat.div_add_mod]
  left := by rw [Nat.cast_one, mul_one]
  right := by
    have hdiv : (a * (m / a : ℕ) + (m % a : ℕ) : ℤ) = m := by exact_mod_cast Nat.div_add_mod m a
    refine Int.modEq_iff_dvd.mpr ⟨-1, ?_⟩
    linear_combination -hdiv
  coprime := by
    unfold Nat.Coprime
    rw [Nat.gcd_comm, ← Nat.gcd_rec]
    exact hc

theorem Euclid.stepLeft (h : Euclid a m x y s t) : Euclid a m (x % y) y (s + x / y * t) t where
  det := by
    have hdiv := Nat.div_add_mod x y
    calc x % y * t + y * (s + x / y * t) = (y * (x / y) + x % y) * t + y * s := by ring
      _ = m := by rw [hdiv, h.det]
  left := by
    have hdiv : (y * (x / y : ℕ) + (x % y : ℕ) : ℤ) = x := by exact_mod_cast Nat.div_add_mod x y
    have hsum := h.left.add (h.right.mul_left (x / y : ℕ))
    have hl : (a * (s + x / y * t : ℕ) : ℤ) = a * s + (x / y : ℕ) * (a * t) := by
      push_cast
      ring
    have hr : ((x % y : ℕ) : ℤ) = x + (x / y : ℕ) * -y := by linear_combination hdiv
    rwa [hl, hr]
  right := h.right
  coprime := by
    unfold Nat.Coprime
    rw [Nat.gcd_comm, Nat.gcd_comm y, ← Nat.gcd_rec, Nat.gcd_comm]
    exact h.coprime

theorem Euclid.stepRight (h : Euclid a m x y s t) : Euclid a m x (y % x) s (t + y / x * s) where
  det := by
    have hdiv := Nat.div_add_mod y x
    calc x * (t + y / x * s) + y % x * s = x * t + (x * (y / x) + y % x) * s := by ring
      _ = m := by rw [hdiv, h.det]
  left := h.left
  right := by
    have hdiv : (x * (y / x : ℕ) + (y % x : ℕ) : ℤ) = y := by exact_mod_cast Nat.div_add_mod y x
    have hsum := h.right.add (h.left.mul_left (y / x : ℕ))
    have hl : (a * (t + y / x * s : ℕ) : ℤ) = a * t + (y / x : ℕ) * (a * s) := by
      push_cast
      ring
    have hr : (-(y % x : ℕ) : ℤ) = -y + (y / x : ℕ) * x := by linear_combination -hdiv
    rwa [hl, hr]
  coprime := by
    unfold Nat.Coprime
    rw [Nat.gcd_comm, ← Nat.gcd_rec]
    exact h.coprime

theorem Euclid.left_le (h : Euclid a m x y s t) (hy : 0 < y) : s ≤ m := by
  rw [← h.det]
  exact (Nat.le_mul_of_pos_left s hy).trans (Nat.le_add_left _ _)

theorem Euclid.right_le (h : Euclid a m x y s t) (hx : 0 < x) : t ≤ m := by
  rw [← h.det]
  exact (Nat.le_mul_of_pos_left t hx).trans (Nat.le_add_right _ _)

/-- A remainder that is `0` ends the algorithm one step late. -/
theorem Euclid.left_ne_zero (h : Euclid a m x y s t) (hy : y ≠ 1) : x ≠ 0 := by
  rintro rfl
  exact hy ((Nat.coprime_zero_left y).mp h.coprime)

theorem Euclid.right_ne_zero (h : Euclid a m x y s t) (hx : x ≠ 1) : y ≠ 0 := by
  rintro rfl
  exact hx ((Nat.coprime_zero_right x).mp h.coprime)

theorem Euclid.left_inverse (h : Euclid a m 1 y s t) : a * s ≡ 1 [MOD m] := by
  have hleft := h.left
  exact_mod_cast hleft

theorem Euclid.right_inverse (h : Euclid a m x 1 s t) (ht : t ≤ m) : a * (m - t) ≡ 1 [MOD m] := by
  refine Int.natCast_modEq_iff.mp ?_
  have hzero : (a * m : ℤ) ≡ 0 [ZMOD m] := Int.modEq_zero_iff_dvd.mpr (dvd_mul_left _ _)
  have hl : ((a * (m - t) : ℕ) : ℤ) = -(a * t : ℤ) + a * m := by
    push_cast [Nat.cast_sub ht]
    ring
  have hr : ((1 : ℕ) : ℤ) = -(-((1 : ℕ) : ℤ)) + 0 := by norm_num
  rw [hl, hr]
  exact h.right.neg.add hzero

end Foundation
