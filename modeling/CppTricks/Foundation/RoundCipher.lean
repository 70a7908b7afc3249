import Mathlib.Data.Nat.Notation
import Mathlib.Order.Basic

/-! Ciphers that repeat one round: a layer mixed with a key, a layer that is its own inverse and a
swap. Decryption is the same program under other keys. -/
namespace Foundation

structure RoundCipher (K L X : Type) where
  mix : K → X → X
  shake : L → X → X
  swap : X → X
  shake_shake : ∀ l x, shake l (shake l x) = x
  swap_swap : ∀ x, swap (swap x) = x

namespace RoundCipher

variable {K L X : Type} (C : RoundCipher K L X)

def round (k : K) (l : L) (x : X) : X := C.swap (C.shake l (C.mix k x))

def state (k : ℕ → K) (l : ℕ → L) (x : X) : ℕ → X
  | 0 => x
  | r + 1 => C.round (k r) (l r) (state k l x r)

def crypt (n : ℕ) (k : ℕ → K) (l : ℕ → L) (x : X) : X := C.mix (k n) (C.swap (C.state k l x n))

/-- The keys `d` undo the keys `k` at the states that `x` goes through. The swap that follows a
layer is not undone before the layer, so that the inner keys act on swapped states. -/
structure Undoes (n : ℕ) (k d : ℕ → K) (l : ℕ → L) (x : X) : Prop where
  last : C.mix (d 0) (C.mix (k n) (C.swap (C.state k l x n))) = C.swap (C.state k l x n)
  inner : ∀ r, 0 < r → r < n →
    C.mix (d (n - r)) (C.swap (C.mix (k r) (C.state k l x r))) = C.swap (C.state k l x r)
  first : C.mix (d n) (C.mix (k 0) x) = x

variable {C} {n r : ℕ} {k d : ℕ → K} {l : ℕ → L} {x x' y : X}

theorem swap_state_succ :
    C.swap (C.state k l x (r + 1)) = C.shake (l r) (C.mix (k r) (C.state k l x r)) :=
  C.swap_swap _

/-- What one layer of decryption does to a state that is undone up to its swap. -/
theorem round_of_mix (hmix : C.mix (d r) y = C.swap (C.state k l x (n + 1))) :
    C.round (d r) (l n) y = C.swap (C.mix (k n) (C.state k l x n)) := by
  unfold round
  rw [hmix, swap_state_succ, C.shake_shake]

theorem Undoes.state (h : C.Undoes n k d l x) (hr : r < n) :
    C.mix (d r) (C.state d (fun i => l (n - 1 - i)) (C.crypt n k l x) r) =
      C.swap (C.state k l x (n - r)) := by
  induction r with
  | zero => exact h.last
  | succ r ih =>
    obtain ⟨m, hm⟩ : ∃ m, n - r = m + 1 := ⟨n - r - 1, by omega⟩
    have hprev := ih (Nat.lt_of_succ_lt hr)
    rw [hm] at hprev
    have hround := round_of_mix hprev
    have hinner := h.inner m (by omega) (by omega)
    rw [RoundCipher.state, show n - 1 - r = m by omega, hround, show n - (r + 1) = m by omega]
    rwa [show n - m = r + 1 by omega] at hinner

theorem Undoes.crypt_crypt (h : C.Undoes n k d l x) (hn : 0 < n) :
    C.crypt n d (fun i => l (n - 1 - i)) (C.crypt n k l x) = x := by
  obtain ⟨m, rfl⟩ : ∃ m, n = m + 1 := ⟨n - 1, by omega⟩
  have hlast := h.state (Nat.lt_succ_self m)
  rw [Nat.add_sub_cancel_left] at hlast
  have hround := round_of_mix hlast
  unfold crypt at hround ⊢
  rw [RoundCipher.state, show m + 1 - 1 - m = 0 by omega, hround, C.swap_swap]
  exact h.first

theorem crypt_congr_layers {l' : ℕ → L} (h : ∀ r < n, l r = l' r) :
    C.crypt n k l x = C.crypt n k l' x := by
  have hstate : ∀ r ≤ n, C.state k l x r = C.state k l' x r := by
    intro r hr
    induction r with
    | zero => rfl
    | succ r ih => rw [state, state, ih (Nat.le_of_succ_le hr), h r hr]
  unfold crypt
  rw [hstate n (Nat.le_refl n)]

theorem crypt_congr (h : C.state k l x r = C.state k l x' r) (hr : r ≤ n) :
    C.crypt n k l x = C.crypt n k l x' := by
  have hstate : C.state k l x n = C.state k l x' n := by
    induction hr with
    | refl => exact h
    | step _ ih => rw [state, state, ih]
  unfold crypt
  rw [hstate]

theorem state_succ_congr
    (h : C.mix (k r) (C.state k l x r) = C.mix (k r) (C.state k l x' r)) :
    C.state k l x (r + 1) = C.state k l x' (r + 1) := by
  unfold state round
  rw [h]

/-- A round goes to every state to which its first layer goes. -/
theorem round_eq (h : C.mix (k r) x = C.shake (l r) (C.swap y)) : C.round (k r) (l r) x = y := by
  unfold round
  rw [h, C.shake_shake, C.swap_swap]

end RoundCipher

end Foundation
