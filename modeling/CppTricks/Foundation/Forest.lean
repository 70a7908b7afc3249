import Mathlib.Data.Finset.Card
import Mathlib.Data.Finset.Range
import Mathlib.Data.Fintype.Card
import Mathlib.Logic.Function.Iterate

/-! Forests given by a parent function, in which a root is its own parent. -/
namespace Foundation

variable {α : Type*} {parent : α → α} {a i j r : α}

/-- Climbing from `a` ends at the root `r`. -/
def RootOf (parent : α → α) (a r : α) : Prop :=
  ∃ n, parent^[n] a = r ∧ parent r = r

namespace RootOf

theorem isRoot (h : RootOf parent a r) : parent r = r := by
  obtain ⟨_, _, hr⟩ := h
  exact hr

theorem self (h : parent r = r) : RootOf parent r r := ⟨0, rfl, h⟩

theorem climb (h : RootOf parent (parent a) r) : RootOf parent a r := by
  obtain ⟨n, hn, hr⟩ := h
  exact ⟨n + 1, hn, hr⟩

theorem iterate_mem {s : Set α} (hs : ∀ x ∈ s, parent x ∈ s) (ha : a ∈ s) (n : ℕ) :
    parent^[n] a ∈ s := by
  induction n with
  | zero => exact ha
  | succ n ih =>
    rw [Function.iterate_succ_apply']
    exact hs _ ih

theorem mem {s : Set α} (hs : ∀ x ∈ s, parent x ∈ s) (ha : a ∈ s) (h : RootOf parent a r) :
    r ∈ s := by
  obtain ⟨n, rfl, _⟩ := h
  exact iterate_mem hs ha n

/-- The nodes met before the first root are distinct, so a climb inside a finite closed set
is shorter than the set is large. -/
theorem exists_lt_card {s : Finset α} (hs : ∀ x ∈ s, parent x ∈ s) (ha : a ∈ s)
    (h : RootOf parent a r) : ∃ n < s.card, parent^[n] a = r := by
  classical
  have hex : ∃ n, parent (parent^[n] a) = parent^[n] a := by
    obtain ⟨n, rfl, hr⟩ := h
    exact ⟨n, hr⟩
  let n := Nat.find hex
  have hfix : parent (parent^[n] a) = parent^[n] a := Nat.find_spec hex
  have hmin : ∀ m < n, parent (parent^[m] a) ≠ parent^[m] a := fun m hm => Nat.find_min hex hm
  have hinj : Set.InjOn (fun m => parent^[m] a) (Finset.range (n + 1)) := by
    have hlt : ∀ x y, x < y → y ≤ n → parent^[x] a ≠ parent^[y] a := by
      intro x y hxy hyn he
      -- a repeated node would make an earlier node the root
      have hback : parent^[n - y + x] a = parent^[n] a := by
        rw [Function.iterate_add_apply, he, ← Function.iterate_add_apply]
        congr 1
        omega
      exact hmin (n - y + x) (by omega) (by rw [hback, hfix])
    intro x hx y hy he
    simp only [Finset.coe_range, Set.mem_Iio] at hx hy
    rcases Nat.lt_trichotomy x y with h | h | h
    · exact absurd he (hlt x y h (by omega))
    · exact h
    · exact absurd he.symm (hlt y x h (by omega))
  have hcard := Finset.card_le_card_of_injOn (s := Finset.range (n + 1)) (t := s) _
    (fun m _ => iterate_mem (s := (s : Set α)) hs ha m) hinj
  rw [Finset.card_range] at hcard
  refine ⟨n, hcard, ?_⟩
  obtain ⟨k, hk, hr⟩ := h
  have hnk : n ≤ k := Nat.find_min' hex (by rw [hk, hr])
  have hstay : parent^[k - n] (parent^[n] a) = parent^[n] a := Function.iterate_fixed hfix _
  rw [← Function.iterate_add_apply, show k - n + n = k by omega, hk] at hstay
  exact hstay.symm

variable [DecidableEq α]

/-- Hanging the root `i` under the root `j` redirects the tree of `i` and no other. -/
theorem link (hi : parent i = i) (hj : parent j = j) (hij : i ≠ j) (h : RootOf parent a r) :
    RootOf (Function.update parent i j) a (if r = i then j else r) := by
  have hj' : Function.update parent i j j = j := by rw [Function.update_of_ne hij.symm, hj]
  have hi' : RootOf (Function.update parent i j) i j :=
    climb (by rw [Function.update_self]; exact self hj')
  obtain ⟨n, hn, hr⟩ := h
  induction n generalizing a with
  | zero =>
    obtain rfl : a = r := hn
    split_ifs with hai
    · exact hai ▸ hi'
    · exact self (by rw [Function.update_of_ne hai, hr])
  | succ n ih =>
    by_cases hai : a = i
    · subst a
      have hri : r = i := by rw [← hn, Function.iterate_fixed hi]
      simpa [hri] using hi'
    · apply climb
      rw [Function.update_of_ne hai]
      exact ih hn

end RootOf
end Foundation
