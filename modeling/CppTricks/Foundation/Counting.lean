import Mathlib.Algebra.BigOperators.Ring.Finset
import Mathlib.Data.List.Basic
import Mathlib.Order.Interval.Finset.Nat

/-! Counts of the elements that have a property: in a list, while elements of it change, and in a
finite set. -/
namespace Foundation

variable {α : Type*} {p : α → Bool} {l : List α} {a b : α} {i j : ℕ}

/-- Where the property is counted at most once, only one index has it. -/
theorem eq_of_countP_le_one (h : l.countP p ≤ 1) (hi : l[i]? = some a) (ha : p a)
    (hj : l[j]? = some b) (hb : p b) : i = j := by
  induction l generalizing i j with
  | nil => cases hi
  | cons c l ih =>
    rw [List.countP_cons] at h
    have hnone : ∀ {k : ℕ} {d : α}, l[k]? = some d → p d → p c → False := by
      intro k d hk hd hc
      have hpos : 0 < l.countP p := List.countP_pos_iff.mpr ⟨d, List.mem_of_getElem? hk, hd⟩
      rw [if_pos hc] at h
      omega
    cases i with
    | zero =>
      obtain rfl : c = a := Option.some.inj hi
      cases j with
      | zero => rfl
      | succ j => exact (hnone hj hb ha).elim
    | succ i =>
      cases j with
      | zero =>
        obtain rfl : c = b := Option.some.inj hj
        exact (hnone hi ha hb).elim
      | succ j => exact congrArg (· + 1) (ih (by omega) hi hj)

theorem countP_set_of_eq (hi : l[i]? = some b) (h : p a = p b) :
    (l.set i a).countP p = l.countP p := by
  obtain ⟨hlt, rfl⟩ := List.getElem?_eq_some_iff.mp hi
  rw [List.countP_set hlt, h]
  have hle : (if p l[i] = true then 1 else 0) ≤ l.countP p := by
    by_cases hp : p l[i]
    · rw [if_pos hp]
      exact List.countP_pos_iff.mpr ⟨l[i], List.getElem_mem hlt, hp⟩
    · rw [if_neg hp]
      exact Nat.zero_le _
  omega

theorem countP_set_of_false (hi : l[i]? = some b) (h : p a = false) :
    (l.set i a).countP p + (if p b then 1 else 0) = l.countP p := by
  obtain ⟨hlt, rfl⟩ := List.getElem?_eq_some_iff.mp hi
  rw [List.countP_set hlt, h]
  by_cases hp : p l[i]
  · have hpos : 0 < l.countP p := List.countP_pos_iff.mpr ⟨l[i], List.getElem_mem hlt, hp⟩
    simp only [hp, if_true]
    simp
    omega
  · simp [hp]

/-! ### Finite sets -/

theorem countP_range'_eq_card (m n : ℕ) (q : ℕ → Prop) [DecidablePred q] :
    (List.range' m (n + 1 - m)).countP (fun t => q t) = ((Finset.Icc m n).filter q).card := by
  rw [Nat.Icc_eq_range', List.countP_eq_length_filter]
  rfl

/-- A stronger property counts the same only where the weaker one implies it. -/
theorem card_filter_eq_iff_of_imp (s : Finset α) {p q : α → Prop} [DecidablePred p]
    [DecidablePred q] (hpq : ∀ t, p t → q t) :
    (s.filter p).card = (s.filter q).card ↔ ∀ t ∈ s, q t → p t := by
  constructor
  · intro hcard t ht hq
    have hsub : s.filter p ⊆ s.filter q := Finset.monotone_filter_right s fun t _ => hpq t
    have heq := Finset.eq_of_subset_of_card_le hsub hcard.ge
    have hmem : t ∈ s.filter p := heq ▸ Finset.mem_filter.mpr ⟨ht, hq⟩
    exact (Finset.mem_filter.mp hmem).2
  · intro hqp
    rw [Finset.filter_congr fun t ht => ⟨hpq t, hqp t ht⟩]

/-- The arguments at which a value has a property, after one value is replaced. -/
theorem card_filter_update {ι : Type*} [Fintype ι] [DecidableEq ι] (q : α → Bool) (f : ι → α)
    (i : ι) (a : α) : (Finset.univ.filter fun j => q (Function.update f i a j)).card +
      (if q (f i) then 1 else 0) =
        (Finset.univ.filter fun j => q (f j)).card + if q a then 1 else 0 := by
  have hrest : ∀ j ∈ Finset.univ.erase i,
      (if q (Function.update f i a j) then 1 else 0) = if q (f j) then 1 else 0 := by
    intro j hj
    rw [Function.update_of_ne (Finset.ne_of_mem_erase hj)]
  rw [Finset.card_filter, Finset.card_filter,
    ← Finset.add_sum_erase Finset.univ _ (Finset.mem_univ i),
    ← Finset.add_sum_erase Finset.univ (fun j => if q (f j) then 1 else 0) (Finset.mem_univ i),
    Finset.sum_congr rfl hrest, Function.update_self]
  omega

end Foundation
