import Mathlib.Data.List.Pairwise
import Mathlib.Order.Bounds.Basic

/-! The lengths of strictly increasing subsequences that end with a given element. -/
namespace Foundation

variable {α : Type*} [LinearOrder α] {prev s : List α} {x y : α} {k m : ℕ}

/-- `k` elements that increase, all but the last one, `x`, a subsequence of `prev`. -/
def Grows (prev : List α) (x : α) (k : ℕ) : Prop :=
  ∃ s : List α, s.Sublist prev ∧ (s ++ [x]).Pairwise (· < ·) ∧ (s ++ [x]).length = k

/-- The greatest number of elements. -/
def Longest (prev : List α) (x : α) (k : ℕ) : Prop := IsGreatest {k | Grows prev x k} k

theorem grows_nil_iff : Grows [] x k ↔ k = 1 := by
  constructor
  · intro h
    obtain ⟨s, hs, -, rfl⟩ := h
    rw [List.sublist_nil.mp hs]
    rfl
  · intro h
    exact ⟨[], List.Sublist.refl [], List.pairwise_singleton _ x, h.symm⟩

theorem pairwise_concat_concat_iff : (s ++ [y] ++ [x]).Pairwise (· < ·) ↔
    (s ++ [y]).Pairwise (· < ·) ∧ y < x := by
  constructor
  · intro h
    rw [List.pairwise_append] at h
    exact ⟨h.1, h.2.2 y (by simp) x (List.mem_singleton_self x)⟩
  · intro h
    obtain ⟨hs, hyx⟩ := h
    rw [List.pairwise_append]
    refine ⟨hs, List.pairwise_singleton _ x, ?_⟩
    intro z hz w hw
    rw [List.mem_singleton.mp hw]
    cases List.mem_append.mp hz with
    | inl hz =>
      have hzy := (List.pairwise_append.mp hs).2.2 z hz y (List.mem_singleton_self y)
      exact hzy.trans hyx
    | inr hz => rwa [List.mem_singleton.mp hz]

/-- The last element before `x` is left out, or `x` comes after what ends with it. -/
theorem grows_concat_iff :
    Grows (prev ++ [y]) x k ↔ Grows prev x k ∨ y < x ∧ ∃ m, Grows prev y m ∧ k = 1 + m := by
  constructor
  · intro h
    obtain ⟨_, hsub, hincr, rfl⟩ := h
    obtain ⟨s, t, rfl, hs, ht⟩ := List.sublist_append_iff.mp hsub
    cases List.sublist_cons_iff.mp ht with
    | inl hnil =>
      rw [List.sublist_nil.mp hnil, List.append_nil] at hincr ⊢
      exact .inl ⟨s, hs, hincr, rfl⟩
    | inr hlast =>
      obtain ⟨r, rfl, hnil⟩ := hlast
      obtain rfl := List.sublist_nil.mp hnil
      obtain ⟨hincr, hyx⟩ := pairwise_concat_concat_iff.mp hincr
      exact .inr ⟨hyx, _, ⟨s, hs, hincr, rfl⟩, by rw [List.length_append, Nat.add_comm]; rfl⟩
  · intro h
    cases h with
    | inl h =>
      obtain ⟨s, hs, hincr, hlen⟩ := h
      exact ⟨s, hs.trans (List.sublist_append_left prev [y]), hincr, hlen⟩
    | inr h =>
      obtain ⟨hyx, m, ⟨s, hs, hincr, rfl⟩, rfl⟩ := h
      refine ⟨s ++ [y], hs.append (List.Sublist.refl [y]), ?_, ?_⟩
      · exact pairwise_concat_concat_iff.mpr ⟨hincr, hyx⟩
      · rw [List.length_append, Nat.add_comm]
        rfl

theorem longest_nil (x : α) : Longest [] x 1 := by
  refine ⟨grows_nil_iff.mpr rfl, ?_⟩
  intro k hk
  exact Nat.le_of_eq (grows_nil_iff.mp hk)

theorem Longest.concat_of_lt (hx : Longest prev x k) (hy : Longest prev y m) (hyx : y < x) :
    Longest (prev ++ [y]) x (max k (1 + m)) := by
  constructor
  · refine grows_concat_iff.mpr ?_
    cases Nat.le_total k (1 + m) with
    | inl hle =>
      rw [Nat.max_eq_right hle]
      exact .inr ⟨hyx, m, hy.1, rfl⟩
    | inr hle =>
      rw [Nat.max_eq_left hle]
      exact .inl hx.1
  · intro j hj
    cases grows_concat_iff.mp hj with
    | inl hj => exact (hx.2 hj).trans (Nat.le_max_left _ _)
    | inr hj =>
      obtain ⟨-, i, hi, rfl⟩ := hj
      exact (Nat.add_le_add_left (hy.2 hi) 1).trans (Nat.le_max_right _ _)

theorem Longest.concat_of_not_lt (hx : Longest prev x k) (hyx : ¬y < x) :
    Longest (prev ++ [y]) x k := by
  refine ⟨grows_concat_iff.mpr (.inl hx.1), ?_⟩
  intro j hj
  exact hx.2 ((grows_concat_iff.mp hj).resolve_right fun h => hyx h.1)

end Foundation
