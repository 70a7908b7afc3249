import Mathlib.Algebra.BigOperators.Group.Finset.Basic
import Mathlib.Algebra.Order.BigOperators.Group.Finset
import Mathlib.Algebra.Order.Group.Defs
import Mathlib.Combinatorics.Colex
import Mathlib.Data.Finset.Max
import Mathlib.Data.Finset.Powerset
import Mathlib.Order.Bounds.Basic

/-! Selections from a finite set of weighted elements, and the greatest total value among some. -/
namespace Foundation

variable {ι M : Type*} [AddCommGroup M] [LinearOrder M] {F G H : Finset ι → Prop}
  {w v : ι → M} {K S T : Finset ι} {x m m₁ m₂ : M} {k : ι}

/-- `m` is the greatest total value of a selection in `F`. -/
def Best (F : Finset ι → Prop) (v : ι → M) (m : M) : Prop :=
  IsGreatest {t | ∃ S, F S ∧ ∑ i ∈ S, v i = t} m

/-- Selections from `K` whose total weight is at most `x`. -/
def Fits (w : ι → M) (K : Finset ι) (x : M) (S : Finset ι) : Prop :=
  S ⊆ K ∧ ∑ i ∈ S, w i ≤ x

/-- Each element, taken from the greatest downwards, finds some of the capacity `x` left. -/
def WhileRoom [LinearOrder ι] (w : ι → M) (x : M) (S : Finset ι) : Prop :=
  ∀ k ∈ S, ∑ i ∈ S with k < i, w i < x

section Best

theorem Best.unique (h₁ : Best F v m₁) (h₂ : Best F v m₂) : m₁ = m₂ := IsGreatest.unique h₁ h₂

theorem Best.congr (h : Best F v m) (hFG : ∀ S, F S ↔ G S) : Best G v m := by
  have heq : F = G := funext fun S => propext (hFG S)
  rwa [← heq]

theorem Best.le (h : Best F v m) (hS : F S) : ∑ i ∈ S, v i ≤ m := h.2 ⟨S, hS, rfl⟩

theorem Best.exists (h : Best F v m) : ∃ S, F S ∧ ∑ i ∈ S, v i = m := h.1

theorem best_of (hS : F S) (hle : ∀ T, F T → ∑ i ∈ T, v i ≤ ∑ i ∈ S, v i) :
    Best F v (∑ i ∈ S, v i) := by
  constructor
  · exact ⟨S, hS, rfl⟩
  · intro t ht
    obtain ⟨T, hT, rfl⟩ := ht
    exact hle T hT

theorem best_empty (v : ι → M) (h : ∀ S, F S ↔ S = ∅) : Best F v 0 := by
  rw [← Finset.sum_empty (f := v)]
  apply best_of ((h ∅).mpr rfl)
  intro T hT
  rw [(h T).mp hT]

/-- The best selection without `k` against the best with `k` added. -/
theorem Best.choose [DecidableEq ι] [IsOrderedAddMonoid M] (hout : Best F v m₁)
    (hin : Best G v m₂) (hk : ∀ T, G T → k ∉ T)
    (hH : ∀ S, H S ↔ F S ∨ ∃ T, G T ∧ S = insert k T) : Best H v (max m₁ (m₂ + v k)) := by
  have hsum : ∀ T, G T → ∑ i ∈ insert k T, v i = ∑ i ∈ T, v i + v k := by
    intro T hT
    rw [Finset.sum_insert (hk T hT), add_comm]
  constructor
  · cases le_total m₁ (m₂ + v k) with
    | inl hle =>
      obtain ⟨T, hT, rfl⟩ := hin.exists
      exact ⟨insert k T, (hH _).mpr (.inr ⟨T, hT, rfl⟩), by rw [hsum T hT, max_eq_right hle]⟩
    | inr hle =>
      obtain ⟨S, hS, rfl⟩ := hout.exists
      exact ⟨S, (hH S).mpr (.inl hS), (max_eq_left hle).symm⟩
  · intro t ht
    obtain ⟨S, hS, rfl⟩ := ht
    cases (hH S).mp hS with
    | inl hF => exact le_max_of_le_left (hout.le hF)
    | inr hG =>
      obtain ⟨T, hT, rfl⟩ := hG
      rw [hsum T hT]
      exact le_max_of_le_right (add_le_add_left (hin.le hT) (v k))

/-- Some best selection has `k` in it exactly when adding `k` is worth it. -/
theorem Best.exists_taking_iff [DecidableEq ι] [IsOrderedAddMonoid M] (hout : Best F v m₁)
    (hin : Best G v m₂) (hkF : ∀ S, F S → k ∉ S) (hkG : ∀ T, G T → k ∉ T)
    (hH : ∀ S, H S ↔ F S ∨ ∃ T, G T ∧ S = insert k T) :
    (∃ S, k ∈ S ∧ H S ∧ Best H v (∑ i ∈ S, v i)) ↔ m₁ ≤ m₂ + v k := by
  have hbest : Best H v (max m₁ (m₂ + v k)) := hout.choose hin hkG hH
  constructor
  · intro h
    obtain ⟨S, hk, hS, hopt⟩ := h
    obtain ⟨T, hT, rfl⟩ := ((hH S).mp hS).resolve_left fun hF => hkF S hF hk
    have heq := hopt.unique hbest
    rw [Finset.sum_insert (hkG T hT), add_comm] at heq
    have hle : ∑ i ∈ T, v i + v k ≤ m₂ + v k := add_le_add_left (hin.le hT) (v k)
    exact (le_max_left m₁ _).trans (heq.ge.trans hle)
  · intro h
    rw [max_eq_right h] at hbest
    obtain ⟨T, hT, rfl⟩ := hin.exists
    refine ⟨insert k T, Finset.mem_insert_self k T, (hH _).mpr (.inr ⟨T, hT, rfl⟩), ?_⟩
    rwa [Finset.sum_insert (hkG T hT), add_comm]

end Best

/-- The best selection in `F` that leaves the greatest elements out on a tie. -/
structure LeastBest [LinearOrder ι] (F : Finset ι → Prop) (v : ι → M) (S : Finset ι) : Prop where
  mem : F S
  le : ∀ T, F T → ∑ i ∈ T, v i ≤ ∑ i ∈ S, v i
  least : ∀ T, F T → ∑ i ∈ T, v i = ∑ i ∈ S, v i → toColex S ≤ toColex T

section LeastBest

variable [LinearOrder ι]

theorem LeastBest.best (h : LeastBest F v S) : Best F v (∑ i ∈ S, v i) := best_of h.mem h.le

theorem LeastBest.unique (hS : LeastBest F v S) (hT : LeastBest F v T) : S = T := by
  have heq : ∑ i ∈ S, v i = ∑ i ∈ T, v i := hS.best.unique hT.best
  have hST := hS.least T hT.mem heq.symm
  have hTS := hT.least S hS.mem heq
  exact toColex_inj.mp (le_antisymm hST hTS)

theorem leastBest_empty (v : ι → M) (h : ∀ S, F S ↔ S = ∅) : LeastBest F v ∅ := by
  refine ⟨(h ∅).mpr rfl, ?_, ?_⟩
  · intro T hT
    rw [(h T).mp hT]
  · intro T hT _
    rw [(h T).mp hT]

private theorem toColex_le_insert (hS : ∀ i ∈ S, i < k) (T : Finset ι) :
    toColex S ≤ toColex (insert k T) := by
  rw [Finset.Colex.toColex_le_toColex]
  intro a ha _
  exact ⟨k, Finset.mem_insert_self k T, fun hk => lt_irrefl k (hS k hk), (hS a ha).le⟩

private theorem insert_toColex_le (hT : ∀ i ∈ T, i < k) (h : toColex S ≤ toColex T) :
    toColex (insert k S) ≤ toColex (insert k T) := by
  rw [Finset.Colex.toColex_le_toColex] at h ⊢
  intro a ha haT
  rw [Finset.mem_insert, not_or] at haT
  obtain ⟨b, hb, hbS, hab⟩ := h ((Finset.mem_insert.mp ha).resolve_left haT.1) haT.2
  refine ⟨b, Finset.mem_insert_of_mem hb, ?_, hab⟩
  rw [Finset.mem_insert, not_or]
  exact ⟨(hT b hb).ne, hbS⟩

/-- The greatest element `k` is taken only where taking it is strictly better. -/
theorem LeastBest.choose [IsOrderedAddMonoid M] (hout : LeastBest F v S) (hin : LeastBest G v T)
    (hkF : ∀ S, F S → ∀ i ∈ S, i < k) (hkG : ∀ T, G T → ∀ i ∈ T, i < k)
    (hH : ∀ S, H S ↔ F S ∨ ∃ T, G T ∧ S = insert k T) :
    LeastBest H v (if ∑ i ∈ T, v i + v k ≤ ∑ i ∈ S, v i then S else insert k T) := by
  have hsum : ∀ T, G T → ∑ i ∈ insert k T, v i = ∑ i ∈ T, v i + v k := by
    intro T hT
    rw [Finset.sum_insert fun hk => lt_irrefl k (hkG T hT k hk), add_comm]
  split
  case isTrue hle =>
    refine ⟨(hH S).mpr (.inl hout.mem), ?_, ?_⟩
    · intro U hU
      cases (hH U).mp hU with
      | inl hF => exact hout.le U hF
      | inr hG =>
        obtain ⟨T', hT', rfl⟩ := hG
        rw [hsum T' hT']
        exact (add_le_add_left (hin.le T' hT') (v k)).trans hle
    · intro U hU heq
      cases (hH U).mp hU with
      | inl hF => exact hout.least U hF heq
      | inr hG =>
        obtain ⟨T', hT', rfl⟩ := hG
        exact toColex_le_insert (hkF S hout.mem) T'
  case isFalse hlt =>
    refine ⟨(hH _).mpr (.inr ⟨T, hin.mem, rfl⟩), ?_, ?_⟩
    · intro U hU
      rw [hsum T hin.mem]
      cases (hH U).mp hU with
      | inl hF => exact (hout.le U hF).trans (not_le.mp hlt).le
      | inr hG =>
        obtain ⟨T', hT', rfl⟩ := hG
        rw [hsum T' hT']
        exact add_le_add_left (hin.le T' hT') (v k)
    · intro U hU heq
      rw [hsum T hin.mem] at heq
      cases (hH U).mp hU with
      | inl hF => exact absurd (heq ▸ hout.le U hF) hlt
      | inr hG =>
        obtain ⟨T', hT', rfl⟩ := hG
        rw [hsum T' hT', add_left_inj] at heq
        exact insert_toColex_le (hkG T' hT') (hin.least T' hT' heq)

end LeastBest

section Fits

theorem fits_empty_iff (w : ι → M) (hx : 0 ≤ x) : Fits w ∅ x S ↔ S = ∅ := by
  constructor
  · intro h
    exact Finset.subset_empty.mp h.1
  · intro h
    subst h
    exact ⟨Finset.Subset.refl ∅, by simpa using hx⟩

theorem exists_best_fits [DecidableEq ι] (w v : ι → M) (K : Finset ι) (hx : 0 ≤ x) :
    ∃ S, Fits w K x S ∧ Best (Fits w K x) v (∑ i ∈ S, v i) := by
  have hempty : ∅ ∈ K.powerset.filter fun S => ∑ i ∈ S, w i ≤ x := by simpa using hx
  obtain ⟨S, hS, hmax⟩ := Finset.exists_max_image _ (fun S => ∑ i ∈ S, v i) ⟨∅, hempty⟩
  have hiff : ∀ T, T ∈ K.powerset.filter (fun S => ∑ i ∈ S, w i ≤ x) ↔ Fits w K x T := by
    intro T
    rw [Finset.mem_filter, Finset.mem_powerset]
    rfl
  exact ⟨S, (hiff S).mp hS, best_of ((hiff S).mp hS) fun T hT => hmax T ((hiff T).mpr hT)⟩

theorem Fits.mono {L : Finset ι} {y : M} (h : Fits w K x S) (hK : K ⊆ L) (hx : x ≤ y) :
    Fits w L y S :=
  ⟨h.1.trans hK, h.2.trans hx⟩

theorem Fits.notMem (h : Fits w K x S) (hk : k ∉ K) : k ∉ S := fun hkS => hk (h.1 hkS)

variable [IsOrderedAddMonoid M] [DecidableEq ι]

/-- A set with one more element is searched with and without that element. -/
theorem fits_insert_iff (w : ι → M) (hk : k ∉ K) (x : M) (S : Finset ι) :
    Fits w (insert k K) x S ↔ Fits w K x S ∨ ∃ T, Fits w K (x - w k) T ∧ S = insert k T := by
  constructor
  · intro h
    by_cases hkS : k ∈ S
    · have hle : w k + ∑ i ∈ S.erase k, w i ≤ x := (Finset.add_sum_erase S w hkS).le.trans h.2
      have hfits : Fits w K (x - w k) (S.erase k) :=
        ⟨Finset.subset_insert_iff.mp h.1, le_sub_iff_add_le'.mpr hle⟩
      exact .inr ⟨S.erase k, hfits, (Finset.insert_erase hkS).symm⟩
    · exact .inl ⟨(Finset.subset_insert_iff_of_notMem hkS).mp h.1, h.2⟩
  · intro h
    cases h with
    | inl h => exact ⟨h.1.trans (Finset.subset_insert k K), h.2⟩
    | inr h =>
      obtain ⟨T, hT, rfl⟩ := h
      constructor
      · exact Finset.insert_subset_insert k hT.1
      · rw [Finset.sum_insert (hT.notMem hk)]
        exact le_sub_iff_add_le'.mp hT.2

/-- An element too heavy by itself is in no selection that fits. -/
theorem fits_insert_iff_of_lt (hw : ∀ i ∈ insert k K, 0 ≤ w i) (hx : x < w k) (S : Finset ι) :
    Fits w (insert k K) x S ↔ Fits w K x S := by
  constructor
  · intro h
    have hkS : k ∉ S := by
      intro hkS
      have hle := Finset.single_le_sum (fun i hi => hw i (h.1 hi)) hkS
      exact absurd (hle.trans h.2) (not_le.mpr hx)
    exact ⟨(Finset.subset_insert_iff_of_notMem hkS).mp h.1, h.2⟩
  · intro h
    exact ⟨h.1.trans (Finset.subset_insert k K), h.2⟩

/-- An element worth nothing need not be searched. -/
theorem Best.insert_of_worthless (h : Best (Fits w K x) v m) (hw : 0 ≤ w k) (hv : v k = 0) :
    Best (Fits w (insert k K) x) v m := by
  have hle : ∀ S, Fits w (insert k K) x S → ∑ i ∈ S, v i ≤ m := by
    intro S hS
    have hweight : ∑ i ∈ S.erase k, w i ≤ ∑ i ∈ S, w i := by
      by_cases hk : k ∈ S
      · rw [← Finset.add_sum_erase S w hk]
        exact le_add_of_nonneg_left hw
      · rw [Finset.erase_eq_of_notMem hk]
    rw [← Finset.sum_erase S hv]
    exact h.le ⟨Finset.subset_insert_iff.mp hS.1, hweight.trans hS.2⟩
  obtain ⟨S, hS, rfl⟩ := h.exists
  exact best_of ⟨hS.1.trans (Finset.subset_insert k K), hS.2⟩ hle

end Fits

section WhileRoom

variable [LinearOrder ι]

theorem fits_whileRoom_zero_iff [IsOrderedAddMonoid M] (hw : ∀ i ∈ K, 0 ≤ w i) (S : Finset ι) :
    Fits w K 0 S ∧ WhileRoom w 0 S ↔ S = ∅ := by
  constructor
  · intro h
    rw [Finset.eq_empty_iff_forall_notMem]
    intro k hk
    have hnonneg : 0 ≤ ∑ i ∈ S with k < i, w i :=
      Finset.sum_nonneg fun i hi => hw i (h.1.1 (Finset.mem_of_mem_filter i hi))
    exact absurd (h.2 k hk) (not_lt.mpr hnonneg)
  · intro h
    subst h
    exact ⟨⟨Finset.empty_subset K, by simp⟩, by simp [WhileRoom]⟩

/-- Taking `k` first leaves the capacity `x - w k` to the elements below it. -/
theorem whileRoom_insert_iff [IsOrderedAddMonoid M] (hT : ∀ i ∈ T, i < k) (hx : 0 < x) :
    WhileRoom w x (insert k T) ↔ WhileRoom w (x - w k) T := by
  have hk : k ∉ T := fun hk => lt_irrefl k (hT k hk)
  have hbelow : ∀ j ∈ T, ∑ i ∈ insert k T with j < i, w i = w k + ∑ i ∈ T with j < i, w i := by
    intro j hj
    rw [Finset.filter_insert, if_pos (hT j hj), Finset.sum_insert (by simp [hk])]
  constructor
  · intro h j hj
    have hlt := h j (Finset.mem_insert_of_mem hj)
    rw [hbelow j hj] at hlt
    exact lt_sub_iff_add_lt'.mpr hlt
  · intro h j hj
    cases Finset.mem_insert.mp hj with
    | inl hjk =>
      have hnone : (insert k T).filter (j < ·) = ∅ := by
        rw [Finset.filter_eq_empty_iff]
        intro i hi
        cases Finset.mem_insert.mp hi with
        | inl hik => rw [hik, hjk]; exact lt_irrefl k
        | inr hiT => rw [hjk]; exact (hT i hiT).asymm
      rw [hnone, Finset.sum_empty]
      exact hx
    | inr hjT =>
      rw [hbelow j hjT]
      exact lt_sub_iff_add_lt'.mp (h j hjT)

/-- The search for such selections, while there is capacity. -/
theorem fits_whileRoom_insert_iff [IsOrderedAddMonoid M] (hk : ∀ i ∈ K, i < k) (hx : 0 < x)
    (S : Finset ι) :
    Fits w (insert k K) x S ∧ WhileRoom w x S ↔
      (Fits w K x S ∧ WhileRoom w x S) ∨
        ∃ T, (Fits w K (x - w k) T ∧ WhileRoom w (x - w k) T) ∧ S = insert k T := by
  have hkK : k ∉ K := fun h => lt_irrefl k (hk k h)
  rw [fits_insert_iff w hkK]
  constructor
  · intro h
    cases h.1 with
    | inl hout => exact .inl ⟨hout, h.2⟩
    | inr hin =>
      obtain ⟨T, hT, rfl⟩ := hin
      exact .inr ⟨T, ⟨hT, (whileRoom_insert_iff (fun i hi => hk i (hT.1 hi)) hx).mp h.2⟩, rfl⟩
  · intro h
    cases h with
    | inl hout => exact ⟨.inl hout.1, hout.2⟩
    | inr hin =>
      obtain ⟨T, ⟨hT, hroom⟩, rfl⟩ := hin
      exact ⟨.inr ⟨T, hT, rfl⟩, (whileRoom_insert_iff (fun i hi => hk i (hT.1 hi)) hx).mpr hroom⟩

/-- Where what weighs nothing is worth nothing, every selection that fits is as good as one taken
while there is room. -/
theorem Fits.exists_whileRoom [IsOrderedAddMonoid M] (h : Fits w K x S) (hw : ∀ i ∈ K, 0 ≤ w i)
    (hv : ∀ i ∈ K, w i = 0 → v i = 0) :
    ∃ T, Fits w K x T ∧ WhileRoom w x T ∧ ∑ i ∈ T, v i = ∑ i ∈ S, v i := by
  have hmem : ∀ i ∈ S, ¬ 0 < w i → w i = 0 := fun i hi hle => by
    exact le_antisymm (not_lt.mp hle) (hw i (h.1 hi))
  have hsum : ∀ u : ι → M, (∀ i ∈ S, w i = 0 → u i = 0) →
      ∑ i ∈ S with 0 < w i, u i = ∑ i ∈ S, u i := by
    intro u hu
    apply Finset.sum_filter_of_ne
    intro i hi hne
    by_contra hle
    exact hne (hu i hi (hmem i hi hle))
  have hweight := hsum w fun i _ hi => hi
  refine ⟨S.filter (0 < w ·), ⟨?_, by rw [hweight]; exact h.2⟩, ?_, ?_⟩
  · exact (Finset.filter_subset _ S).trans h.1
  · intro k hk
    have hkw := (Finset.mem_filter.mp hk).2
    have hself : k ∉ {i ∈ S.filter (0 < w ·) | k < i} := by simp
    have hsub : ∑ i ∈ S.filter (0 < w ·) with k < i, w i < ∑ i ∈ S with 0 < w i, w i := by
      apply Finset.sum_lt_sum_of_subset (Finset.filter_subset _ _) hk hself hkw
      intro i hi _
      exact (Finset.mem_filter.mp hi).2.le
    exact hsub.trans_le (hweight.le.trans h.2)
  · exact hsum v fun i hi => hv i (h.1 hi)

end WhileRoom

end Foundation
