import Mathlib.Algebra.BigOperators.Group.List.Basic
import Mathlib.Data.Int.Order.Basic
import Mathlib.Data.List.Basic
import Mathlib.Data.List.Induction

/-! Distributing a list over rows. -/
namespace Foundation

variable {α A : Type}

/-- The elements of `s` at the positions that `f` sends to `r`, in order. -/
def bucket (f : ℕ → ℕ) (s : List α) (r : ℕ) : List α :=
  (s.zipIdx.filter fun x => f x.2 = r).map Prod.fst

theorem bucket_nil (f : ℕ → ℕ) (r : ℕ) : bucket f ([] : List α) r = [] := rfl

theorem bucket_concat (f : ℕ → ℕ) (s : List α) (c : α) (r : ℕ) :
    bucket f (s ++ [c]) r = bucket f s r ++ if f s.length = r then [c] else [] := by
  unfold bucket
  rw [List.zipIdx_append, List.filter_append, List.map_append]
  congr 1
  by_cases h : f s.length = r <;> simp [h]

theorem length_bucket_le (f : ℕ → ℕ) (s : List α) (r : ℕ) : (bucket f s r).length ≤ s.length := by
  unfold bucket
  rw [List.length_map]
  exact Nat.le_trans (List.length_filter_le _ _) (Nat.le_of_eq List.length_zipIdx)

/-- An index that no position reaches has an empty bucket. -/
theorem bucket_eq_nil {f : ℕ → ℕ} {s : List α} {r : ℕ} (h : ∀ i < s.length, f i ≠ r) :
    bucket f s r = [] := by
  unfold bucket
  rw [List.map_eq_nil_iff, List.filter_eq_nil_iff]
  rintro ⟨c, i⟩ hmem
  obtain ⟨-, hi, -⟩ := List.mem_zipIdx hmem
  simpa using h i (by simpa using hi)

private theorem flatMap_filter_perm {β : Type*} (g : β → ℕ) (n : ℕ) (l : List β)
    (h : ∀ x ∈ l, g x < n) :
    ((List.range n).flatMap fun r => l.filter fun x => g x = r).Perm l := by
  induction n generalizing l with
  | zero =>
    rw [List.eq_nil_iff_forall_not_mem.mpr fun x hx => Nat.not_lt_zero _ (h x hx)]
    exact List.Perm.refl _
  | succ n ih =>
    have hrest : ((List.range n).flatMap fun r => l.filter fun x => g x = r) =
        (List.range n).flatMap fun r => (l.filter fun x => g x ≠ n).filter fun x => g x = r := by
      apply List.flatMap_congr
      intro r hr
      rw [List.filter_filter]
      apply List.filter_congr
      intro x _
      have := List.mem_range.mp hr
      simp only [ne_eq, decide_not, Bool.and_eq_decide, decide_eq_decide]
      grind
    have hperm := ih (l.filter fun x => g x ≠ n) fun x hx => by
      obtain ⟨hmem, hne⟩ := List.mem_filter.mp hx
      have := h x hmem
      simp only [ne_eq, decide_not, Bool.not_eq_eq_eq_not, Bool.not_true, decide_eq_false_iff_not]
        at hne
      omega
    rw [List.range_succ, List.flatMap_append, List.flatMap_singleton, hrest]
    have hsplit := List.filter_append_perm (fun x => decide (g x ≠ n)) l
    simp only [ne_eq, decide_not, Bool.not_not] at hsplit hperm ⊢
    exact (hperm.append_right _).trans hsplit

/-- Buckets `0, …, n - 1` hold every element once. -/
theorem flatMap_bucket_perm {f : ℕ → ℕ} {n : ℕ} (s : List α) (h : ∀ i < s.length, f i < n) :
    ((List.range n).flatMap (bucket f s)).Perm s := by
  have hpos : ∀ x ∈ s.zipIdx, f x.2 < n := by
    rintro ⟨c, i⟩ hmem
    obtain ⟨-, hi, -⟩ := List.mem_zipIdx hmem
    exact h i (by simpa using hi)
  have hperm := (flatMap_filter_perm (fun x : α × ℕ => f x.2) n s.zipIdx hpos).map Prod.fst
  rw [List.map_flatMap, List.zipIdx_map_fst] at hperm
  exact hperm

theorem length_flatMap_bucket {f : ℕ → ℕ} {n : ℕ} (s : List α) (h : ∀ i < s.length, f i < n) :
    ((List.range n).flatMap (bucket f s)).length = s.length := (flatMap_bucket_perm s h).length_eq

def appendAt (push : A → α → A) (rows : List A) (i : ℤ) (c : α) : Option (List A) :=
  if 0 ≤ i ∧ i < rows.length then some (rows.modify i.toNat (push · c)) else none

/-- The rows hold the buckets `off, …, off + m - 1` of `s`. -/
def Distributed (chars : A → List α) (f : ℕ → ℕ) (off m : ℕ) (s : List α) (rows : List A) : Prop :=
  rows.map chars = (List.range m).map fun r => bucket f s (off + r)

namespace Distributed

variable {chars : A → List α} {f : ℕ → ℕ} {off m : ℕ} {s : List α} {rows : List A}

theorem length_eq (h : Distributed chars f off m s rows) : rows.length = m := by
  have := congrArg List.length h
  simpa using this

theorem replicate {empty : A} (hempty : chars empty = []) (f : ℕ → ℕ) (off m : ℕ) :
    Distributed chars f off m [] (List.replicate m empty) := by
  unfold Distributed
  rw [List.map_replicate, hempty]
  simp [bucket_nil, List.map_const']

/-- Appending an element to the row that its position names. -/
theorem appendAt {push : A → α → A} (hpush : ∀ a c, chars (push a c) = chars a ++ [c])
    (h : Distributed chars f off m s rows) (c : α) (hlo : off ≤ f s.length)
    (hhi : f s.length < off + m) :
    ∃ rows', Foundation.appendAt push rows ((f s.length : ℤ) - off) c = some rows' ∧
      Distributed chars f off m (s ++ [c]) rows' := by
  have hlen := h.length_eq
  refine ⟨rows.modify (f s.length - off) (push · c), ?_, ?_⟩
  · unfold Foundation.appendAt
    rw [if_pos (by omega)]
    congr 2
    omega
  · apply List.ext_getElem (by simpa using hlen)
    intro r hr hr'
    have hr'' : r < rows.length := by simpa using hr
    have hrow : chars rows[r] = bucket f s (off + r) := by
      have hget := congrArg (fun l => l[r]?) h
      simpa [hr'', show r < m by omega] using hget
    rw [List.getElem_map, List.getElem_modify, List.getElem_map, List.getElem_range, bucket_concat]
    by_cases heq : f s.length - off = r
    · rw [if_pos heq, if_pos (by omega), hpush, hrow]
    · rw [if_neg heq, if_neg (by omega), hrow, List.append_nil]

/-- An element for an earlier row leaves these rows as they are. -/
theorem skip (h : Distributed chars f off m s rows) (c : α) (hlt : f s.length < off) :
    Distributed chars f off m (s ++ [c]) rows := by
  unfold Distributed
  rw [h]
  apply List.map_congr_left
  intro r _
  rw [bucket_concat, if_neg (by omega), List.append_nil]

end Distributed

end Foundation
