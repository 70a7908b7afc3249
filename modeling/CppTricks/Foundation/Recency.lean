import Mathlib.Data.List.Dedup
import Mathlib.Data.List.DropRight
import Mathlib.Data.List.Nodup

/-! Least-recently-used order: the last `cap` distinct elements of a sequence of touches. -/
namespace Foundation

variable {α : Type*} {l : List α}

private theorem rtake_append_of_le {n : ℕ} (pre l : List α) (h : n ≤ l.length) :
    (pre ++ l).rtake n = l.rtake n := by
  rw [List.rtake, List.rtake, List.length_append, List.drop_append,
    List.drop_eq_nil_of_le (by omega), List.nil_append]
  congr 1
  omega

private theorem rtake_of_length_le {n : ℕ} (h : l.length ≤ n) : l.rtake n = l := by
  rw [List.rtake, Nat.sub_eq_zero_of_le h, List.drop_zero]

private theorem rtake_pred_of_length_eq {n : ℕ} (h : l.length = n + 1) : l.rtake n = l.tail := by
  rw [List.rtake, h, Nat.add_sub_cancel_left, List.drop_one]

/-- A window of the last `n + 1` elements moves on by dropping the oldest one when it is full. -/
theorem rtake_concat (n : ℕ) (l : List α) (k : α) :
    (l ++ [k]).rtake (n + 1) =
      (if (l.rtake (n + 1)).length = n + 1 then (l.rtake (n + 1)).tail else l.rtake (n + 1)) ++
        [k] := by
  have hlen : (l.rtake (n + 1)).length = l.length - (l.length - (n + 1)) := by
    rw [List.rtake, List.length_drop]
  rw [List.rtake_concat_succ]
  split
  case isTrue hfull =>
    rw [List.rtake, List.rtake, List.tail_drop]
    congr 2
    omega
  case isFalse hroom =>
    rw [rtake_of_length_le (by omega), rtake_of_length_le (by omega)]

variable [DecidableEq α] {cap : ℕ} {k : α}

/-- Make `k` the most recent element of `l`, dropping the least recent one only to make room. -/
def touch (cap : ℕ) (l : List α) (k : α) : List α :=
  if k ∈ l then l.erase k ++ [k]
  else if l.length = cap then l.tail ++ [k]
  else l ++ [k]

theorem touch_of_mem (h : k ∈ l) : touch cap l k = l.erase k ++ [k] := if_pos h

theorem touch_of_full (h : k ∉ l) (hfull : l.length = cap) : touch cap l k = l.tail ++ [k] := by
  unfold touch
  rw [if_neg h, if_pos hfull]

theorem touch_of_room (h : k ∉ l) (hroom : l.length ≠ cap) : touch cap l k = l ++ [k] := by
  unfold touch
  rw [if_neg h, if_neg hroom]

/-- The last `cap` distinct elements of `touches`, from least to most recently touched. -/
def recent (cap : ℕ) (touches : List α) : List α := touches.dedup.rtake cap

@[simp] theorem recent_nil (cap : ℕ) : recent cap ([] : List α) = [] := by
  simp [recent, List.rtake]

theorem length_recent (cap : ℕ) (touches : List α) :
    (recent cap touches).length = min cap touches.dedup.length := by
  unfold recent
  rw [List.rtake, List.length_drop]
  omega

theorem dedup_concat (l : List α) (k : α) : (l ++ [k]).dedup = l.dedup.erase k ++ [k] := by
  induction l with
  | nil => simp
  | cons a l ih =>
    rw [List.cons_append]
    by_cases hal : a ∈ l
    · rw [List.dedup_cons_of_mem (List.mem_append_left _ hal), List.dedup_cons_of_mem hal, ih]
    rw [List.dedup_cons_of_notMem hal]
    by_cases hak : a = k
    · subst a
      rw [List.dedup_cons_of_mem (by simp), ih, List.erase_cons_head,
        List.erase_of_not_mem (by simpa using hal)]
    · rw [List.dedup_cons_of_notMem (by simp [hal, hak]), ih,
        List.erase_cons_tail (by simpa using hak), List.cons_append]

/-- A list in recency order stays in it when an element that it lacks is touched. -/
theorem sublist_dedup_erase {touches : List α} (h : l.Sublist touches.dedup) (hk : k ∉ l) :
    l.Sublist (touches.dedup.erase k) := by
  have herase := h.erase k
  rwa [List.erase_of_not_mem hk] at herase

/-- Touching `k` keeps the invariant that the list holds the most recent elements. -/
theorem touch_recent (hcap : 1 ≤ cap) (touches : List α) (k : α) :
    touch cap (recent cap touches) k = recent cap (touches ++ [k]) := by
  obtain ⟨n, rfl⟩ : ∃ n, cap = n + 1 := ⟨cap - 1, by omega⟩
  have hlen := length_recent (n + 1) touches
  obtain ⟨pre, hpre⟩ : ∃ pre, touches.dedup = pre ++ recent (n + 1) touches :=
    ⟨touches.dedup.take (touches.dedup.length - (n + 1)), (List.take_append_drop _ _).symm⟩
  have hnodup : (pre ++ recent (n + 1) touches).Nodup := hpre ▸ List.nodup_dedup touches
  have hplen : touches.dedup.length = pre.length + (recent (n + 1) touches).length := by
    rw [← List.length_append, ← hpre]
  rw [show recent (n + 1) (touches ++ [k]) =
    ((pre ++ recent (n + 1) touches).erase k).rtake n ++ [k] by
      rw [recent, dedup_concat, List.rtake_concat_succ, hpre]]
  generalize recent (n + 1) touches = l at hlen hnodup hplen
  rw [hplen] at hlen
  have hshort : l.length = n + 1 ∨ pre = [] ∧ l.length < n + 1 := by
    rcases pre with _ | ⟨a, pre⟩
    · simp only [List.length_nil, true_and] at hlen ⊢
      omega
    · simp only [List.length_cons] at hlen
      omega
  unfold touch
  split_ifs with hmem hfull
  · have hpk : k ∉ pre := fun h => (List.nodup_append.mp hnodup).2.2 k h k hmem rfl
    have hel : (l.erase k).length = l.length - 1 := List.length_erase_of_mem hmem
    rw [List.erase_append_right _ hpk]
    rcases hshort with hl | ⟨rfl, hl⟩
    · rw [rtake_append_of_le _ _ (by omega), rtake_of_length_le (by omega)]
    · rw [List.nil_append, rtake_of_length_le (by omega)]
  · by_cases hpk : k ∈ pre
    · rw [List.erase_append_left _ hpk, rtake_append_of_le _ _ (by omega),
        rtake_pred_of_length_eq hfull]
    · rw [List.erase_of_not_mem (by simp [hpk, hmem]), rtake_append_of_le _ _ (by omega),
        rtake_pred_of_length_eq hfull]
  · obtain ⟨rfl, hl⟩ := hshort.resolve_left hfull
    rw [List.nil_append, List.erase_of_not_mem hmem, rtake_of_length_le (by omega)]

/-- What a touch drops is the least recent element of a full list that lacks `k`. -/
theorem dropped_by_touch {j : α} (hj : j ∈ l) (hj' : j ∉ touch cap l k) :
    k ∉ l ∧ l.length = cap ∧ l.head? = some j := by
  unfold touch at hj'
  split_ifs at hj' with hmem hfull
  · have hjk : j ≠ k := fun h => hj' (by simp [h])
    exact absurd (List.mem_append_left _ ((List.mem_erase_of_ne hjk).mpr hj)) hj'
  · refine ⟨hmem, hfull, ?_⟩
    rcases l with _ | ⟨a, l⟩
    · simp at hj
    · rcases List.mem_cons.mp hj with rfl | hjl
      · rfl
      · exact absurd (List.mem_append_left _ hjl) hj'
  · exact absurd (List.mem_append_left _ hj) hj'

theorem getLast?_touch (cap : ℕ) (l : List α) (k : α) : (touch cap l k).getLast? = some k := by
  unfold touch
  split_ifs <;> simp

end Foundation
