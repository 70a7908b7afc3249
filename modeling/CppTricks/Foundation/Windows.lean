import Mathlib.Data.List.Basic

/-! The stretches of successive elements of a list. -/
namespace Foundation

variable {α β : Type*} {n : ℕ} {l : List α}

/-- The stretches of `n` successive elements, from left to right. -/
def windows (n : ℕ) (l : List α) : List (List α) :=
  (List.range (l.length + 1 - n)).map fun i => (l.drop i).take n

theorem length_of_mem_windows {w : List α} (h : w ∈ windows n l) : w.length = n := by
  obtain ⟨i, hi, rfl⟩ := List.mem_map.mp h
  rw [List.mem_range] at hi
  rw [List.length_take, List.length_drop]
  omega

theorem windows_map (f : α → β) (n : ℕ) (l : List α) :
    windows n (l.map f) = (windows n l).map (List.map f) := by
  unfold windows
  rw [List.length_map, List.map_map]
  apply List.map_congr_left
  intro i _
  rw [Function.comp_apply, List.map_take, List.map_drop]

/-- The elements at one place of the windows are a stretch of the list. -/
theorem map_getElem?_windows {j : ℕ} (hj : j < n) (l : List α) :
    (windows n l).map (fun w => w[j]?) = ((l.drop j).take (l.length + 1 - n)).map some := by
  apply List.ext_getElem?
  intro i
  unfold windows
  rw [List.map_map, List.getElem?_map, List.getElem?_map, List.getElem?_take]
  by_cases hi : i < l.length + 1 - n
  · have hlt : j + i < l.length := by omega
    have hrange : (List.range (l.length + 1 - n))[i]? = some i := by
      rw [List.getElem?_range hi]
    rw [hrange, if_pos hi, List.getElem?_drop, List.getElem?_eq_getElem hlt]
    have hwindow : ((l.drop i).take n)[j]? = some l[j + i] := by
      rw [List.getElem?_take, if_pos hj, List.getElem?_drop, Nat.add_comm,
        List.getElem?_eq_getElem hlt]
    exact congrArg some hwindow
  · have hrange : (List.range (l.length + 1 - n))[i]? = none := by
      rw [List.getElem?_eq_none_iff, List.length_range]
      omega
    rw [hrange, if_neg hi]
    rfl

/-- A list with at least `n` elements has a first window. -/
theorem windows_eq_cons (h : n ≤ l.length) :
    windows n l = l.take n :: (windows (n + 1) l).map List.tail := by
  obtain ⟨m, hm⟩ : ∃ m, l.length = n + m := ⟨l.length - n, by omega⟩
  have hn : l.length + 1 - n = m + 1 := by omega
  have hsucc : l.length + 1 - (n + 1) = m := by omega
  unfold windows
  rw [hn, hsucc, List.range_succ_eq_map, List.map_cons, List.map_map, List.map_map]
  refine congrArg (l.take n :: ·) (List.map_congr_left fun i _ => ?_)
  rw [Function.comp_apply, Function.comp_apply, ← List.drop_one, List.drop_take, List.drop_drop]
  rfl

/-- A list with at least `n` elements has a last window. -/
theorem windows_eq_concat (h : n ≤ l.length) :
    windows n l = (windows (n + 1) l).map List.dropLast ++ [l.drop (l.length - n)] := by
  obtain ⟨m, hm⟩ : ∃ m, l.length = n + m := ⟨l.length - n, by omega⟩
  have hn : l.length + 1 - n = m + 1 := by omega
  have hsucc : l.length + 1 - (n + 1) = m := by omega
  have hlast : (l.drop m).take n = l.drop (l.length - n) := by
    have hdrop : l.length - n = m := by omega
    rw [hdrop, List.take_of_length_le]
    rw [List.length_drop]
    omega
  unfold windows
  rw [hn, hsucc, List.range_succ, List.map_append, List.map_singleton, hlast, List.map_map]
  refine congrArg (· ++ _) (List.map_congr_left fun i hi => ?_)
  rw [List.mem_range] at hi
  rw [Function.comp_apply, List.dropLast_eq_take, List.length_take, List.length_drop,
    List.take_take]
  congr 1
  omega

end Foundation
