import Mathlib.Data.Int.Order.Basic
import Mathlib.Data.List.Basic

/-! `std::min_element`: the first of the smallest elements, with its position. -/
namespace Foundation

variable {α : Type}

def minElement (less : α → α → Bool) (xs : List α) : Option (α × ℕ) :=
  match xs.zipIdx with
  | [] => none
  | x :: rest => some (rest.foldl (fun smallest y => if less y.1 smallest.1 then y else smallest) x)

/-- `x` is the first of the smallest entries, for the order that `key` gives. -/
structure FirstMin (key : α → ℤ) (xs : List (α × ℕ)) (x : α × ℕ) : Prop where
  mem : x ∈ xs
  le : ∀ y ∈ xs, key x.1 ≤ key y.1
  lt : ∀ y ∈ xs, y.2 < x.2 → key x.1 < key y.1

private theorem firstMin_foldl (key : α → ℤ) (seen rest : List (α × ℕ)) (x : α × ℕ)
    (hx : FirstMin key seen x) (hsorted : ∀ y ∈ seen, ∀ z ∈ rest, y.2 < z.2)
    (hrest : rest.Pairwise fun y z => y.2 < z.2) :
    FirstMin key (seen ++ rest)
      (rest.foldl (fun smallest y => if key y.1 < key smallest.1 then y else smallest) x) := by
  induction rest generalizing seen x with
  | nil => simpa using hx
  | cons z rest ih =>
    rw [List.pairwise_cons] at hrest
    rw [List.append_cons, List.foldl_cons]
    refine ih (seen ++ [z]) _ ?_ ?_ hrest.2
    · split
      next hlt =>
        refine ⟨by simp, fun y hy => ?_, fun y hy hyz => ?_⟩
        · obtain hy | hy := List.mem_append.mp hy
          · exact Int.le_of_lt (Int.lt_of_lt_of_le hlt (hx.le y hy))
          · rw [List.mem_singleton.mp hy]
        · obtain hy | hy := List.mem_append.mp hy
          · exact Int.lt_of_lt_of_le hlt (hx.le y hy)
          · rw [List.mem_singleton.mp hy] at hyz
            exact absurd hyz (Nat.lt_irrefl _)
      next hge =>
        refine ⟨List.mem_append_left _ hx.mem, fun y hy => ?_, fun y hy hyx => ?_⟩
        · obtain hy | hy := List.mem_append.mp hy
          · exact hx.le y hy
          · rw [List.mem_singleton.mp hy]
            omega
        · obtain hy | hy := List.mem_append.mp hy
          · exact hx.lt y hy hyx
          · have := hsorted x hx.mem z (by simp)
            rw [List.mem_singleton.mp hy] at hyx
            omega
    · intro y hy w hw
      obtain hy | hy := List.mem_append.mp hy
      · exact hsorted y hy w (List.mem_cons_of_mem _ hw)
      · rw [List.mem_singleton.mp hy]
        exact hrest.1 w hw

/-- On a list that is not empty the result is the first minimum. -/
theorem minElement_spec (key : α → ℤ) {xs : List α} (hne : xs ≠ []) :
    ∃ (x : α) (i : ℕ), minElement (fun a b => key a < key b) xs = some (x, i) ∧
      xs[i]? = some x ∧ (∀ (j : ℕ) y, xs[j]? = some y → key x ≤ key y) ∧
      ∀ (j : ℕ) y, xs[j]? = some y → j < i → key x < key y := by
  obtain ⟨a, as, rfl⟩ := List.exists_cons_of_ne_nil hne
  have hsorted : (as.zipIdx 1).Pairwise fun y z => y.2 < z.2 := by
    have hidx := List.pairwise_lt_range' (s := 1) (n := as.length)
    rwa [← List.zipIdx_map_snd, List.pairwise_map] at hidx
  have hmin := firstMin_foldl key [(a, 0)] (as.zipIdx 1) (a, 0) ⟨by simp, by simp, by simp⟩
    (fun y hy z hz => by
      obtain ⟨hz, -, -⟩ := List.mem_zipIdx hz
      rwa [List.mem_singleton.mp hy])
    hsorted
  rw [List.singleton_append, ← List.zipIdx_cons] at hmin
  refine ⟨_, _, by simp [minElement], List.mk_mem_zipIdx_iff_getElem?.mp hmin.mem,
    fun j y hy => hmin.le (y, j) (List.mk_mem_zipIdx_iff_getElem?.mpr hy),
    fun j y hy => hmin.lt (y, j) (List.mk_mem_zipIdx_iff_getElem?.mpr hy)⟩

end Foundation
