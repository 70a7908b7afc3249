import CppTricks.Foundation.Arrays
import CppTricks.Foundation.Growing
import CppTricks.Foundation.Loops

/-! `TEST(Dyn, MaxGrow)`: the longest increasing subsequences, by their ends. -/
namespace CppTricks.Dyn
open Foundation

variable {α : Type} [LinearOrder α]

/-- The body of the inner loop. `none` is an access outside `v` or `d`. -/
def growStep (v : List α) (i : ℕ) (d : List ℕ) (j : ℕ) : Option (List ℕ) := do
  let vj ← v[j]?
  let vi ← v[i]?
  if vj < vi then
    let di ← d[i]?
    let dj ← d[j]?
    assign d i (max di (1 + dj))
  else return d

def growRow (v : List α) (d : List ℕ) (i : ℕ) : Option (List ℕ) := do
  let d ← assign d i 1
  (List.range i).foldlM (growStep v i) d

def maxGrow (v : List α) : Option (List ℕ) :=
  (List.range v.length).foldlM (growRow v) (List.replicate v.length 0)

variable {v : List α} {d : List ℕ} {i j k n : ℕ} {x : α}

/-- The entries before `n` are right. -/
structure Grown (v : List α) (n : ℕ) (d : List ℕ) : Prop where
  length : d.length = v.length
  entry : ∀ i < n, ∀ x, v[i]? = some x → ∃ k, d[i]? = some k ∧ Longest (v.take i) x k

/-- While entry `i` is computed it is right for the elements before `j` only. -/
structure Growing (v : List α) (i j : ℕ) (x : α) (d : List ℕ) : Prop extends Grown v i d where
  last : ∃ k, d[i]? = some k ∧ Longest (v.take j) x k

theorem Grown.set (h : Grown v i d) (k : ℕ) : Grown v i (d.set i k) := by
  refine ⟨by rw [List.length_set, h.length], ?_⟩
  intro j hj y hy
  rw [List.getElem?_set_ne (by omega)]
  exact h.entry j hj y hy

theorem Growing.growStep (h : Growing v i j x d) (hx : v[i]? = some x) (hj : j < i) :
    ∃ d', Dyn.growStep v i d j = some d' ∧ Growing v i (j + 1) x d' := by
  have hi : i < v.length := (List.getElem?_eq_some_iff.mp hx).1
  have hy : v[j]? = some v[j] := List.getElem?_eq_getElem (by omega)
  have htake : v.take (j + 1) = v.take j ++ [v[j]] := List.take_succ_eq_append_getElem (by omega)
  obtain ⟨k, hk, hlongest⟩ := h.last
  obtain ⟨m, hm, hprev⟩ := h.entry j hj _ hy
  have hlen : i < d.length := h.length ▸ hi
  unfold Dyn.growStep
  rw [hy, hx, Option.bind_eq_bind, Option.bind_some, Option.bind_eq_bind, Option.bind_some]
  by_cases hlt : v[j] < x
  · refine ⟨d.set i (max k (1 + m)), ?_, h.toGrown.set _, max k (1 + m), ?_, ?_⟩
    · rw [if_pos hlt, hk, hm]
      exact assign_eq hlen _
    · exact List.getElem?_set_self hlen
    · exact htake ▸ hlongest.concat_of_lt hprev hlt
  · refine ⟨d, if_neg hlt, h.toGrown, k, hk, ?_⟩
    exact htake ▸ hlongest.concat_of_not_lt hlt

theorem Growing.grown (h : Growing v i i x d) (hx : v[i]? = some x) : Grown v (i + 1) d := by
  refine ⟨h.length, ?_⟩
  intro j hj y hy
  cases Nat.lt_succ_iff_lt_or_eq.mp hj with
  | inl hlt => exact h.entry j hlt y hy
  | inr heq =>
    subst heq
    obtain rfl := Option.some.inj (hx.symm.trans hy)
    exact h.last

theorem Grown.growRow (h : Grown v i d) (hi : i < v.length) :
    ∃ d', Dyn.growRow v d i = some d' ∧ Grown v (i + 1) d' := by
  have hx : v[i]? = some v[i] := List.getElem?_eq_getElem hi
  have hlen : i < d.length := h.length ▸ hi
  have hstart : Growing v i 0 v[i] (d.set i 1) :=
    ⟨h.set 1, 1, List.getElem?_set_self hlen, longest_nil _⟩
  obtain ⟨d', hrun, hd'⟩ := foldlM_prefix (P := fun t d => Growing v i t.length v[i] d)
    (List.range i) (fun t j d ht hd => by
      obtain ⟨rfl, hlt⟩ := eq_length_of_prefix_range ht
      rw [List.length_append]
      exact hd.growStep hx hlt) (d.set i 1) hstart
  rw [List.length_range] at hd'
  refine ⟨d', ?_, hd'.grown hx⟩
  unfold Dyn.growRow
  rw [assign_eq hlen, Option.bind_eq_bind, Option.bind_some, hrun]

example : maxGrow [5, 2, 8, 6, 3, 6, 9, 7] = some [1, 1, 2, 2, 2, 3, 4, 4] := by decide

end CppTricks.Dyn
