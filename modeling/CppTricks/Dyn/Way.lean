import CppTricks.Foundation.Arrays
import CppTricks.Foundation.Loops
import Mathlib.Tactic.Linarith

/-! `TEST(Dyn, Way)`: days of travel between stops, each best at a distance of 200, with exact
integers. -/
namespace CppTricks.Dyn
open Foundation

/-- The body of the loop, on `x` and `cost`. `none` is an access outside a vector. -/
def wayStep (v : List ℤ) (st : List ℤ × List ℤ) (i : ℕ) : Option (List ℤ × List ℤ) := do
  let (x, cost) := st
  let xPrev ← x[i - 1]?
  let vi ← v[i]?
  let tmpNi := 200 - (xPrev + vi)
  let tmpI := 200 - vi
  let deltaNi := tmpNi * tmpNi
  let deltaI := tmpI * tmpI
  let costPrev ← cost[i - 1]?
  let costI := min (costPrev + deltaI) (costPrev + deltaNi)
  let cost ← assign cost i costI
  let x ← assign x i (if costI = costPrev + deltaI then vi else xPrev + vi)
  return (x, cost)

def way (v : List ℤ) : Option (List ℤ × List ℤ) :=
  (List.range' 1 (v.length - 1)).foldlM (wayStep v)
    (List.replicate v.length 0, List.replicate v.length 0)

/-- What the choices along the distances may come to, from `p` on: each step starts afresh or goes
on. -/
inductive Plan : ℤ → List ℤ → List ℤ → Prop
  | nil (p : ℤ) : Plan p [] []
  | afresh {p v : ℤ} {vs xs : List ℤ} (h : Plan v vs xs) : Plan p (v :: vs) (v :: xs)
  | goOn {p v : ℤ} {vs xs : List ℤ} (h : Plan (p + v) vs xs) : Plan p (v :: vs) ((p + v) :: xs)

def fee (xs : List ℤ) : ℤ := (xs.map fun x => (200 - x) ^ 2).sum

def cheaper (p v : ℤ) : ℤ := if (200 - v) ^ 2 ≤ (200 - (p + v)) ^ 2 then v else p + v

def greedy : ℤ → List ℤ → List ℤ
  | _, [] => []
  | p, v :: vs => cheaper p v :: greedy (cheaper p v) vs

/-- Going on from `p` is no loss against starting afresh and being at `s` now: until the latter had
better start afresh again, it is not nearer to 200. -/
def NoLoss (p : ℤ) : ℤ → List ℤ → Prop
  | s, [] => p + 2 * s ≤ 400
  | s, v :: vs => p + 2 * s ≤ 400 ∧ (400 ≤ s + 2 * v ∨ NoLoss p (s + v) vs)

/-- Wherever the cheaper choice is to go on, it is no loss. -/
def Steady : ℤ → List ℤ → Prop
  | _, [] => True
  | p, v :: vs =>
    ((200 - (p + v)) ^ 2 < (200 - v) ^ 2 → NoLoss p v vs) ∧ Steady (cheaper p v) vs

variable {v vs x xs ys cost : List ℤ} {a b p q s u y : ℤ} {i k : ℕ}

/-! ### Plans -/

theorem sq_le_sq_of_ahead (hle : a ≤ b) (hsum : 400 ≤ a + b) : (200 - a) ^ 2 ≤ (200 - b) ^ 2 := by
  nlinarith

theorem sq_le_sq_of_behind (hle : a ≤ b) (hsum : a + b ≤ 400) : (200 - b) ^ 2 ≤ (200 - a) ^ 2 := by
  nlinarith

theorem fee_cons (y : ℤ) (xs : List ℤ) : fee (y :: xs) = (200 - y) ^ 2 + fee xs := by
  unfold fee
  rw [List.map_cons, List.sum_cons]

theorem greedy_plan (p : ℤ) (vs : List ℤ) : Plan p vs (greedy p vs) := by
  induction vs generalizing p with
  | nil => exact .nil p
  | cons v vs ih =>
    unfold greedy
    have hrest := ih (cheaper p v)
    unfold cheaper at hrest ⊢
    split
    case isTrue h =>
      rw [if_pos h] at hrest
      exact .afresh hrest
    case isFalse h =>
      rw [if_neg h] at hrest
      exact .goOn hrest

/-- From a position as far behind 200 as another one is beyond it, or nearer, every plan costs no
more. -/
theorem Plan.ahead (h : Plan b vs ys) (hle : a ≤ b) (hsum : 400 ≤ a + b) (hvs : ∀ u ∈ vs, 0 ≤ u) :
    ∃ xs, Plan a vs xs ∧ fee xs ≤ fee ys := by
  induction h generalizing a with
  | nil => exact ⟨[], .nil a, le_rfl⟩
  | afresh h => exact ⟨_, .afresh h, le_rfl⟩
  | @goOn b v vs ys h ih =>
    rw [List.forall_mem_cons] at hvs
    obtain ⟨xs, hxs, hfee⟩ := ih (a := a + v) (by omega) (by omega) hvs.2
    refine ⟨_, .goOn hxs, ?_⟩
    rw [fee_cons, fee_cons]
    have hsq := sq_le_sq_of_ahead (a := a + v) (b := b + v) (by omega) (by omega)
    omega

/-- A plan that started afresh is no cheaper than some plan that went on. -/
theorem NoLoss.plan (h : NoLoss p s vs) (hp : 0 ≤ p) (hs : 0 ≤ s) (hvs : ∀ u ∈ vs, 0 ≤ u)
    (hys : Plan s vs ys) : ∃ xs, Plan (p + s) vs xs ∧ fee xs ≤ fee ys := by
  induction hys with
  | nil => exact ⟨[], .nil _, le_rfl⟩
  | afresh hys => exact ⟨_, .afresh hys, le_rfl⟩
  | @goOn s v vs ys hys ih =>
    rw [List.forall_mem_cons] at hvs
    rcases h.2 with hafresh | hrest
    · -- it had better start afresh here as well
      obtain ⟨xs, hxs, hfee⟩ := hys.ahead (a := v) (by omega) (by omega) hvs.2
      refine ⟨_, .afresh hxs, ?_⟩
      rw [fee_cons, fee_cons]
      have hsq := sq_le_sq_of_ahead (a := v) (b := s + v) (by omega) (by omega)
      omega
    · obtain ⟨xs, hxs, hfee⟩ := ih hrest (by omega) hvs.2
      refine ⟨_, .goOn (add_assoc p s v ▸ hxs), ?_⟩
      rw [fee_cons, fee_cons]
      have hnow : p + 2 * (s + v) ≤ 400 := by
        cases vs with
        | nil => exact hrest
        | cons u vs => exact hrest.1
      have hsq := sq_le_sq_of_behind (a := s + v) (b := p + s + v) (by omega) (by omega)
      omega

/-- Where it is steady the greedy plan is as cheap as any. -/
theorem Steady.fee_le (h : Steady p vs) (hp : 0 ≤ p) (hvs : ∀ u ∈ vs, 0 ≤ u) (hxs : Plan p vs xs) :
    fee (greedy p vs) ≤ fee xs := by
  induction vs generalizing p xs with
  | nil =>
    cases hxs
    exact le_rfl
  | cons v vs ih =>
    rw [List.forall_mem_cons] at hvs
    obtain ⟨hloss, hrest⟩ := h
    unfold greedy
    unfold cheaper at hrest ⊢
    rw [fee_cons]
    by_cases hle : (200 - v) ^ 2 ≤ (200 - (p + v)) ^ 2
    · rw [if_pos hle] at hrest ⊢
      cases hxs with
      | afresh hxs =>
        rw [fee_cons]
        exact add_le_add_right (ih hrest hvs.1 hvs.2 hxs) _
      | goOn hxs =>
        have hahead : p = 0 ∨ 400 ≤ v + (p + v) := by
          rcases hp.eq_or_lt with h0 | hpos
          · exact .inl h0.symm
          · right
            by_contra hlt
            nlinarith
        obtain ⟨xs', hxs', hfee⟩ : ∃ xs', Plan v vs xs' ∧ fee xs' ≤ fee _ := by
          rcases hahead with h0 | hsum
          · rw [h0, zero_add] at hxs
            exact ⟨_, hxs, le_rfl⟩
          · exact hxs.ahead (by omega) hsum hvs.2
        rw [fee_cons]
        exact add_le_add hle ((ih hrest hvs.1 hvs.2 hxs').trans hfee)
    · rw [if_neg hle] at hrest ⊢
      cases hxs with
      | afresh hxs =>
        obtain ⟨xs', hxs', hfee⟩ := (hloss (not_le.mp hle)).plan hp hvs.1 hvs.2 hxs
        rw [fee_cons]
        exact add_le_add (not_le.mp hle).le ((ih hrest (by omega) hvs.2 hxs').trans hfee)
      | goOn hxs =>
        rw [fee_cons]
        exact add_le_add_right (ih hrest (by omega) hvs.2 hxs) _

/-! ### The loop -/

theorem fee_concat (xs : List ℤ) (y : ℤ) : fee (xs ++ [y]) = fee xs + (200 - y) ^ 2 := by
  unfold fee
  rw [List.map_append, List.sum_append, List.map_singleton, List.sum_singleton]

/-- The loop keeps the smaller of the two costs, and the position that it comes from. -/
theorem min_eq_cheaper (c p v : ℤ) :
    min (c + (200 - v) * (200 - v)) (c + (200 - (p + v)) * (200 - (p + v))) =
      c + (200 - cheaper p v) ^ 2 := by
  unfold cheaper
  rw [min_add_add_left, ← sq, ← sq]
  split
  case isTrue h => rw [min_eq_left h]
  case isFalse h => rw [min_eq_right (not_le.mp h).le]

theorem cheaper_eq (c p v : ℤ) :
    (if c + (200 - cheaper p v) ^ 2 = c + (200 - v) * (200 - v) then v else p + v) =
      cheaper p v := by
  unfold cheaper
  by_cases h : (200 - v) ^ 2 ≤ (200 - (p + v)) ^ 2
  · rw [if_pos h, if_pos (by rw [sq])]
  · rw [if_neg h, if_neg]
    intro heq
    exact h (by rw [add_left_cancel heq, sq])

theorem greedy_length (p : ℤ) (vs : List ℤ) : (greedy p vs).length = vs.length := by
  induction vs generalizing p with
  | nil => rfl
  | cons v vs ih =>
    unfold greedy
    rw [List.length_cons, List.length_cons, ih]

theorem greedy_getElem? (hq : (p :: greedy p vs)[k]? = some q) (hu : vs[k]? = some u) :
    (greedy p vs)[k]? = some (cheaper q u) := by
  induction k generalizing p vs with
  | zero =>
    obtain rfl := Option.some.inj hq
    cases vs with
    | nil => cases hu
    | cons v vs =>
      obtain rfl := Option.some.inj hu
      rfl
  | succ k ih =>
    cases vs with
    | nil => cases hu
    | cons v vs => exact ih hq hu

/-- After `k` rounds. -/
structure Chosen (vs : List ℤ) (k : ℕ) (st : List ℤ × List ℤ) : Prop where
  x_length : st.1.length = vs.length + 1
  cost_length : st.2.length = vs.length + 1
  x_entry : ∀ i ≤ k, st.1[i]? = (0 :: greedy 0 vs)[i]?
  cost_last : st.2[k]? = some (fee ((greedy 0 vs).take k))

theorem chosen_zero (vs : List ℤ) :
    Chosen vs 0 (List.replicate (vs.length + 1) 0, List.replicate (vs.length + 1) 0) := by
  refine ⟨List.length_replicate, List.length_replicate, ?_, rfl⟩
  intro i hi
  rw [Nat.le_zero.mp hi]
  rfl

theorem Chosen.wayStep {st : List ℤ × List ℤ} (h : Chosen vs k st) (hk : k < vs.length) (a : ℤ) :
    ∃ st', Dyn.wayStep (a :: vs) st (1 + k) = some st' ∧ Chosen vs (k + 1) st' := by
  obtain ⟨x, cost⟩ := st
  have hx : k + 1 < x.length := by rw [h.x_length]; omega
  have hcost : k + 1 < cost.length := by rw [h.cost_length]; omega
  have hlen : k < (0 :: greedy 0 vs).length := by rw [List.length_cons, greedy_length]; omega
  obtain ⟨q, hq⟩ : ∃ q, (0 :: greedy 0 vs)[k]? = some q := ⟨_, List.getElem?_eq_getElem hlen⟩
  obtain ⟨u, hu⟩ : ∃ u, vs[k]? = some u := ⟨_, List.getElem?_eq_getElem hk⟩
  have hnext := greedy_getElem? hq hu
  have htake : (greedy 0 vs).take (k + 1) = (greedy 0 vs).take k ++ [cheaper q u] := by
    rw [List.take_add_one, hnext, Option.toList_some]
  have hxk : x[k]? = some q := (h.x_entry k le_rfl).trans hq
  have hck : cost[k]? = some (fee ((greedy 0 vs).take k)) := h.cost_last
  have hrun : Dyn.wayStep (a :: vs) (x, cost) (1 + k) = some (x.set (k + 1) (cheaper q u),
      cost.set (k + 1) (fee ((greedy 0 vs).take k) + (200 - cheaper q u) ^ 2)) := by
    unfold Dyn.wayStep
    simp only [add_comm 1 k, Nat.add_sub_cancel, List.getElem?_cons_succ, hxk, hu, hck,
      min_eq_cheaper, cheaper_eq, assign_eq hx, assign_eq hcost, Option.bind_eq_bind,
      Option.bind_some, Option.pure_def]
  refine ⟨_, hrun, ?_⟩
  constructor
  · rw [List.length_set]
    exact h.x_length
  · rw [List.length_set]
    exact h.cost_length
  · intro i hi
    rcases Nat.le_succ_iff.mp hi with hle | heq
    · rw [List.getElem?_set_ne (by omega)]
      exact h.x_entry i hle
    · subst heq
      rw [List.getElem?_set_self hx, List.getElem?_cons_succ, hnext]
  · rw [List.getElem?_set_self hcost, htake, fee_concat]

theorem way_chosen (a : ℤ) (vs : List ℤ) :
    ∃ st, way (a :: vs) = some st ∧ Chosen vs vs.length st := by
  unfold way
  rw [List.length_cons, Nat.add_sub_cancel]
  obtain ⟨st, hrun, hst⟩ := foldlM_prefix (P := fun t st => Chosen vs t.length st)
    (List.range' 1 vs.length) (fun t i st ht hst => by
      obtain ⟨rfl, hlt⟩ := eq_add_length_of_prefix_range' ht
      rw [List.length_append]
      exact hst.wayStep hlt a) _ (chosen_zero vs)
  rw [List.length_range'] at hst
  exact ⟨st, hrun, hst⟩

/-- The last cost is that of the plan that takes the cheaper choice at every step, which is the
least one where going on is no loss. -/
theorem way_greedy (vs : List ℤ) (hvs : ∀ u ∈ vs, 0 ≤ u) :
    ∃ x cost, way (0 :: vs) = some (x, cost) ∧ x = 0 :: greedy 0 vs ∧
      cost.getLast? = some (fee (greedy 0 vs)) ∧ Plan 0 vs (greedy 0 vs) ∧
      (Steady 0 vs → IsLeast {c | ∃ xs, Plan 0 vs xs ∧ fee xs = c} (fee (greedy 0 vs))) := by
  obtain ⟨⟨x, cost⟩, hrun, hchosen⟩ := way_chosen 0 vs
  have hx : x.length = vs.length + 1 := hchosen.x_length
  have hcost : cost.length = vs.length + 1 := hchosen.cost_length
  refine ⟨x, cost, hrun, ?_, ?_, greedy_plan 0 vs, ?_⟩
  · apply List.ext_getElem?
    intro i
    by_cases hi : i ≤ vs.length
    · exact hchosen.x_entry i hi
    · rw [List.getElem?_eq_none (by omega),
        List.getElem?_eq_none (by rw [List.length_cons, greedy_length]; omega)]
  · rw [List.getLast?_eq_getElem?, hcost, Nat.add_sub_cancel]
    refine hchosen.cost_last.trans ?_
    rw [List.take_of_length_le (greedy_length 0 vs).le]
  · intro hsteady
    refine ⟨⟨_, greedy_plan 0 vs, rfl⟩, ?_⟩
    rintro c ⟨xs, hxs, rfl⟩
    exact hsteady.fee_le le_rfl hvs hxs

theorem way_greedy_ten : ∃ x cost, way [0, 5, 5, 5, 5, 50, 50, 50, 200, 300] = some (x, cost) ∧
    x = [0, 5, 10, 15, 20, 70, 120, 170, 200, 300] ∧ cost.getLast? = some 174950 ∧
    IsLeast {c | ∃ xs, Plan 0 [5, 5, 5, 5, 50, 50, 50, 200, 300] xs ∧ fee xs = c} 174950 := by
  obtain ⟨x, cost, hrun, hx, hlast, -, hleast⟩ :=
    way_greedy [5, 5, 5, 5, 50, 50, 50, 200, 300] (by decide)
  exact ⟨x, cost, hrun, hx, hlast, hleast (by simp [Steady, NoLoss, cheaper])⟩

/-- Starting afresh at 150 is dearer there, and cheaper in all. -/
theorem way_not_least : way [0, 50, 150, 100] = some ([0, 50, 200, 100], [0, 22500, 22500, 32500]) ∧
    ¬IsLeast {c | ∃ xs, Plan 0 [50, 150, 100] xs ∧ fee xs = c} 32500 := by
  refine ⟨by decide, ?_⟩
  intro h
  have hplan : Plan 0 [50, 150, 100] [50, 150, 250] := .afresh (.afresh (.goOn (.nil _)))
  exact absurd (h.2 ⟨_, hplan, rfl⟩) (by decide)

end CppTricks.Dyn
