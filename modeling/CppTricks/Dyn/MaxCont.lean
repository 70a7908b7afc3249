import CppTricks.Foundation.Arrays
import CppTricks.Foundation.Loops
import CppTricks.Foundation.MinElement
import CppTricks.Foundation.Segments
import Mathlib.Algebra.Order.Group.Int
import Mathlib.Algebra.Ring.Int.Defs
import Mathlib.Order.Bounds.Basic

/-! `TEST(Dyn, MaxCont)`: the greatest sum of a segment and a segment with that sum, with exact
integers. -/
namespace CppTricks.Dyn
open Foundation

def partialSum (v : List ℤ) : List ℤ := (v.scanl (· + ·) 0).tail

/-- `*min_element(s.begin(), s.begin() + r)`; of no elements the end is returned. -/
def minBefore (s : List ℤ) (r : ℕ) : Option ℤ :=
  match minElement (· < ·) (s.take r) with
  | some (_, i) => s[i]?
  | none => s[r]?

def solveStep (s d : List ℤ) (r : ℕ) : Option (List ℤ) := do
  let sr ← s[r]?
  let least ← minBefore s r
  let dr ← d[r]?
  assign d (r + 1) (max dr (sr - least))

def solve (v : List ℤ) : Option (List ℤ) := do
  let s := partialSum v
  let d := List.replicate (v.length + 1) 0
  let v0 ← v[0]?
  let d ← assign d 0 v0
  (List.range v.length).foldlM (solveStep s) d

def changeStep (d : List ℤ) (ansR r : ℕ) : Option ℕ := do
  let x ← d[r + 1]?
  let y ← d[r]?
  return if x ≠ y then r + 1 else ansR

/-- `ans_r`: the index of the last entry that differs from the one before. -/
def lastChange (d : List ℤ) : Option ℕ := (List.range (d.length - 1)).foldlM (changeStep d) 0

/-- The loop over `ans_l`, with `ans_l + 1` in its place; `none` is the access `v[-1]`. -/
def subtract (v : List ℤ) : ℕ → ℤ → Option ℕ
  | 0, _ => none
  | ansL + 1, value => do
    let x ← v[ansL]?
    let value := value - x
    if value = 0 then return ansL
    else subtract v ansL value

structure Answer where
  d : List ℤ
  ansL : ℕ
  ansR : ℕ
  deriving DecidableEq

/-- `none` is an access outside a vector. -/
def maxCont (v : List ℤ) : Option Answer := do
  let d ← solve v
  let value ← d.getLast?
  let ansR ← lastChange d
  let ansL ← subtract v ansR value
  return ⟨d, ansL, ansR⟩

/-- `x` is the sum of a segment that is not empty. -/
def IsSegmentSum (v : List ℤ) (x : ℤ) : Prop :=
  ∃ l r, l < r ∧ r ≤ v.length ∧ segmentSum v l r = x

/-- What entry `i` of the table is the greatest of: the first element, and for each `r` before `i`
the sums of what ends at `r` and starts after the first element (of nothing if `r` is 0). -/
def Tried (v : List ℤ) (i : ℕ) (x : ℤ) : Prop :=
  v[0]? = some x ∨ ∃ r < i, ∃ l, 1 ≤ l ∧ l ≤ max r 1 ∧ segmentSum v l (r + 1) = x

variable {v s d : List ℤ} {ansR i k l n r : ℕ} {m x value : ℤ}

theorem length_partialSum (v : List ℤ) : (partialSum v).length = v.length := by
  unfold partialSum
  rw [List.length_tail, List.length_scanl, Nat.add_sub_cancel]

theorem getElem?_partialSum (h : i < v.length) :
    (partialSum v)[i]? = some (v.take (i + 1)).sum := by
  unfold partialSum
  rw [List.getElem?_tail, List.getElem?_scanl, if_pos (Nat.succ_le_of_lt h), List.sum_eq_foldl]

/-- The least of the sums before `r`, or the first one. -/
theorem minBefore_spec (h : r < v.length) : ∃ l, 1 ≤ l ∧ l ≤ max r 1 ∧
    minBefore (partialSum v) r = some (v.take l).sum ∧
    ∀ j, 1 ≤ j → j ≤ max r 1 → (v.take l).sum ≤ (v.take j).sum := by
  have hlen := length_partialSum v
  cases r with
  | zero =>
    refine ⟨1, Nat.le_refl 1, Nat.le_refl 1, getElem?_partialSum h, ?_⟩
    intro j hlo hhi
    obtain rfl : j = 1 := Nat.le_antisymm hhi hlo
    exact le_rfl
  | succ r =>
    have hne : (partialSum v).take (r + 1) ≠ [] := by
      rw [← List.length_pos_iff, List.length_take]
      omega
    obtain ⟨x, i, hmin, hx, hle, -⟩ := minElement_spec id hne
    have hi : i < r + 1 := by
      have hlt := (List.getElem?_eq_some_iff.mp hx).1
      rw [List.length_take] at hlt
      omega
    rw [List.getElem?_take_of_lt hi, getElem?_partialSum (by omega)] at hx
    obtain rfl := Option.some.inj hx
    refine ⟨i + 1, by omega, by omega, ?_, ?_⟩
    · unfold minBefore
      simp only [id_eq] at hmin
      rw [hmin]
      exact getElem?_partialSum (by omega)
    · intro j hlo hhi
      refine hle (j - 1) (v.take j).sum ?_
      rw [List.getElem?_take_of_lt (by omega), getElem?_partialSum (by omega),
        Nat.sub_add_cancel hlo]

/-! ### The table -/

/-- The entries up to `n` are the greatest of what was tried. -/
structure Solved (v : List ℤ) (n : ℕ) (d : List ℤ) : Prop where
  length : d.length = v.length + 1
  entry : ∀ i ≤ n, ∃ m, d[i]? = some m ∧ IsGreatest {x | Tried v i x} m

theorem tried_zero_iff : Tried v 0 x ↔ v[0]? = some x := by
  constructor
  · intro h
    exact h.resolve_right fun hr => by
      obtain ⟨r, hr, -⟩ := hr
      exact Nat.not_lt_zero r hr
  · exact .inl

theorem tried_succ_iff : Tried v (i + 1) x ↔
    Tried v i x ∨ ∃ l, 1 ≤ l ∧ l ≤ max i 1 ∧ segmentSum v l (i + 1) = x := by
  unfold Tried
  constructor
  · intro h
    rcases h with h | ⟨r, hr, h⟩
    · exact .inl (.inl h)
    · cases Nat.lt_succ_iff_lt_or_eq.mp hr with
      | inl hlt => exact .inl (.inr ⟨r, hlt, h⟩)
      | inr heq => exact .inr (heq ▸ h)
  · intro h
    rcases h with (h | ⟨r, hr, h⟩) | h
    · exact .inl h
    · exact .inr ⟨r, Nat.lt_succ_of_lt hr, h⟩
    · exact .inr ⟨i, Nat.lt_succ_self i, h⟩

theorem Solved.solveStep (h : Solved v n d) (hn : n < v.length) :
    ∃ d', Dyn.solveStep (partialSum v) d n = some d' ∧ Solved v (n + 1) d' := by
  obtain ⟨m, hm, hgreatest⟩ := h.entry n le_rfl
  obtain ⟨l, hlo, hhi, hmin, hle⟩ := minBefore_spec hn
  have hlen : n + 1 < d.length := by
    rw [h.length]
    omega
  have hends : IsGreatest {x | ∃ l, 1 ≤ l ∧ l ≤ max n 1 ∧ segmentSum v l (n + 1) = x}
      ((v.take (n + 1)).sum - (v.take l).sum) := by
    refine ⟨⟨l, hlo, hhi, segmentSum_eq_sub v (by omega)⟩, ?_⟩
    intro x hx
    obtain ⟨j, hjlo, hjhi, rfl⟩ := hx
    rw [segmentSum_eq_sub v (by omega)]
    have hsum := hle j hjlo hjhi
    omega
  refine ⟨d.set (n + 1) (max m ((v.take (n + 1)).sum - (v.take l).sum)), ?_,
    by rw [List.length_set, h.length], ?_⟩
  · unfold Dyn.solveStep
    rw [getElem?_partialSum hn, hmin, hm]
    exact assign_eq hlen _
  · intro i hi
    cases Nat.le_succ_iff.mp hi with
    | inl hle =>
      rw [List.getElem?_set_ne (by omega)]
      exact h.entry i hle
    | inr heq =>
      subst heq
      refine ⟨_, List.getElem?_set_self hlen, ?_⟩
      simp only [tried_succ_iff]
      exact hgreatest.union hends

theorem solve_solved (hne : v ≠ []) : ∃ d, solve v = some d ∧ Solved v v.length d := by
  have hpos := List.length_pos_iff.mpr hne
  have hv0 : v[0]? = some v[0] := List.getElem?_eq_getElem hpos
  have hstart : Solved v 0 ((List.replicate (v.length + 1) 0).set 0 v[0]) := by
    refine ⟨by rw [List.length_set, List.length_replicate], ?_⟩
    intro i hi
    obtain rfl := Nat.le_zero.mp hi
    refine ⟨v[0], List.getElem?_set_self (by simp), ?_⟩
    simp only [tried_zero_iff, hv0]
    exact ⟨rfl, fun x hx => (Option.some.inj hx).ge⟩
  obtain ⟨d, hrun, hd⟩ := foldlM_prefix (P := fun t d => Solved v t.length d)
    (List.range v.length) (fun t r d ht hd => by
      obtain ⟨rfl, hlt⟩ := eq_length_of_prefix_range ht
      rw [List.length_append]
      exact hd.solveStep hlt) _ hstart
  rw [List.length_range] at hd
  refine ⟨d, ?_, hd⟩
  unfold solve
  dsimp only
  rw [hv0, Option.bind_eq_bind, Option.bind_some, assign_eq (by simp)]
  exact hrun

/-! ### The reconstruction -/

/-- Up to entry `n` the last change is at `ansR`. -/
structure LastChange (d : List ℤ) (n ansR : ℕ) : Prop where
  le : ansR ≤ n
  same : ∀ i, ansR ≤ i → i ≤ n → d[i]? = d[ansR]?
  change : 0 < ansR → d[ansR - 1]? ≠ d[ansR]?

theorem LastChange.changeStep (h : LastChange d n ansR) (hn : n + 1 < d.length) :
    ∃ ansR', Dyn.changeStep d ansR n = some ansR' ∧ LastChange d (n + 1) ansR' := by
  have hx : d[n + 1]? = some d[n + 1] := List.getElem?_eq_getElem hn
  have hy : d[n]? = some d[n] := List.getElem?_eq_getElem (by omega)
  unfold Dyn.changeStep
  rw [hx, hy]
  refine ⟨_, rfl, ?_⟩
  by_cases heq : d[n + 1] = d[n]
  · rw [if_neg (not_not.mpr heq)]
    refine ⟨Nat.le_succ_of_le h.le, ?_, h.change⟩
    intro i hi hin
    rcases Nat.le_succ_iff.mp hin with hin | hin
    · exact h.same i hi hin
    · rw [hin, hx, heq, ← hy, h.same n h.le le_rfl]
  · rw [if_pos heq]
    refine ⟨le_rfl, ?_, ?_⟩
    · intro i hi hin
      rw [Nat.le_antisymm hin hi]
    · intro _
      rw [Nat.add_sub_cancel, hx, hy]
      exact fun hsame => heq (Option.some.inj hsame).symm

theorem lastChange_spec (d : List ℤ) :
    ∃ ansR, lastChange d = some ansR ∧ LastChange d (d.length - 1) ansR := by
  have hstart : LastChange d 0 0 :=
    ⟨le_rfl, fun i _ hi => by rw [Nat.le_zero.mp hi], fun h => absurd h (lt_irrefl 0)⟩
  obtain ⟨ansR, hrun, hlast⟩ := foldlM_prefix (P := fun t ansR => LastChange d t.length ansR)
    (List.range (d.length - 1)) (fun t r ansR ht hP => by
      obtain ⟨rfl, hlt⟩ := eq_length_of_prefix_range ht
      rw [List.length_append]
      exact hP.changeStep (by omega)) 0 hstart
  rw [List.length_range] at hlast
  exact ⟨ansR, hrun, hlast⟩

/-- The subtraction ends where a segment has the value. -/
theorem subtract_spec (hk : k ≤ v.length) (value : ℤ) (h : ∃ l < k, segmentSum v l k = value) :
    ∃ l < k, subtract v k value = some l ∧ segmentSum v l k = value := by
  induction k generalizing value with
  | zero =>
    obtain ⟨l, hl, -⟩ := h
    exact absurd hl (Nat.not_lt_zero l)
  | succ k ih =>
    have hx : v[k]? = some v[k] := List.getElem?_eq_getElem hk
    have hlast : segmentSum v k (k + 1) = v[k] := segmentSum_succ hx
    unfold subtract
    rw [hx, Option.bind_eq_bind, Option.bind_some]
    dsimp only
    by_cases hzero : value - v[k] = 0
    · rw [if_pos hzero]
      exact ⟨k, Nat.lt_succ_self k, rfl, hlast.trans (sub_eq_zero.mp hzero).symm⟩
    · rw [if_neg hzero]
      obtain ⟨l, hl, rfl⟩ := h
      have hlt : l < k := by
        refine (Nat.lt_succ_iff_lt_or_eq.mp hl).resolve_right ?_
        rintro rfl
        exact hzero (sub_eq_zero.mpr hlast)
      have hsplit := segmentSum_add v (Nat.le_of_lt hlt) (Nat.le_succ k)
      obtain ⟨j, hj, hrun, hsum⟩ := ih (by omega) (segmentSum v l (k + 1) - v[k])
        ⟨l, hlt, by rw [← hsplit, hlast, add_sub_cancel_right]⟩
      refine ⟨j, Nat.lt_succ_of_lt hj, hrun, ?_⟩
      rw [← segmentSum_add v (Nat.le_of_lt hj) (Nat.le_succ k), hsum, hlast, sub_add_cancel]

/-! ### The answer -/

/-- `d.back()` is the greatest sum of a segment, and `ans_l` and `ans_r` bound one of that sum. -/
def Finds (v : List ℤ) : Prop :=
  ∃ a, maxCont v = some a ∧ ∃ m, a.d.getLast? = some m ∧ IsGreatest {x | IsSegmentSum v x} m ∧
    a.ansL < a.ansR ∧ a.ansR ≤ v.length ∧ segmentSum v a.ansL a.ansR = m

theorem Solved.getLast? (h : Solved v v.length d) : d.getLast? = d[v.length]? := by
  rw [List.getLast?_eq_getElem?, h.length, Nat.add_sub_cancel]

theorem Solved.le_of_le (h : Solved v v.length d) (hik : i ≤ k) (hk : k ≤ v.length)
    (hx : d[i]? = some x) (hm : d[k]? = some m) : x ≤ m := by
  obtain ⟨x', hx', hi⟩ := h.entry i (hik.trans hk)
  obtain ⟨m', hm', hgreatest⟩ := h.entry k hk
  obtain rfl := Option.some.inj (hx.symm.trans hx')
  obtain rfl := Option.some.inj (hm.symm.trans hm')
  apply hgreatest.2
  rcases hi.1 with h0 | ⟨r, hr, hl⟩
  · exact .inl h0
  · exact .inr ⟨r, by omega, hl⟩

/-- A positive sum that was tried is the first element or belongs to a segment further on. -/
theorem Tried.segment (h : Tried v i x) (hx : 0 < x) : v[0]? = some x ∨
    ∃ l r, 1 ≤ l ∧ l < r ∧ r ≤ i ∧ segmentSum v l r = x := by
  rcases h with h | ⟨r, hr, l, hlo, hhi, hsum⟩
  · exact .inl h
  · refine .inr ⟨l, r + 1, hlo, ?_, hr, hsum⟩
    have hne : l ≠ r + 1 := by
      rintro rfl
      rw [segmentSum_self] at hsum
      omega
    omega

theorem tried_of_segment (hl : 1 ≤ l) (hr : l < r) (hi : r ≤ i) : Tried v i (segmentSum v l r) :=
  .inr ⟨r - 1, by omega, l, hl, by omega, by rw [Nat.sub_add_cancel (by omega)]⟩

theorem maxCont_eq_some_iff {a : Answer} : maxCont v = some a ↔ solve v = some a.d ∧
    ∃ value, a.d.getLast? = some value ∧ lastChange a.d = some a.ansR ∧
      subtract v a.ansR value = some a.ansL := by
  unfold maxCont
  simp only [Option.bind_eq_bind, Option.bind_eq_some_iff]
  constructor
  · intro h
    obtain ⟨d, hd, value, hvalue, ansR, hR, ansL, hL, heq⟩ := h
    obtain rfl := Option.some.inj heq
    exact ⟨hd, value, hvalue, hR, hL⟩
  · intro h
    obtain ⟨hd, value, hvalue, hR, hL⟩ := h
    exact ⟨_, hd, value, hvalue, _, hR, _, hL, rfl⟩

theorem isSegmentSum_of_getElem? (h : v[i]? = some x) : IsSegmentSum v x :=
  ⟨i, i + 1, Nat.lt_succ_self i, (List.getElem?_eq_some_iff.mp h).1, segmentSum_succ h⟩

theorem Solved.first (h : Solved v n d) : d[0]? = v[0]? := by
  obtain ⟨m, hm, hgreatest⟩ := h.entry 0 (Nat.zero_le n)
  rw [hm, tried_zero_iff.mp hgreatest.1]

/-- Where the table changes last, a segment with the last entry as its sum ends. -/
theorem Solved.segment_of_change (h : Solved v v.length d) (hlast : LastChange d v.length ansR)
    (hm : d[v.length]? = some m) (hpos : 0 < m) (hfirst : v[0]? ≠ some m) :
    ∃ l < ansR, segmentSum v l ansR = m := by
  have hle := hlast.le
  have hsame := hlast.same v.length hle le_rfl
  rw [hm] at hsame
  have hRpos : 0 < ansR := by
    rw [Nat.pos_iff_ne_zero]
    rintro rfl
    rw [h.first] at hsame
    exact hfirst hsame.symm
  -- before the last change this sum was not reached
  obtain ⟨y, hy, hbefore⟩ := h.entry (ansR - 1) (by omega)
  obtain ⟨m', hm', hreached⟩ := h.entry ansR hle
  obtain rfl := Option.some.inj (hsame.trans hm')
  rcases Tried.segment hreached.1 hpos with h0 | ⟨l, r, hl, hlr, hr, hsum⟩
  · exact absurd h0 hfirst
  · rcases Nat.lt_or_eq_of_le hr with hlt | heq
    · have hsmall := hbefore.2 (tried_of_segment hl hlr (Nat.le_sub_one_of_lt hlt))
      rw [hsum] at hsmall
      have hgreat := h.le_of_le (Nat.sub_le ansR 1) hle hy hm'
      have hchange := hlast.change hRpos
      rw [hy, hm', le_antisymm hgreat hsmall] at hchange
      exact absurd rfl hchange
    · exact ⟨l, heq ▸ hlr, heq ▸ hsum⟩

theorem Solved.lastChange (h : Solved v v.length d) :
    ∃ ansR, Dyn.lastChange d = some ansR ∧ LastChange d v.length ansR := by
  obtain ⟨ansR, hrun, hlast⟩ := lastChange_spec d
  rw [h.length, Nat.add_sub_cancel] at hlast
  exact ⟨ansR, hrun, hlast⟩

/-- A greatest sum that is not the first element, but that of a segment further on, is found, and a
segment with it. -/
theorem Solved.finds (hd : solve v = some d) (h : Solved v v.length d) (hl : 1 ≤ l) (hlr : l < r)
    (hr : r ≤ v.length) (hmax : ∀ x, IsSegmentSum v x → x ≤ segmentSum v l r)
    (hpos : 0 < segmentSum v l r) (hfirst : v[0]? ≠ some (segmentSum v l r)) : Finds v := by
  obtain ⟨m, hm, hgreatest⟩ := h.entry v.length le_rfl
  have hle : m ≤ segmentSum v l r := by
    have hge := hgreatest.2 (tried_of_segment hl hlr hr)
    rcases Tried.segment hgreatest.1 (by omega) with h0 | ⟨l', r', -, hlt, hle, hsum⟩
    · exact hmax m (isSegmentSum_of_getElem? h0)
    · exact hmax m ⟨l', r', hlt, hle, hsum⟩
  obtain rfl := le_antisymm hle (hgreatest.2 (tried_of_segment hl hlr hr))
  obtain ⟨ansR, hansR, hlast⟩ := h.lastChange
  have hsegment := h.segment_of_change hlast hm hpos hfirst
  obtain ⟨ansL, hlt, hsub, hanswer⟩ := subtract_spec hlast.le _ hsegment
  refine ⟨⟨d, ansL, ansR⟩, ?_, _, h.getLast?.trans hm, ⟨⟨l, r, hlr, hr, rfl⟩, hmax⟩, hlt,
    hlast.le, hanswer⟩
  rw [maxCont_eq_some_iff]
  exact ⟨hd, _, h.getLast?.trans hm, hansR, hsub⟩

/-- Where the first element is the greatest sum the table never changes, and `v[-1]` is read. -/
theorem Finds.first_ne (h : Finds v) (hx : IsGreatest {x | IsSegmentSum v x} x) :
    v[0]? ≠ some x := by
  intro hfirst
  obtain ⟨a, ha, m, hm, hgreatest, hlt, -⟩ := h
  obtain rfl := hx.unique hgreatest
  obtain ⟨hd, value, hvalue, hR, -⟩ := maxCont_eq_some_iff.mp ha
  obtain ⟨d, hd', hsolved⟩ := solve_solved (List.ne_nil_of_mem (List.mem_of_getElem? hfirst))
  obtain rfl := Option.some.inj (hd.symm.trans hd')
  obtain ⟨ansR, hR', hlast⟩ := hsolved.lastChange
  obtain rfl := Option.some.inj (hR.symm.trans hR')
  have hle := hlast.le
  have hall : ∀ i ≤ v.length, a.d[i]? = some x := by
    intro i hi
    obtain ⟨y, hy, -⟩ := hsolved.entry i hi
    rw [hsolved.getLast?] at hm
    have hge := hsolved.le_of_le (Nat.zero_le i) hi (hsolved.first.trans hfirst) hy
    have hle := hsolved.le_of_le hi le_rfl hy hm
    rw [hy, le_antisymm hle hge]
  apply hlast.change (Nat.zero_lt_of_lt hlt)
  rw [hall _ (by omega), hall _ hle]

/-- Sum and segment are right exactly when some segment of the greatest sum starts after the first
element, and the first element alone has not that sum. -/
theorem maxCont_finds_iff (v : List ℤ) (hpos : ∃ x ∈ v, 0 < x) : Finds v ↔
    ∃ l r, 1 ≤ l ∧ l < r ∧ r ≤ v.length ∧ (∀ x, IsSegmentSum v x → x ≤ segmentSum v l r) ∧
      v[0]? ≠ some (segmentSum v l r) := by
  obtain ⟨y, hy, hypos⟩ := hpos
  obtain ⟨i, hi⟩ := List.mem_iff_getElem?.mp hy
  have hysum := isSegmentSum_of_getElem? hi
  obtain ⟨d, hd, hsolved⟩ := solve_solved (List.ne_nil_of_mem hy)
  constructor
  · intro hfinds
    obtain ⟨a, ha, m, hm, hgreatest, -⟩ := id hfinds
    have hfirst := hfinds.first_ne hgreatest
    obtain ⟨hd', -⟩ := maxCont_eq_some_iff.mp ha
    obtain rfl := Option.some.inj (hd.symm.trans hd')
    obtain ⟨m', hm', htried⟩ := hsolved.entry v.length le_rfl
    rw [hsolved.getLast?] at hm
    obtain rfl := Option.some.inj (hm.symm.trans hm')
    have hmpos : 0 < m := lt_of_lt_of_le hypos (hgreatest.2 hysum)
    rcases Tried.segment htried.1 hmpos with h0 | ⟨l, r, hl, hlr, hr, rfl⟩
    · exact absurd h0 hfirst
    · exact ⟨l, r, hl, hlr, hr, fun x hx => hgreatest.2 hx, hfirst⟩
  · intro h
    obtain ⟨l, r, hl, hlr, hr, hmax, hfirst⟩ := h
    exact hsolved.finds hd hl hlr hr hmax (lt_of_lt_of_le hypos (hmax y hysum)) hfirst

example : maxCont [5, 15, -30, 10, -5, 40, 10, -10, -11] =
    some ⟨[5, 5, 15, 15, 15, 15, 45, 55, 55, 55], 3, 7⟩ := by decide

theorem maxCont_finds_iff_nine : Finds [5, 15, -30, 10, -5, 40, 10, -10, -11] ↔
    ∃ l r, 1 ≤ l ∧ l < r ∧ r ≤ 9 ∧
      (∀ x, IsSegmentSum [5, 15, -30, 10, -5, 40, 10, -10, -11] x →
        x ≤ segmentSum [5, 15, -30, 10, -5, 40, 10, -10, -11] l r) ∧
      ([5, 15, -30, 10, -5, 40, 10, -10, -11] : List ℤ)[0]? ≠
        some (segmentSum [5, 15, -30, 10, -5, 40, 10, -10, -11] l r) :=
  maxCont_finds_iff [5, 15, -30, 10, -5, 40, 10, -10, -11] (by decide)

/-- Both elements together have the greatest sum, but the segments that start with the first one are
left out. -/
theorem maxCont_one_two : maxCont [1, 2] = some ⟨[1, 1, 2], 1, 2⟩ ∧ ¬Finds [1, 2] := by
  refine ⟨by decide, ?_⟩
  intro h
  obtain ⟨a, ha, m, hm, hgreatest, -⟩ := h
  obtain rfl := Option.some.inj (ha.symm.trans (by decide : _ = some ⟨[1, 1, 2], 1, 2⟩))
  obtain rfl := Option.some.inj hm
  exact absurd (hgreatest.2 ⟨0, 2, by decide, by decide, rfl⟩) (by decide)

end CppTricks.Dyn
