import CppTricks.Foundation.Loops
import CppTricks.Foundation.Merging
import Mathlib.Algebra.Group.Nat.Defs
import Mathlib.Data.Int.Order.Basic

/-! The merge sort from runs of one element upwards; no result stands for an index error, or for a
loop or recursion that was cut off. -/
namespace CppTricks.Sort.MergeSort
open Foundation

variable {α : Type} [LinearOrder α]

/-- The body of the loop of `_one_recursive_step`: `i`, `j` and `c_list`. -/
def stepBody (aList bList : List α) (sizeTask : ℕ) (st : ℕ × ℕ × List α) (_k : ℕ) :
    Option (ℕ × ℕ × List α) :=
  let (i, j, cList) := st
  if (i : ℤ) > sizeTask - 1 then do
    let b ← bList[j]?
    return (i, j, cList ++ [b])
  else if (j : ℤ) > sizeTask - 1 then do
    let a ← aList[i]?
    return (i, j, cList ++ [a])
  else do
    let a ← aList[i]?
    let b ← bList[j]?
    if a < b then return (i + 1, j, cList ++ [a])
    else return (i, j + 1, cList ++ [b])

/-- `_one_recursive_step(list_pair, size_task, current_doubled_size_task)` -/
def oneRecursiveStep (listPair : List α) (sizeTask currentDoubledSizeTask : ℕ) :
    Option (List α) := do
  let aList := listPair.take sizeTask
  let bList := listPair.drop sizeTask
  let (_, _, cList) ← (List.range currentDoubledSizeTask).foldlM (stepBody aList bList sizeTask)
    (0, 0, [])
  return cList

/-- `in_list[ptr + i] = list_pair[i]` -/
def pourBody (listPair : List α) (ptr : ℕ) (inList : List α) (i : ℕ) : Option (List α) := do
  let x ← listPair[i]?
  if ptr + i < inList.length then return inList.set (ptr + i) x
  none

/-- The loop over the pairs of runs. -/
def mergePairs (sizeTask sizeInList : ℕ) : ℕ → ℕ → List α → Option (List α)
  | 0, _, _ => none
  | fuel + 1, ptr, inList => do
    let currentDoubledSizeTask := sizeTask * 2
    if ptr < sizeInList then
      let listPair := (inList.drop ptr).take currentDoubledSizeTask
      let listPair ← oneRecursiveStep listPair sizeTask currentDoubledSizeTask
      let inList ← (List.range currentDoubledSizeTask).foldlM (pourBody listPair ptr) inList
      mergePairs sizeTask sizeInList fuel (ptr + currentDoubledSizeTask) inList
    else return inList

/-- `_merge(in_list, size_task)`: the list it leaves. -/
def merge : ℕ → List α → ℕ → Option (List α)
  | 0, _, _ => none
  | fuel + 1, inList, sizeTask => do
    let sizeInList := inList.length
    let inList ← mergePairs sizeTask sizeInList (fuel + 1) 0 inList
    let newSizeTask := sizeTask * 2
    if newSizeTask < sizeInList then merge fuel inList newSizeTask
    else return inList

/-- The first element that is left, once for each element that is left. -/
def repeatFirst : List α → List α
  | [] => []
  | x :: xs => List.replicate (x :: xs).length x

/-- A pair of runs after one step: what is left of one run is not copied. -/
def mergeRuns (xs ys : List α) : List α := (mergeUntil xs ys).1 ++ repeatFirst (mergeUntil xs ys).2

omit [LinearOrder α] in
@[simp] theorem length_repeatFirst (xs : List α) : (repeatFirst xs).length = xs.length := by
  cases xs with
  | nil => rfl
  | cons x xs => exact List.length_replicate

theorem length_mergeRuns (xs ys : List α) :
    (mergeRuns xs ys).length = xs.length + ys.length := by
  unfold mergeRuns
  rw [List.length_append, length_repeatFirst, length_mergeUntil]

theorem mergeRuns_of_lt {x y : α} (h : x < y) (xs ys : List α) :
    mergeRuns (x :: xs) (y :: ys) = x :: mergeRuns xs (y :: ys) := by
  unfold mergeRuns
  rw [mergeUntil_of_lt h, List.cons_append]

theorem mergeRuns_of_not_lt {x y : α} (h : ¬x < y) (xs ys : List α) :
    mergeRuns (x :: xs) (y :: ys) = y :: mergeRuns (x :: xs) ys := by
  unfold mergeRuns
  rw [mergeUntil_of_not_lt h, List.cons_append]

section Step

variable {A B xs ys c : List α} {i j w : ℕ}

theorem stepBody_exhausted {x : α} (hA : A.length = w) (hB : B.length = w)
    (h : LeftAt A B i j [] (x :: xs) ∨ LeftAt A B i j (x :: xs) []) (ks : List ℕ) (c : List α) :
    ks.foldlM (stepBody A B w) (i, j, c) = some (i, j, c ++ List.replicate ks.length x) := by
  induction ks generalizing c with
  | nil => simp
  | cons k ks ih =>
    have hstep : stepBody A B w (i, j, c) k = some (i, j, c ++ [x]) := by
      unfold stepBody
      cases h with
      | inl h =>
        have hi : i = A.length := h.left_length
        dsimp only
        rw [if_pos (by omega), h.right_get]
        rfl
      | inr h =>
        have hi := h.left_length
        have hj : j = B.length := h.right_length
        rw [List.length_cons] at hi
        dsimp only
        rw [if_neg (by omega), if_pos (by omega), h.left_get]
        rfl
    rw [List.foldlM_cons, hstep, Option.bind_eq_bind, Option.bind_some, ih, List.length_cons,
      List.replicate_succ, List.append_assoc, List.singleton_append]

theorem stepBody_cons {x y : α} (hA : A.length = w) (hB : B.length = w)
    (h : LeftAt A B i j (x :: xs) (y :: ys)) (c : List α) (k : ℕ) :
    stepBody A B w (i, j, c) k =
      some (if x < y then (i + 1, j, c ++ [x]) else (i, j + 1, c ++ [y])) := by
  have hi := h.left_length
  have hj := h.right_length
  rw [List.length_cons] at hi hj
  unfold stepBody
  dsimp only
  rw [if_neg (by omega), if_neg (by omega), h.left_get, h.right_get]
  by_cases hlt : x < y
  · rw [if_pos hlt]
    exact if_pos hlt
  · rw [if_neg hlt]
    exact if_neg hlt

theorem stepBody_loop (hA : A.length = w) (hB : B.length = w) (h : LeftAt A B i j xs ys)
    (ks : List ℕ) (hks : ks.length = xs.length + ys.length) (c : List α) :
    ∃ i' j', ks.foldlM (stepBody A B w) (i, j, c) = some (i', j', c ++ mergeRuns xs ys) := by
  induction ks generalizing i j xs ys c with
  | nil =>
    obtain ⟨rfl, rfl⟩ : xs = [] ∧ ys = [] := by simpa using hks.symm
    exact ⟨i, j, by simp [mergeRuns, repeatFirst]⟩
  | cons k ks ih =>
    cases xs with
    | nil =>
      cases ys with
      | nil => cases hks
      | cons y ys =>
        rw [stepBody_exhausted hA hB (.inl h), hks]
        exact ⟨i, j, by simp [mergeRuns, repeatFirst]⟩
    | cons x xs =>
      cases ys with
      | nil =>
        rw [stepBody_exhausted hA hB (.inr h), hks]
        exact ⟨i, j, by simp [mergeRuns, repeatFirst]⟩
      | cons y ys =>
        rw [List.foldlM_cons, stepBody_cons hA hB h, Option.bind_eq_bind, Option.bind_some]
        simp only [List.length_cons] at hks
        by_cases hlt : x < y
        · obtain ⟨i', j', hrun⟩ := ih h.take_left (by rw [List.length_cons]; omega) (c ++ [x])
          refine ⟨i', j', ?_⟩
          rw [if_pos hlt, hrun, mergeRuns_of_lt hlt, List.append_assoc, List.singleton_append]
        · obtain ⟨i', j', hrun⟩ := ih h.take_right (by rw [List.length_cons]; omega) (c ++ [y])
          refine ⟨i', j', ?_⟩
          rw [if_neg hlt, hrun, mergeRuns_of_not_lt hlt, List.append_assoc, List.singleton_append]

theorem oneRecursiveStep_eq (hA : A.length = w) (hB : B.length = w) :
    oneRecursiveStep (A ++ B) w (w * 2) = some (mergeRuns A B) := by
  obtain ⟨i, j, hrun⟩ := stepBody_loop hA hB (LeftAt.start A B) (List.range (w * 2))
    (by rw [List.length_range]; omega) []
  unfold oneRecursiveStep
  rw [List.take_left' hA, List.drop_left' hA]
  dsimp only
  rw [hrun]
  rfl

end Step

section Pass

variable {n : ℕ}

omit [LinearOrder α] in
private theorem set_at (pre suf : List α) (x y : α) :
    (pre ++ x :: suf).set pre.length y = pre ++ y :: suf := by
  rw [List.set_append_right _ _ (Nat.le_refl _), Nat.sub_self, List.set_cons_zero]

omit [LinearOrder α] in
theorem pourBody_loop (done rest : List α) {listPair old : List α}
    (h : old.length = listPair.length) :
    (List.range listPair.length).foldlM (pourBody listPair done.length) (done ++ (old ++ rest)) =
      some (done ++ (listPair ++ rest)) := by
  have hloop := foldlM_prefix (f := pourBody listPair done.length) (P := fun ks l =>
      l = done ++ (listPair.take ks.length ++ old.drop ks.length ++ rest))
    (List.range listPair.length)
  have hstep : ∀ t i l, t ++ [i] <+: List.range listPair.length →
      l = done ++ (listPair.take t.length ++ old.drop t.length ++ rest) →
      ∃ l', pourBody listPair done.length l i = some l' ∧ l' = done ++
        (listPair.take (t ++ [i]).length ++ old.drop (t ++ [i]).length ++ rest) := by
    intro t i l ht hl
    obtain ⟨rfl, hlt⟩ := eq_length_of_prefix_range ht
    have hpre : (done ++ listPair.take t.length).length = done.length + t.length := by
      rw [List.length_append, List.length_take]
      omega
    have hcons : l = (done ++ listPair.take t.length) ++
        old[t.length] :: (old.drop (t.length + 1) ++ rest) := by
      rw [hl, List.drop_eq_getElem_cons (by omega)]
      simp only [List.append_assoc, List.cons_append]
    unfold pourBody
    refine ⟨_, ?_, rfl⟩
    rw [List.getElem?_eq_getElem hlt, Option.bind_eq_bind, Option.bind_some,
      if_pos (by rw [hcons, List.length_append, hpre, List.length_cons]; omega), hcons, ← hpre,
      set_at, List.length_append, List.length_singleton, List.take_succ_eq_append_getElem hlt]
    simp only [List.append_assoc, List.cons_append]
    rfl
  obtain ⟨l, hrun, hl⟩ := hloop hstep (done ++ (old ++ rest)) (by simp)
  rw [hrun, hl, List.length_range, List.take_length, List.drop_eq_nil_of_le (Nat.le_of_eq h),
    List.append_nil]

/-- A pass over runs of the size of the task leaves each two of them merged. -/
theorem mergePairs_eq (done : List α) {w : ℕ} (hw : 0 < w) (runs : List (List α))
    (heven : 2 ∣ runs.length) (hruns : ∀ run ∈ runs, run.length = w) (fuel : ℕ)
    (hfuel : runs.length / 2 < fuel)
    (hsize : n = done.length + runs.flatten.length) :
    mergePairs w n fuel done.length (done ++ runs.flatten) =
      some (done ++ (pairUp mergeRuns runs).flatten) := by
  induction runs using pairUp.induct generalizing fuel done with
  | case1 =>
    obtain ⟨fuel, rfl⟩ := Nat.exists_eq_succ_of_ne_zero (Nat.ne_zero_of_lt hfuel)
    unfold mergePairs
    simp at hsize
    simp [hsize, pairUp]
  | case2 x => simp at heven
  | case3 x y zs ih =>
    obtain ⟨fuel, rfl⟩ := Nat.exists_eq_succ_of_ne_zero (Nat.ne_zero_of_lt hfuel)
    have hx : x.length = w := hruns x (by simp)
    have hy : y.length = w := hruns y (by simp)
    have hpair : (x ++ y).length = w * 2 := by
      rw [List.length_append]
      omega
    have hmerged : (mergeRuns x y).length = w * 2 := by
      rw [length_mergeRuns]
      omega
    have hflat : (x :: y :: zs).flatten = (x ++ y) ++ zs.flatten := by simp
    simp only [List.length_cons] at hfuel heven
    have hpour := pourBody_loop done zs.flatten (hpair.trans hmerged.symm)
    rw [hmerged] at hpour
    have hrest := ih (done ++ mergeRuns x y) (by omega)
      (fun run hrun => hruns run (by simp [hrun])) fuel (by omega)
      (by rw [hsize, hflat, List.length_append, hpair, List.length_append, hmerged]; omega)
    rw [List.length_append, hmerged, List.append_assoc] at hrest
    unfold mergePairs
    dsimp only
    rw [if_pos (by rw [hsize, hflat, List.length_append]; omega), hflat,
      List.drop_left' (rfl : done.length = done.length), List.take_left' hpair,
      oneRecursiveStep_eq hx hy, Option.bind_eq_bind, Option.bind_some, hpour, Option.bind_some,
      hrest]
    simp [pairUp]

omit [LinearOrder α] in
private theorem length_flatten_runs {w : ℕ} {runs : List (List α)}
    (h : ∀ run ∈ runs, run.length = w) : runs.flatten.length = runs.length * w := by
  rw [List.length_flatten, List.map_congr_left h]
  simp

private theorem length_of_mem_pairUp {w : ℕ} {runs : List (List α)} (heven : 2 ∣ runs.length)
    (h : ∀ run ∈ runs, run.length = w) : ∀ run ∈ pairUp mergeRuns runs, run.length = w * 2 := by
  induction runs using pairUp.induct with
  | case1 => exact fun run hrun => absurd hrun List.not_mem_nil
  | case2 x => simp at heven
  | case3 x y zs ih =>
    intro run hrun
    simp only [List.length_cons] at heven
    cases List.mem_cons.mp hrun with
    | inl heq =>
      rw [heq, length_mergeRuns, h x (by simp), h y (by simp)]
      omega
    | inr hmem => exact ih (by omega) (fun run hrun => h run (by simp [hrun])) run hmem

theorem merge_succ {w : ℕ} (hw : 0 < w) (runs : List (List α)) (heven : 2 ∣ runs.length)
    (hruns : ∀ run ∈ runs, run.length = w) (fuel : ℕ) (hfuel : runs.length / 2 ≤ fuel) :
    merge (fuel + 1) runs.flatten w = if w * 2 < runs.flatten.length
      then merge fuel (pairUp mergeRuns runs).flatten (w * 2)
      else some (pairUp mergeRuns runs).flatten := by
  have hpass := mergePairs_eq [] hw runs heven hruns (fuel + 1) (by omega) rfl
  simp only [List.length_nil, List.nil_append, Nat.zero_add] at hpass
  rw [merge, hpass]
  rfl

/-- Round after round, until one run is left. -/
theorem merge_eq {w : ℕ} (hw : 0 < w) {k : ℕ} (runs : List (List α))
    (hlen : runs.length = 2 ^ (k + 1)) (hruns : ∀ run ∈ runs, run.length = w) (fuel : ℕ)
    (hfuel : 2 ^ (k + 1) ≤ fuel) :
    merge fuel runs.flatten w = some ((pairUp mergeRuns)^[k + 1] runs).flatten := by
  induction k generalizing runs w fuel with
  | zero =>
    obtain ⟨fuel, rfl⟩ := Nat.exists_eq_succ_of_ne_zero (show fuel ≠ 0 by omega)
    rw [merge_succ hw runs (by omega) hruns fuel (by omega),
      if_neg (by rw [length_flatten_runs hruns, hlen]; omega)]
    rfl
  | succ k ih =>
    have hpow : 2 ^ (k + 1 + 1) = 2 ^ (k + 1) * 2 := Nat.pow_succ 2 (k + 1)
    have hpos : 2 ≤ 2 ^ (k + 1) := by
      rw [Nat.pow_succ]
      have := Nat.two_pow_pos k
      omega
    have hmany : 4 * w ≤ runs.length * w := Nat.mul_le_mul_right w (by omega)
    obtain ⟨fuel, rfl⟩ := Nat.exists_eq_succ_of_ne_zero (show fuel ≠ 0 by omega)
    rw [merge_succ hw runs (by omega) hruns fuel (by omega),
      if_pos (by rw [length_flatten_runs hruns]; omega),
      ih (by omega) _ (length_pairUp_two_pow mergeRuns hlen)
        (length_of_mem_pairUp (by omega) hruns) fuel (by omega)]
    rfl

end Pass

/-- The two halves of a list of `2 ^ (k + 1)` elements are sorted, then merged as two runs. -/
def sortHalves : ℕ → List α → List α
  | 0, xs => xs
  | k + 1, xs => mergeRuns (sortHalves k (xs.take (2 ^ k))) (sortHalves k (xs.drop (2 ^ k)))

/-- In both halves of the list, in their halves and so on: the elements of one half that outlast the
other are all the same. -/
def Kept : ℕ → List α → Prop
  | 0, _ => True
  | k + 1, xs => Kept k (xs.take (2 ^ k)) ∧ Kept k (xs.drop (2 ^ k)) ∧
    ∀ a ∈ outlasting (xs.take (2 ^ k)) (xs.drop (2 ^ k)),
      ∀ b ∈ outlasting (xs.take (2 ^ k)) (xs.drop (2 ^ k)), a = b

section Halves

variable {xs ys : List α} {k : ℕ}

theorem pairwise_mergeRuns (hx : xs.Pairwise (· ≤ ·)) (hy : ys.Pairwise (· ≤ ·)) :
    (mergeRuns xs ys).Pairwise (· ≤ ·) := by
  have hsort := pairwise_mergeUntil hx hy
  unfold mergeRuns
  cases hrest : (mergeUntil xs ys).2 with
  | nil => rwa [hrest] at hsort
  | cons z zs =>
    rw [hrest, List.pairwise_append] at hsort
    rw [List.pairwise_append]
    refine ⟨hsort.1, List.pairwise_replicate.mpr (.inr le_rfl), ?_⟩
    intro a ha b hb
    rw [List.eq_of_mem_replicate hb]
    exact hsort.2.2 a ha z List.mem_cons_self

theorem countP_repeatFirst_le (h : xs.Pairwise (· ≤ ·)) (t : α) :
    (repeatFirst xs).countP (t < ·) ≤ xs.countP (t < ·) := by
  cases xs with
  | nil => exact Nat.le_refl _
  | cons x xs =>
    unfold repeatFirst
    rw [List.countP_replicate]
    split
    case isTrue hlt =>
      have hall : (x :: xs).countP (t < ·) = (x :: xs).length := by
        rw [List.countP_eq_length]
        intro y hy
        simp only [decide_eq_true_eq] at hlt ⊢
        exact hlt.trans_le (le_of_mem le_rfl h hy)
      exact Nat.le_of_eq hall.symm
    case isFalse => exact Nat.zero_le _

/-- Above any bound there are no more elements than before. -/
theorem countP_mergeRuns_le (hx : xs.Pairwise (· ≤ ·)) (hy : ys.Pairwise (· ≤ ·)) (t : α) :
    (mergeRuns xs ys).countP (t < ·) ≤ (xs ++ ys).countP (t < ·) := by
  have hrest := (List.pairwise_append.mp (pairwise_mergeUntil hx hy)).2.1
  unfold mergeRuns
  rw [← (mergeUntil_perm xs ys).countP_eq, List.countP_append, List.countP_append]
  exact Nat.add_le_add_left (countP_repeatFirst_le hrest t) _

theorem mergeRuns_perm (hx : xs.Pairwise (· ≤ ·)) (hy : ys.Pairwise (· ≤ ·))
    (h : ∀ a ∈ outlasting xs ys, ∀ b ∈ outlasting xs ys, a = b) :
    (mergeRuns xs ys).Perm (xs ++ ys) := by
  have hrest : repeatFirst (mergeUntil xs ys).2 = (mergeUntil xs ys).2 := by
    rw [mergeUntil_snd hx hy]
    cases hout : outlasting xs ys with
    | nil => rfl
    | cons z zs =>
      rw [hout] at h
      exact (List.eq_replicate_iff.mpr ⟨rfl, fun b hb => h b hb z List.mem_cons_self⟩).symm
  unfold mergeRuns
  rw [hrest]
  exact mergeUntil_perm xs ys

/-- The first element that is left gives the bound above which elements get lost. -/
theorem eq_of_countP_mergeRuns (hx : xs.Pairwise (· ≤ ·)) (hy : ys.Pairwise (· ≤ ·))
    (h : ∀ t, (mergeRuns xs ys).countP (t < ·) = (xs ++ ys).countP (t < ·)) :
    ∀ a ∈ outlasting xs ys, ∀ b ∈ outlasting xs ys, a = b := by
  have hsort := (List.pairwise_append.mp (pairwise_mergeUntil hx hy)).2.1
  unfold mergeRuns at h
  simp only [← (mergeUntil_perm xs ys).countP_eq, List.countP_append, Nat.add_left_cancel_iff] at h
  rw [mergeUntil_snd hx hy] at h hsort
  cases hout : outlasting xs ys with
  | nil => exact fun a ha => absurd ha List.not_mem_nil
  | cons z zs =>
    rw [hout] at h hsort
    have hnone : (z :: zs).countP (z < ·) = 0 := by
      rw [← h z]
      unfold repeatFirst
      rw [List.countP_replicate]
      simp
    have hall : ∀ a ∈ z :: zs, a = z := by
      intro a ha
      have hle : ¬z < a := by simpa using List.countP_eq_zero.mp hnone a ha
      exact le_antisymm (not_lt.mp hle) (le_of_mem le_rfl hsort ha)
    intro a ha b hb
    rw [hall a ha, hall b hb]

omit [LinearOrder α] in
theorem length_halves (h : xs.length = 2 ^ (k + 1)) :
    (xs.take (2 ^ k)).length = 2 ^ k ∧ (xs.drop (2 ^ k)).length = 2 ^ k := by
  have hpow : 2 ^ (k + 1) = 2 ^ k + 2 ^ k := by rw [Nat.pow_succ]; omega
  rw [List.length_take, List.length_drop]
  omega

theorem sortHalves_spec (h : xs.length = 2 ^ k) :
    (sortHalves k xs).Pairwise (· ≤ ·) ∧
      ∀ t, (sortHalves k xs).countP (t < ·) ≤ xs.countP (t < ·) := by
  induction k generalizing xs with
  | zero =>
    obtain ⟨x, rfl⟩ := List.length_eq_one_iff.mp h
    exact ⟨List.pairwise_singleton _ _, fun t => Nat.le_refl _⟩
  | succ k ih =>
    obtain ⟨hlenL, hlenR⟩ := length_halves h
    obtain ⟨hsortL, hcountL⟩ := ih hlenL
    obtain ⟨hsortR, hcountR⟩ := ih hlenR
    refine ⟨pairwise_mergeRuns hsortL hsortR, ?_⟩
    intro t
    calc (sortHalves (k + 1) xs).countP (t < ·)
        ≤ (sortHalves k (xs.take (2 ^ k)) ++ sortHalves k (xs.drop (2 ^ k))).countP (t < ·) :=
          countP_mergeRuns_le hsortL hsortR t
      _ ≤ (xs.take (2 ^ k) ++ xs.drop (2 ^ k)).countP (t < ·) := by
          rw [List.countP_append, List.countP_append]
          exact Nat.add_le_add (hcountL t) (hcountR t)
      _ = xs.countP (t < ·) := by rw [List.take_append_drop]

theorem outlasting_congr {xs' ys' : List α} (hx : xs.Perm xs') (hy : ys.Perm ys') :
    (∀ a ∈ outlasting xs ys, ∀ b ∈ outlasting xs ys, a = b) ↔
      ∀ a ∈ outlasting xs' ys', ∀ b ∈ outlasting xs' ys', a = b := by
  simp only [mem_outlasting_congr hx hy]

theorem sortHalves_perm (h : xs.length = 2 ^ k) (hkept : Kept k xs) :
    (sortHalves k xs).Perm xs := by
  induction k generalizing xs with
  | zero => exact List.Perm.refl xs
  | succ k ih =>
    obtain ⟨hlenL, hlenR⟩ := length_halves h
    obtain ⟨hkeptL, hkeptR, hout⟩ := hkept
    have hpermL := ih hlenL hkeptL
    have hpermR := ih hlenR hkeptR
    have hmerge := mergeRuns_perm (sortHalves_spec hlenL).1 (sortHalves_spec hlenR).1
      ((outlasting_congr hpermL hpermR).mpr hout)
    have happend := hmerge.trans (hpermL.append hpermR)
    rwa [List.take_append_drop] at happend

/-- Where no element got lost in the end, none got lost in between. -/
theorem kept_of_countP (h : xs.length = 2 ^ k)
    (hcount : ∀ t, (sortHalves k xs).countP (t < ·) = xs.countP (t < ·)) : Kept k xs := by
  induction k generalizing xs with
  | zero => trivial
  | succ k ih =>
    obtain ⟨hlenL, hlenR⟩ := length_halves h
    obtain ⟨hsortL, hcountL⟩ := sortHalves_spec hlenL
    obtain ⟨hsortR, hcountR⟩ := sortHalves_spec hlenR
    have hsplit : ∀ t, xs.countP (t < ·) =
        (xs.take (2 ^ k)).countP (t < ·) + (xs.drop (2 ^ k)).countP (t < ·) := by
      intro t
      rw [← List.countP_append, List.take_append_drop]
    have hmerge : ∀ t, xs.countP (t < ·) ≤
        (sortHalves k (xs.take (2 ^ k))).countP (t < ·) +
          (sortHalves k (xs.drop (2 ^ k))).countP (t < ·) := by
      intro t
      rw [← hcount t, ← List.countP_append]
      exact countP_mergeRuns_le hsortL hsortR t
    have hkeptL : Kept k (xs.take (2 ^ k)) := by
      apply ih hlenL
      intro t
      have := hsplit t
      have := hmerge t
      have := hcountL t
      have := hcountR t
      omega
    have hkeptR : Kept k (xs.drop (2 ^ k)) := by
      apply ih hlenR
      intro t
      have := hsplit t
      have := hmerge t
      have := hcountL t
      have := hcountR t
      omega
    have hpermL := sortHalves_perm hlenL hkeptL
    have hpermR := sortHalves_perm hlenR hkeptR
    refine ⟨hkeptL, hkeptR, (outlasting_congr hpermL hpermR).mp ?_⟩
    apply eq_of_countP_mergeRuns hsortL hsortR
    intro t
    rw [List.countP_append, hpermL.countP_eq, hpermR.countP_eq, ← hsplit t]
    exact hcount t

theorem sortHalves_perm_iff (h : xs.length = 2 ^ k) : (sortHalves k xs).Perm xs ↔ Kept k xs :=
  ⟨fun hperm => kept_of_countP h fun _ => hperm.countP_eq _, sortHalves_perm h⟩

theorem iterate_pairUp_singletons (h : xs.length = 2 ^ k) :
    (pairUp mergeRuns)^[k] (xs.map fun x => [x]) = [sortHalves k xs] := by
  induction k generalizing xs with
  | zero =>
    obtain ⟨x, rfl⟩ := List.length_eq_one_iff.mp h
    rfl
  | succ k ih =>
    obtain ⟨hlenL, hlenR⟩ := length_halves h
    have hlast := iterate_pairUp_succ mergeRuns (by rwa [List.length_map]) (ih hlenL) (ih hlenR)
    rwa [← List.map_append, List.take_append_drop] at hlast

/-- From runs of one element upwards as from the whole list downwards. -/
theorem merge_one_eq (h : xs.length = 2 ^ (k + 1)) (fuel : ℕ) (hfuel : xs.length ≤ fuel) :
    merge fuel xs 1 = some (sortHalves (k + 1) xs) := by
  have hrun := merge_eq Nat.one_pos (xs.map fun x => [x]) (by rwa [List.length_map])
    (fun run hrun => by obtain ⟨x, -, rfl⟩ := List.mem_map.mp hrun; rfl) fuel (by omega)
  rw [iterate_pairUp_singletons h, List.flatten_singleton] at hrun
  rwa [← List.flatMap_def, List.flatMap_singleton'] at hrun

end Halves

/-- The loops and the recursion end without an index error, and what they leave is sorted. -/
theorem merge_sorted (xs : List α) {k : ℕ} (h : xs.length = 2 ^ (k + 1)) (fuel : ℕ)
    (hfuel : xs.length ≤ fuel) :
    ∃ out, merge fuel xs 1 = some out ∧ out.Pairwise (· ≤ ·) :=
  ⟨_, merge_one_eq h fuel hfuel, (sortHalves_spec h).1⟩

/-- What they leave is a permutation exactly when no half is left with different elements. -/
theorem merge_sorts_iff (xs : List α) {k : ℕ} (hk : 0 < k) (h : xs.length = 2 ^ k) (fuel : ℕ)
    (hfuel : xs.length ≤ fuel) :
    (∃ out, merge fuel xs 1 = some out ∧ out.Pairwise (· ≤ ·) ∧ out.Perm xs) ↔ Kept k xs := by
  obtain ⟨k, rfl⟩ := Nat.exists_eq_succ_of_ne_zero hk.ne'
  rw [← sortHalves_perm_iff h]
  have hrun := merge_one_eq h fuel hfuel
  constructor
  · rintro ⟨out, hout, -, hperm⟩
    exact Option.some.inj (hout.symm.trans hrun) ▸ hperm
  · intro hperm
    obtain ⟨out, hout, hsorted⟩ := merge_sorted xs h fuel hfuel
    obtain rfl := Option.some.inj (hout.symm.trans hrun)
    exact ⟨_, hout, hsorted, hperm⟩

theorem merge_sorts_iff_eight :
    (∃ out, merge 8 ([5, 4, 1, 8, 7, 2, 6, 3] : List ℤ) 1 = some out ∧
      out.Pairwise (· ≤ ·) ∧ out.Perm [5, 4, 1, 8, 7, 2, 6, 3]) ↔
      Kept 3 ([5, 4, 1, 8, 7, 2, 6, 3] : List ℤ) :=
  merge_sorts_iff [5, 4, 1, 8, 7, 2, 6, 3] (by decide) rfl 8 (Nat.le_refl 8)

/-- A sorted list of four is not left as it is. -/
theorem merge_four : merge 4 ([1, 2, 3, 4] : List ℤ) 1 = some [1, 2, 3, 3] ∧
    ¬([1, 2, 3, 3] : List ℤ).Perm [1, 2, 3, 4] := by decide

end CppTricks.Sort.MergeSort
