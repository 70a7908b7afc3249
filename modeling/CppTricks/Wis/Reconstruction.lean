import CppTricks.Wis.Table

/-! The reconstruction loop of `TEST(W3, Wis)`. -/
namespace CppTricks.Wis
open Foundation

/-- A vector at an `int` index: a negative one turns into a size beyond every vector. -/
def index (A : List ℤ) (i : ℤ) : Option ℤ := if 0 ≤ i then A[i.toNat]? else none

/-- The loop from `i` downwards: the weights and vertices it prints. `none` is an access outside `W`
or `A`, an overflow, or a loop that was cut off. -/
def reconstruct (W A : List ℤ) : ℕ → ℤ → Option (List (ℤ × ℤ))
  | 0, _ => none
  | fuel + 1, i =>
    if i ≥ 1 then do
      let excluded ← index A (i - 1)
      let included ← index A (i - 2)
      let w ← index W i
      let sum ← int? (included + w)
      if excluded ≥ sum then reconstruct W A fuel (i - 1)
      else do
        let rest ← reconstruct W A fuel (i - 2)
        return (w, i) :: rest
    else some []

/-- The best independent set of the vertices `1` to `i` that leaves the last ones out on a tie. -/
def Preferred (W : List ℤ) (i : ℕ) (S : Finset ℕ) : Prop :=
  LeastBest (Independent i) (weight W) S

/-- The lines printed for the vertices of `S`, the last one first. -/
structure Prints (W : List ℤ) (i : ℕ) (S : Finset ℕ) (printed : List (ℤ × ℤ)) : Prop where
  apart : printed.Pairwise fun p q => q.2 + 1 < p.2
  weights : ∀ p ∈ printed, p.2 ≤ i ∧ index W p.2 = some p.1
  sum : (printed.map Prod.fst).sum = ∑ k ∈ S, weight W k

variable {W A : List ℤ} {S T : Finset ℕ} {printed : List (ℤ × ℤ)} {i n : ℕ} {w : ℤ}

theorem index_natCast (A : List ℤ) (i : ℕ) : index A i = A[i]? := by
  unfold index
  rw [if_pos (Int.natCast_nonneg i), Int.toNat_natCast]

theorem index_of_neg (A : List ℤ) {j : ℤ} (h : j < 0) : index A j = none := if_neg (not_le.mpr h)

theorem preferred_zero (W : List ℤ) : Preferred W 0 ∅ :=
  leastBest_empty _ fun _ => Independent.zero_iff

theorem Preferred.succ (hw : W[i + 1]? = some w) (hS : Preferred W i S)
    (hT : Preferred W (i - 1) T) : Preferred W (i + 1)
      (if ∑ k ∈ T, weight W k + w ≤ ∑ k ∈ S, weight W k then S else insert (i + 1) T) := by
  rw [← weight_eq hw]
  apply LeastBest.choose hS hT
  · intro U hU
    exact hU.lt_succ
  · intro U hU k hk
    have hle := hU.le hk
    omega
  · intro U
    exact Independent.succ_iff

theorem exists_preferred (hi : i < W.length) : ∃ S, Preferred W i S := by
  induction i using Nat.strongRecOn with
  | ind i ih =>
    cases i with
    | zero => exact ⟨∅, preferred_zero W⟩
    | succ i =>
      obtain ⟨S, hS⟩ := ih i (Nat.lt_succ_self i) (by omega)
      obtain ⟨T, hT⟩ := ih (i - 1) (by omega) (by omega)
      exact ⟨_, hS.succ (List.getElem?_eq_getElem hi) hT⟩

/-- The cells of the table are the weights of the preferred sets. -/
theorem Preferred.cell (h : Preferred W i S) (hA : Filled W A n) (hi : i < n) :
    index A i = some (∑ k ∈ S, weight W k) := by
  obtain ⟨m, hm, hopt, -⟩ := hA.2 i hi
  rw [index_natCast, hm, hopt.unique h.best]

/-- The sum with the last vertex is no more than the cell of that vertex. -/
theorem Preferred.int?_add (h : Preferred W i T) (hA : Filled W A W.length)
    (hw : W[i + 2]? = some w) (hnonneg : 0 ≤ w) :
    int? (∑ k ∈ T, weight W k + w) = some (∑ k ∈ T, weight W k + w) := by
  obtain ⟨m, -, hopt, hle⟩ := hA.2 (i + 2) (List.getElem?_eq_some_iff.mp hw).1
  have hnot : i + 2 ∉ T := fun hmem => absurd (h.mem.le hmem) (by omega)
  have hinsert := hopt.le (Independent.insert_last (i := i + 1) h.mem)
  rw [Finset.sum_insert hnot, weight_eq hw, add_comm] at hinsert
  rw [int?_of_nonneg (add_nonneg (Optimum.nonneg h.best) hnonneg), if_pos (hinsert.trans hle)]

theorem reconstruct_one (W A : List ℤ) (fuel : ℕ) : reconstruct W A fuel 1 = none := by
  cases fuel with
  | zero => rfl
  | succ fuel =>
    unfold reconstruct
    rw [if_pos le_rfl, index_of_neg A (show (1 : ℤ) - 2 < 0 by omega)]
    cases index A (1 - 1) with
    | none => rfl
    | some excluded => rfl

/-- One round compares what is best without the vertex and with it. -/
theorem reconstruct_succ (hA : Filled W A W.length) (hw : W[i + 2]? = some w) (hnonneg : 0 ≤ w)
    (hS : Preferred W (i + 1) S) (hT : Preferred W i T) (fuel : ℕ) :
    reconstruct W A (fuel + 1) (i + 2 : ℕ) =
      if ∑ k ∈ T, weight W k + w ≤ ∑ k ∈ S, weight W k then reconstruct W A fuel (i + 1 : ℕ)
      else (reconstruct W A fuel i).map ((w, (i + 2 : ℕ)) :: ·) := by
  have hi : i + 2 < W.length := (List.getElem?_eq_some_iff.mp hw).1
  have hexcluded := hS.cell hA (by omega)
  have hincluded := hT.cell hA (by omega)
  rw [reconstruct, if_pos (by omega), show ((i + 2 : ℕ) : ℤ) - 1 = (i + 1 : ℕ) by omega,
    show ((i + 2 : ℕ) : ℤ) - 2 = i by omega, hexcluded, hincluded, index_natCast, hw]
  simp only [Option.bind_eq_bind, Option.bind_some, hT.int?_add hA hw hnonneg, ge_iff_le]
  split
  · rfl
  · cases reconstruct W A fuel i with
    | none => rfl
    | some rest => rfl

theorem Prints.cons (h : Prints W i T printed) (hw : W[i + 2]? = some w) (hT : i + 2 ∉ T) :
    Prints W (i + 2) (insert (i + 2) T) ((w, (i + 2 : ℕ)) :: printed) := by
  refine ⟨?_, ?_, ?_⟩
  · rw [List.pairwise_cons]
    refine ⟨?_, h.apart⟩
    intro p hp
    have hle := (h.weights p hp).1
    dsimp only
    omega
  · intro p hp
    cases List.mem_cons.mp hp with
    | inl heq =>
      subst heq
      exact ⟨le_rfl, by rw [index_natCast, hw]⟩
    | inr hp =>
      obtain ⟨hle, hval⟩ := h.weights p hp
      exact ⟨by omega, hval⟩
  · rw [List.map_cons, List.sum_cons, h.sum, Finset.sum_insert hT, weight_eq hw]

theorem Prints.mono {j : ℕ} (h : Prints W i S printed) (hij : i ≤ j) : Prints W j S printed :=
  ⟨h.apart, fun p hp => ⟨(h.weights p hp).1.trans (by omega), (h.weights p hp).2⟩, h.sum⟩

/-- How the loop from `i` ends: well if it comes past vertex 2 and takes it, else outside `A`. -/
structure Ends (W : List ℤ) (i : ℕ) (S : Finset ℕ) (result : Option (List (ℤ × ℤ))) : Prop where
  prints : i = 0 ∨ 2 ∈ S → ∃ printed, result = some printed ∧ Prints W i S printed
  fails : i ≠ 0 → 2 ∉ S → result = none

namespace Ends

variable {result : Option (List (ℤ × ℤ))}

theorem zero (W : List ℤ) : Ends W 0 ∅ (some []) := by
  refine ⟨fun _ => ⟨[], rfl, List.Pairwise.nil, ?_, rfl⟩, fun h => absurd rfl h⟩
  intro p hp
  exact absurd hp List.not_mem_nil

theorem one (hS : Preferred W 1 S) : Ends W 1 S none := by
  have hnot : 2 ∉ S := fun h => absurd (hS.mem.le h) (by omega)
  exact ⟨fun h => absurd (h.resolve_left Nat.one_ne_zero) hnot, fun _ _ => rfl⟩

theorem skip (h : Ends W (i + 1) S result) : Ends W (i + 2) S result := by
  constructor
  · intro htwo
    obtain ⟨printed, hrun, hprints⟩ := h.prints (.inr (htwo.resolve_left (by omega)))
    exact ⟨printed, hrun, hprints.mono (by omega)⟩
  · intro _ htwo
    exact h.fails (by omega) htwo

/-- The last vertex is taken; where it is vertex 2, the loop is at its end. -/
theorem take (h : Ends W i T result) (hw : W[i + 2]? = some w) (hT : i + 2 ∉ T) :
    Ends W (i + 2) (insert (i + 2) T) (result.map ((w, (i + 2 : ℕ)) :: ·)) := by
  constructor
  · intro htwo
    have hrest : i = 0 ∨ 2 ∈ T := by
      cases Finset.mem_insert.mp (htwo.resolve_left (by omega)) with
      | inl heq => exact .inl (by omega)
      | inr hmem => exact .inr hmem
    obtain ⟨printed, hrun, hprints⟩ := h.prints hrest
    exact ⟨_, by rw [hrun, Option.map_some], hprints.cons hw hT⟩
  · intro _ htwo
    rw [Finset.mem_insert, not_or] at htwo
    rw [h.fails (by omega) htwo.2, Option.map_none]

end Ends

theorem reconstruct_spec (hW : ∀ w ∈ W, 0 ≤ w ∧ w ≤ intMax) (hA : Filled W A W.length)
    (hi : i < W.length) (hS : Preferred W i S) (fuel : ℕ) (hfuel : i < fuel) :
    Ends W i S (reconstruct W A fuel i) := by
  induction i using Nat.strongRecOn generalizing S fuel with
  | ind i ih =>
    obtain ⟨fuel, rfl⟩ := Nat.exists_eq_succ_of_ne_zero (Nat.ne_zero_of_lt hfuel)
    match i with
    | 0 =>
      obtain rfl := hS.unique (preferred_zero W)
      exact Ends.zero W
    | 1 =>
      rw [Nat.cast_one, reconstruct_one]
      exact Ends.one hS
    | i + 2 =>
      obtain ⟨R, hR⟩ := exists_preferred (W := W) (i := i + 1) (by omega)
      obtain ⟨T, hT⟩ := exists_preferred (W := W) (i := i) (by omega)
      have hw : W[i + 2]? = some W[i + 2] := List.getElem?_eq_getElem hi
      have hnonneg := (hW _ (List.getElem_mem hi)).1
      rw [reconstruct_succ hA hw hnonneg hR hT, hS.unique (hR.succ hw hT)]
      -- the same comparison makes the loop go on and the set preferred
      split
      · exact (ih (i + 1) (by omega) (by omega) hR fuel (by omega)).skip
      · have hnot : i + 2 ∉ T := fun h => absurd (hT.mem.le h) (by omega)
        exact (ih i (by omega) (by omega) hT fuel (by omega)).take hw hnot

/-- The vertex from which the loop starts, `int i = W.size() - 1`. -/
def start (W : List ℤ) : ℤ := toInt (W.length - 1)

/-- What the reconstruction should do: no access out of range, no two adjacent vertices, and the
weights printed sum to `A.back()`. -/
def Reconstructs (W A : List ℤ) (fuel : ℕ) : Prop :=
  ∃ printed, reconstruct W A fuel (start W) = some printed ∧
    (printed.Pairwise fun p q => q.2 + 1 < p.2) ∧
    (∀ p ∈ printed, index W p.2 = some p.1) ∧
    A.getLast? = some (printed.map Prod.fst).sum

theorem reconstruct_start (W A : List ℤ) {fuel : ℕ} (hfuel : 0 < fuel) :
    reconstruct W A fuel (start W) = reconstruct W A fuel (start W).toNat := by
  obtain ⟨fuel, rfl⟩ := Nat.exists_eq_succ_of_ne_zero hfuel.ne'
  by_cases h : 1 ≤ start W
  · rw [Int.toNat_of_nonneg (by omega)]
  · have hzero : (start W).toNat = 0 := by omega
    rw [hzero, reconstruct, reconstruct, if_neg h, if_neg (by decide)]

theorem Filled.getLast? (h : Filled W A W.length) (hsize : 2 ≤ W.length) :
    ∃ m, A.getLast? = some m ∧ Optimum W (W.length - 1) m := by
  obtain ⟨m, hm, hopt, -⟩ := h.2 (W.length - 1) (by omega)
  exact ⟨m, by rw [List.getLast?_eq_getElem?, h.1, hm], hopt⟩

/-- It does so exactly where every independent set weighs an `int` and vertex 2 is in the best one
that leaves the last vertices out on a tie. (Where a size that is no `int` makes the loop start too
low, that set of the lower vertices must be as heavy as any.) -/
theorem reconstruct_iff (hsize : 2 ≤ W.length) (hW : ∀ w ∈ W, 0 ≤ w ∧ w ≤ intMax) (fuel : ℕ)
    (hfuel : W.length ≤ fuel) :
    (∃ A, table W = some A ∧ Reconstructs W A fuel) ↔
      WeighsInt W ∧ ∃ S, LeastBest (Independent (start W).toNat) (weight W) S ∧
        (1 ≤ start W → 2 ∈ S) ∧ ∀ T, Independent (W.length - 1) T →
          ∑ k ∈ T, weight W k ≤ ∑ k ∈ S, weight W k := by
  have hstart : (start W).toNat < W.length := by
    have hle := toInt_le (W.length - 1)
    unfold start
    omega
  obtain ⟨S, hS⟩ := exists_preferred hstart
  constructor
  · intro h
    obtain ⟨A, hA, printed, hrun, -, -, hback⟩ := h
    obtain ⟨A', hA', hfilled⟩ := (table_filled_or_none hsize hW).resolve_right
      fun hnone => by rw [hA] at hnone; cases hnone.1
    obtain rfl : A = A' := Option.some.inj (hA.symm.trans hA')
    have hends := reconstruct_spec hW hfilled hstart hS fuel (by omega)
    rw [reconstruct_start W A (by omega)] at hrun
    have htwo : 1 ≤ start W → 2 ∈ S := by
      intro hone
      by_contra hnot
      rw [hends.fails (by omega) hnot] at hrun
      cases hrun
    obtain ⟨printed', hrun', hprints⟩ := hends.prints <|
      (Nat.eq_zero_or_pos _).imp_right fun hpos => htwo (by omega)
    obtain rfl : printed = printed' := Option.some.inj (hrun.symm.trans hrun')
    obtain ⟨m, hm, hopt⟩ := hfilled.getLast? hsize
    rw [hm, hprints.sum] at hback
    refine ⟨hfilled.weighsInt hsize, S, hS, htwo, fun T hT => ?_⟩
    rw [← Option.some.inj hback]
    exact hopt.le hT
  · intro h
    obtain ⟨hweighs, S', hS', htwo, hbest⟩ := h
    obtain rfl := hS.unique hS'
    obtain ⟨A, hA, hfilled⟩ := table_filled hsize hW hweighs
    obtain ⟨printed, hrun, hprints⟩ :=
      (reconstruct_spec hW hfilled hstart hS fuel (by omega)).prints <|
        (Nat.eq_zero_or_pos _).imp_right fun hpos => htwo (by omega)
    obtain ⟨m, hm, hopt⟩ := hfilled.getLast? hsize
    have hlast : Optimum W (W.length - 1) (∑ k ∈ S, weight W k) :=
      best_of (hS.mem.mono (by omega)) hbest
    refine ⟨A, hA, printed, ?_, hprints.apart, fun p hp => (hprints.weights p hp).2, ?_⟩
    · rw [reconstruct_start W A (by omega), hrun]
    · rw [hm, hprints.sum, hopt.unique hlast]

theorem reconstruct_iff_arr :
    (∃ A, table arr = some A ∧ Reconstructs arr A 5) ↔
      WeighsInt arr ∧ ∃ S, LeastBest (Independent 4) (weight arr) S ∧
        (1 ≤ start arr → 2 ∈ S) ∧ ∀ T, Independent 4 T →
          ∑ k ∈ T, weight arr k ≤ ∑ k ∈ S, weight arr k :=
  reconstruct_iff (by decide) (by decide) 5 (by decide)

/-- With one vertex the loop starts at index 1 and reads `A[-1]`. -/
theorem reconstruct_single : start [0, 5] = 1 ∧ index [0, 5] (1 - 2) = none ∧
    ∀ fuel, ¬ ∃ A, table [0, 5] = some A ∧ Reconstructs [0, 5] A fuel := by
  have hstart : start [0, 5] = 1 := by decide
  refine ⟨hstart, by decide, fun fuel h => ?_⟩
  obtain ⟨A, -, printed, hrun, -⟩ := h
  rw [hstart, reconstruct_one] at hrun
  cases hrun

end CppTricks.Wis
