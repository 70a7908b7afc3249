import CppTricks.Foundation.FixedWidth
import CppTricks.Foundation.Loops
import Mathlib.Algebra.Order.Ring.Int
import Mathlib.Data.List.Rotate

/-! `TEST(OJ, GasStantion)`: the start of a round trip, by trying the stations in turn. -/
namespace CppTricks.Oj
open Foundation

/-- The body of the inner loop and `++j`, on `tank` and `idx`. `none` is an access outside a vector
or an overflow. -/
def driveStep (gas cost : List ℤ) (j : ℕ) (st : ℤ × ℤ) : Option (ForInStep (ℤ × ℤ)) := do
  let (tank, idx) := st
  let costPrev ← cost[j - 1]?
  let tank ← int? (tank - costPrev)
  if tank < 0 then return .done (tank, -1)
  let gasJ ← gas[j]?
  let tank ← int? (tank + gasJ)
  let _ ← nat? (j + 1)
  return .yield (tank, idx)

/-- The round from the station in front. -/
def drive (gas cost : List ℤ) (i : ℕ) : Option (ℤ × ℤ) := do
  let tank ← gas[0]?
  let (tank, idx) ← forIn (List.range' 1 (gas.length - 1)) (tank, (i : ℤ)) (driveStep gas cost)
  let costLast ← cost[gas.length - 1]?
  let tank ← int? (tank - costLast)
  return (tank, if tank < 0 then -1 else idx)

def rotateLast (v : List ℤ) : List ℤ := v.rotate (v.length - 1)

/-- The body of the outer loop and `++i`, on the vectors and `idx`. -/
def searchStep (i : ℕ) (st : List ℤ × List ℤ × ℤ) : Option (ForInStep (List ℤ × List ℤ × ℤ)) := do
  let (gas, cost, _) := st
  let (tank, idx) ← drive gas cost i
  if 0 ≤ tank then return .done (gas, cost, idx)
  let _ ← nat? (i + 1)
  return .yield (rotateLast gas, rotateLast cost, idx)

def gasStantion (gas cost : List ℤ) : Option ℤ := do
  let (_, _, idx) ← forIn (List.range gas.length) (gas, cost, 0) searchStep
  return idx

/-- The entries are ints, and none is negative. -/
def Nonneg (v : List ℤ) : Prop := ∀ x ∈ v, 0 ≤ x ∧ x ≤ intMax

/-- What each station and the way to the next one bring. -/
def legs (gas cost : List ℤ) : List ℤ := List.zipWith (· - ·) gas cost

/-- No beginning of the trip takes more than it has brought. -/
def Solvent (trip : List ℤ) : Prop := ∀ m, 0 ≤ (trip.take m).sum

def Feasible (gas cost : List ℤ) (s : ℕ) : Prop :=
  s < gas.length ∧ Solvent ((legs gas cost).rotate s)

def Finds (gas cost : List ℤ) (idx : ℤ) : Prop :=
  ((∃ s, Feasible gas cost s) → ∃ s : ℕ, idx = s ∧ Feasible gas cost s) ∧
    (idx = -1 ↔ ¬∃ s, Feasible gas cost s)

/-- Stations `0` to `m` of the round are reached. -/
def Reaches (gas cost : List ℤ) (m : ℕ) : Prop := ∀ l ≤ m, 0 ≤ ((legs gas cost).take l).sum

/-- On arrival at station `m` the tank and the next value of the counter are ints. -/
def ArrivalInt (gas cost : List ℤ) (m : ℕ) : Prop :=
  ((legs gas cost).take m).sum + gas[m]?.getD 0 ≤ intMax ∧ m < intMax

/-- A tank run dry behind station `m` is an `int` also when the last cost is taken from it. -/
def DryInt (gas cost : List ℤ) (m : ℕ) : Prop :=
  m + 1 < gas.length → ((legs gas cost).take (m + 1)).sum < 0 →
    -intMax - 1 ≤ ((legs gas cost).take (m + 1)).sum - cost[gas.length - 1]?.getD 0

/-- Nothing overflows on the round. -/
def RoundInt (gas cost : List ℤ) : Prop :=
  ∀ m < gas.length, Reaches gas cost m → ArrivalInt gas cost m ∧ DryInt gas cost m

def placesBefore (n k : ℕ) : ℕ := (n - k) % n

/-- Nothing overflows in the try of the station `k` places before the first one. -/
def TryInt (gas cost : List ℤ) (k : ℕ) : Prop :=
  RoundInt (gas.rotate (gas.length - k)) (cost.rotate (gas.length - k)) ∧
    (¬Feasible gas cost (placesBefore gas.length k) → k < intMax)

/-- Nothing overflows in the tries up to the first one that does not fail. -/
def TriesInt (gas cost : List ℤ) : Prop :=
  ∀ k < gas.length, (∀ j < k, ¬Feasible gas cost (placesBefore gas.length j)) → TryInt gas cost k

variable {gas cost v : List ℤ} {g c tank idx : ℤ} {i k m n s : ℕ}

/-! ### One round -/

theorem legs_length (hlen : gas.length = cost.length) : (legs gas cost).length = gas.length := by
  unfold legs
  rw [List.length_zipWith, ← hlen, min_self]

theorem sum_legs_succ (hg : gas[m]? = some g) (hc : cost[m]? = some c) :
    ((legs gas cost).take (m + 1)).sum = ((legs gas cost).take m).sum + g - c := by
  have hleg : (legs gas cost)[m]? = some (g - c) := by
    unfold legs
    rw [List.getElem?_zipWith, hg, hc]
  rw [List.take_add_one, hleg, Option.toList_some, List.sum_append, List.sum_singleton]
  omega

theorem solvent_iff {trip : List ℤ} (h : trip.length = n) :
    Solvent trip ↔ ∀ m ≤ n, 0 ≤ (trip.take m).sum := by
  constructor
  · intro hs m _
    exact hs m
  · intro hs m
    rcases le_total m n with hle | hle
    · exact hs m hle
    · rw [List.take_of_length_le (h ▸ hle), ← List.take_of_length_le h.le]
      exact hs n le_rfl

instance (trip : List ℤ) : Decidable (Solvent trip) := decidable_of_iff _ (solvent_iff rfl).symm

instance (gas cost : List ℤ) (s : ℕ) : Decidable (Feasible gas cost s) :=
  inferInstanceAs (Decidable (_ ∧ _))

instance (v : List ℤ) : Decidable (Nonneg v) := inferInstanceAs (Decidable (∀ x ∈ v, _))

instance (gas cost : List ℤ) (m : ℕ) : Decidable (Reaches gas cost m) :=
  inferInstanceAs (Decidable (∀ l ≤ m, _))

instance (gas cost : List ℤ) (m : ℕ) : Decidable (ArrivalInt gas cost m) :=
  inferInstanceAs (Decidable (_ ∧ _))

instance (gas cost : List ℤ) (m : ℕ) : Decidable (DryInt gas cost m) :=
  inferInstanceAs (Decidable (_ → _ → _))

instance (gas cost : List ℤ) : Decidable (RoundInt gas cost) :=
  inferInstanceAs (Decidable (∀ m < gas.length, _))

instance (gas cost : List ℤ) (k : ℕ) : Decidable (TryInt gas cost k) :=
  inferInstanceAs (Decidable (_ ∧ _))

instance (gas cost : List ℤ) : Decidable (TriesInt gas cost) :=
  inferInstanceAs (Decidable (∀ k < gas.length, _))

/-- The tank when station `m` of the round has been reached. -/
structure Reached (gas cost : List ℤ) (i m : ℕ) (st : ℤ × ℤ) : Prop where
  tank : ∃ g, gas[m]? = some g ∧ st.1 = ((legs gas cost).take m).sum + g
  idx : st.2 = i
  solvent : Reaches gas cost m
  ints : ∀ l ≤ m, ArrivalInt gas cost l

/-- The tank has run dry behind station `m`. -/
structure Stranded (gas cost : List ℤ) (m : ℕ) (st : ℤ × ℤ) : Prop where
  lt : m + 1 < gas.length
  tank : st.1 = ((legs gas cost).take (m + 1)).sum
  dry : st.1 < 0
  solvent : Reaches gas cost m
  ints : ∀ l ≤ m, ArrivalInt gas cost l

theorem Reaches.succ (h : Reaches gas cost m) (hsum : 0 ≤ ((legs gas cost).take (m + 1)).sum) :
    Reaches gas cost (m + 1) := by
  intro l hl
  rcases Nat.le_succ_iff.mp hl with hle | heq
  · exact h l hle
  · exact heq ▸ hsum

theorem Reached.sub_cost {st : ℤ × ℤ} (h : Reached gas cost i m st) (hgas : Nonneg gas)
    (hcost : Nonneg cost) (hc : cost[m]? = some c) :
    int? (st.1 - c) = some ((legs gas cost).take (m + 1)).sum := by
  obtain ⟨g, hg, htank⟩ := h.tank
  have hgnonneg := hgas g (List.mem_of_getElem? hg)
  have hcnonneg := hcost c (List.mem_of_getElem? hc)
  have hsolvent := h.solvent m le_rfl
  have hint := (h.ints m le_rfl).1
  rw [hg, Option.getD_some] at hint
  rw [sum_legs_succ hg hc, ← htank]
  exact int?_eq_some (by omega) (by omega)

/-- One station further, the tank has run dry, or something overflows. -/
theorem Reached.driveStep {st : ℤ × ℤ} (h : Reached gas cost i m st)
    (hlen : gas.length = cost.length) (hgas : Nonneg gas) (hcost : Nonneg cost)
    (hm : m + 1 < gas.length) :
    (∃ st', Oj.driveStep gas cost (1 + m) st = some (.done st') ∧ ∃ m, Stranded gas cost m st') ∨
      (∃ st', Oj.driveStep gas cost (1 + m) st = some (.yield st') ∧
        Reached gas cost i (m + 1) st') ∨
      Oj.driveStep gas cost (1 + m) st = none ∧ ¬RoundInt gas cost := by
  obtain ⟨c, hc⟩ : ∃ c, cost[m]? = some c := ⟨_, List.getElem?_eq_getElem (by omega)⟩
  obtain ⟨g', hg'⟩ : ∃ g', gas[m + 1]? = some g' := ⟨_, List.getElem?_eq_getElem hm⟩
  have hsub := h.sub_cost hgas hcost hc
  have hg'nonneg := (hgas g' (List.mem_of_getElem? hg')).1
  obtain ⟨tank, idx⟩ := st
  unfold Oj.driveStep
  simp only [Nat.add_comm 1 m, Nat.add_sub_cancel, hc, hg', hsub, Option.bind_eq_bind,
    Option.bind_some, Option.pure_def]
  by_cases hneg : ((legs gas cost).take (m + 1)).sum < 0
  · rw [if_pos hneg]
    exact .inl ⟨_, rfl, m, hm, rfl, hneg, h.solvent, h.ints⟩
  · have hreaches := h.solvent.succ (not_lt.mp hneg)
    rw [if_neg hneg, int?_of_nonneg (by omega), nat?]
    right
    by_cases harrival : ArrivalInt gas cost (m + 1)
    · have hint := harrival.1
      rw [hg', Option.getD_some] at hint
      rw [if_pos hint, Option.bind_some, if_pos (Nat.succ_le_of_lt harrival.2)]
      refine .inl ⟨_, rfl, ⟨g', hg', rfl⟩, h.idx, hreaches, fun l hl => ?_⟩
      rcases Nat.le_succ_iff.mp hl with hle | heq
      · exact h.ints l hle
      · exact heq ▸ harrival
    · refine .inr ⟨?_, fun hround => harrival (hround (m + 1) hm hreaches).1⟩
      by_cases hint : ((legs gas cost).take (m + 1)).sum + g' ≤ intMax
      · have hcounter : ¬m + 1 + 1 ≤ intMax := fun hlt => harrival ⟨by rwa [hg'], hlt⟩
        rw [if_pos hint, Option.bind_some, if_neg hcounter]
        rfl
      · rw [if_neg hint]
        rfl

theorem reached_zero (hg : gas[0]? = some g) (hgas : Nonneg gas) (i : ℕ) :
    Reached gas cost i 0 (g, i) := by
  refine ⟨⟨g, hg, (zero_add g).symm⟩, rfl, ?_, ?_⟩
  · intro l hl
    rw [Nat.le_zero.mp hl]
    exact le_rfl
  · intro l hl
    rw [Nat.le_zero.mp hl]
    have hle := (hgas g (List.mem_of_getElem? hg)).2
    exact ⟨by simpa [hg] using hle, by decide⟩

theorem drive_loop (hlen : gas.length = cost.length) (hgas : Nonneg gas) (hcost : Nonneg cost)
    (hg : gas[0]? = some g) (i : ℕ) :
    (∃ st, forIn (List.range' 1 (gas.length - 1)) (g, (i : ℤ)) (driveStep gas cost) = some st ∧
      ((∃ m, Stranded gas cost m st) ∨ Reached gas cost i (gas.length - 1) st)) ∨
    forIn (List.range' 1 (gas.length - 1)) (g, (i : ℤ)) (driveStep gas cost) = none ∧
      ¬RoundInt gas cost := by
  have hrun := forIn_until_or_none
    (P := fun t st => Reached gas cost i t.length st) (Q := fun st => ∃ m, Stranded gas cost m st)
    (R := ¬RoundInt gas cost) [] (List.range' 1 (gas.length - 1)) (fun t j st ht hst => by
      obtain ⟨rfl, hlt⟩ := eq_add_length_of_prefix_range' ht
      rw [List.length_append]
      exact hst.driveStep hlen hgas hcost (by omega)) (g, (i : ℤ)) (reached_zero hg hgas i)
  rwa [List.nil_append, List.length_range'] at hrun

/-- A round that ends dry behind station `m` has come past no other overflow. -/
theorem Stranded.roundInt_iff {st : ℤ × ℤ} (h : Stranded gas cost m st) :
    RoundInt gas cost ↔ DryInt gas cost m := by
  constructor
  · intro hround
    exact (hround m (Nat.lt_of_succ_lt h.lt) h.solvent).2
  · intro hdry l _ hl
    have hneg : ((legs gas cost).take (m + 1)).sum < 0 := h.tank ▸ h.dry
    have hle : l ≤ m := by
      by_contra hlt
      exact absurd (hl (m + 1) (by omega)) (not_le.mpr hneg)
    refine ⟨h.ints l hle, fun _ hsum => ?_⟩
    obtain rfl : l = m := by
      by_contra hne
      exact absurd (h.solvent (l + 1) (by omega)) (not_le.mpr hsum)
    exact hdry h.lt hneg

theorem Reached.roundInt {st : ℤ × ℤ} (h : Reached gas cost i (gas.length - 1) st) :
    RoundInt gas cost := by
  intro l hl _
  refine ⟨h.ints l (by omega), fun hlt hsum => ?_⟩
  exact absurd (h.solvent (l + 1) (by omega)) (not_le.mpr hsum)

/-- The round from the station in front tells whether one is possible, or something overflows. -/
theorem drive_or_none (hlen : gas.length = cost.length) (hne : gas ≠ []) (hgas : Nonneg gas)
    (hcost : Nonneg cost) (i : ℕ) :
    (∃ tank, drive gas cost i = some (tank, if tank < 0 then -1 else (i : ℤ)) ∧
      (0 ≤ tank ↔ Solvent (legs gas cost)) ∧ RoundInt gas cost) ∨
    drive gas cost i = none ∧ ¬RoundInt gas cost := by
  have hpos : 0 < gas.length := List.length_pos_iff.mpr hne
  have hg : gas[0]? = some gas[0] := List.getElem?_eq_getElem hpos
  obtain ⟨c, hc⟩ : ∃ c, cost[gas.length - 1]? = some c :=
    ⟨_, List.getElem?_eq_getElem (by omega)⟩
  unfold drive
  rw [hg, Option.bind_eq_bind, Option.bind_some]
  rcases drive_loop hlen hgas hcost hg i with ⟨⟨tank, idx⟩, hrun, hend⟩ | ⟨hrun, hround⟩
  · simp only [hrun, hc, Option.bind_eq_bind, Option.bind_some, Option.pure_def]
    rcases hend with ⟨m, hstranded⟩ | hreached
    · have hneg : tank < 0 := hstranded.dry
      have htank : tank = _ := hstranded.tank
      have hcnonneg := hcost c (List.mem_of_getElem? hc)
      rw [hstranded.roundInt_iff]
      by_cases hint : -intMax - 1 ≤ tank - c
      · have hlast : tank - c < 0 := by omega
        rw [int?_of_isInt ⟨hint, by omega⟩, Option.bind_some]
        refine .inl ⟨tank - c, by rw [if_pos hlast, if_pos hlast], ?_, fun _ _ => ?_⟩
        · refine iff_of_false (not_le.mpr hlast) fun hsolvent => ?_
          exact absurd (hsolvent (m + 1)) (not_le.mpr (htank ▸ hneg))
        · rwa [hc, Option.getD_some, ← htank]
      · rw [int?_of_not_isInt fun h => hint h.1]
        refine .inr ⟨rfl, fun hdry => hint ?_⟩
        have hle := hdry hstranded.lt (htank ▸ hneg)
        rwa [hc, Option.getD_some, ← htank] at hle
    · have hidx : idx = i := hreached.idx
      have hall : gas.length - 1 + 1 = gas.length := by omega
      rw [hreached.sub_cost hgas hcost hc, Option.bind_some, hall, hidx]
      refine .inl ⟨_, rfl, ?_, hreached.roundInt⟩
      rw [solvent_iff (legs_length hlen)]
      constructor
      · intro hlast l hl
        rcases hl.eq_or_lt with heq | hlt
        · exact heq ▸ hlast
        · exact hreached.solvent l (by omega)
      · intro hs
        exact hs gas.length le_rfl
  · rw [hrun]
    exact .inr ⟨rfl, hround⟩

/-! ### The search -/

theorem rotateLast_rotate (h : v.length = n) (hk : k < n) :
    rotateLast (v.rotate (n - k)) = v.rotate (n - (k + 1)) := by
  unfold rotateLast
  rw [List.length_rotate, h, List.rotate_rotate, ← List.rotate_mod v (n - (k + 1)), h,
    ← Nat.add_mod_right, ← h, List.rotate_mod]
  congr 1
  omega

theorem placesBefore_lt (hn : 0 < n) (k : ℕ) : placesBefore n k < n := Nat.mod_lt _ hn

/-- Every station is some number of places before the first one. -/
theorem exists_placesBefore (hs : s < n) : ∃ k < n, placesBefore n k = s := by
  unfold placesBefore
  rcases Nat.eq_zero_or_pos s with h0 | hpos
  · exact ⟨0, by omega, by rw [Nat.sub_zero, Nat.mod_self, h0]⟩
  · exact ⟨n - s, by omega, by rw [Nat.sub_sub_self hs.le, Nat.mod_eq_of_lt hs]⟩

theorem feasible_placesBefore (hlen : gas.length = cost.length) (hne : gas ≠ []) :
    Feasible gas cost (placesBefore gas.length k) ↔
      Solvent (legs (gas.rotate (gas.length - k)) (cost.rotate (gas.length - k))) := by
  have hlegs : legs (gas.rotate (gas.length - k)) (cost.rotate (gas.length - k)) =
      (legs gas cost).rotate (placesBefore gas.length k) := by
    have hmod := List.rotate_mod (legs gas cost) (gas.length - k)
    rw [legs_length hlen] at hmod
    unfold placesBefore
    rw [hmod]
    exact (List.zipWith_rotate_distrib _ gas cost _ hlen).symm
  rw [hlegs]
  exact and_iff_right (placesBefore_lt (List.length_pos_iff.mpr hne) k)

/-- The first `k` tries have failed. -/
structure Tried (gas cost : List ℤ) (k : ℕ) (st : List ℤ × List ℤ × ℤ) : Prop where
  gas_eq : st.1 = gas.rotate (gas.length - k)
  cost_eq : st.2.1 = cost.rotate (gas.length - k)
  idx : k ≠ 0 → st.2.2 = -1
  failed : ∀ j < k, ¬Feasible gas cost (placesBefore gas.length j)
  ints : ∀ j < k, TryInt gas cost j

/-- The first try that did not fail is the answer. -/
structure Stopped (gas cost : List ℤ) (k : ℕ) (idx : ℤ) : Prop where
  lt : k < gas.length
  idx : idx = k
  feasible : Feasible gas cost (placesBefore gas.length k)
  failed : ∀ j < k, ¬Feasible gas cost (placesBefore gas.length j)
  ints : ∀ j ≤ k, TryInt gas cost j

theorem Stopped.triesInt (h : Stopped gas cost k idx) : TriesInt gas cost := by
  intro j _ hfirst
  refine h.ints j ?_
  by_contra hlt
  exact hfirst k (not_le.mp hlt) h.feasible

theorem tried_zero (hlen : gas.length = cost.length) (idx : ℤ) :
    Tried gas cost 0 (gas, cost, idx) := by
  refine ⟨?_, ?_, fun h => absurd rfl h, nofun, nofun⟩
  · exact (List.rotate_length gas).symm
  · rw [hlen]
    exact (List.rotate_length cost).symm

theorem Nonneg.rotate (h : Nonneg v) (m : ℕ) : Nonneg (v.rotate m) :=
  fun x hx => h x (List.mem_rotate.mp hx)

theorem Tried.searchStep {st : List ℤ × List ℤ × ℤ} (h : Tried gas cost k st)
    (hlen : gas.length = cost.length) (hgas : Nonneg gas) (hcost : Nonneg cost)
    (hk : k < gas.length) :
    (∃ st', Oj.searchStep k st = some (.done st') ∧ ∃ k, Stopped gas cost k st'.2.2) ∨
      (∃ st', Oj.searchStep k st = some (.yield st') ∧ Tried gas cost (k + 1) st') ∨
      Oj.searchStep k st = none ∧ ¬TriesInt gas cost := by
  obtain ⟨gas', cost', idx⟩ := st
  obtain rfl : gas' = _ := h.gas_eq
  obtain rfl : cost' = _ := h.cost_eq
  have hne : gas ≠ [] := List.ne_nil_of_length_pos (by omega)
  have hdrive := drive_or_none
    (by rw [List.length_rotate, List.length_rotate, hlen] :
      (gas.rotate (gas.length - k)).length = (cost.rotate (gas.length - k)).length)
    (by rwa [ne_eq, List.rotate_eq_nil_iff]) (hgas.rotate _) (hcost.rotate _) k
  rw [← feasible_placesBefore hlen hne] at hdrive
  have hupTo : ∀ j ≤ k, TryInt gas cost k → TryInt gas cost j := by
    intro j hj htry
    rcases hj.lt_or_eq with hlt | heq
    · exact h.ints j hlt
    · exact heq ▸ htry
  unfold Oj.searchStep
  rcases hdrive with ⟨tank, hdrive, htank, hround⟩ | ⟨hdrive, hround⟩
  · simp only [hdrive, Option.bind_eq_bind, Option.bind_some, Option.pure_def]
    by_cases hnonneg : 0 ≤ tank
    · have hfeasible := htank.mp hnonneg
      rw [if_pos hnonneg, if_neg (not_lt.mpr hnonneg)]
      exact .inl ⟨_, rfl, k, hk, rfl, hfeasible, h.failed,
        fun j hj => hupTo j hj ⟨hround, fun hnot => absurd hfeasible hnot⟩⟩
    · have hnot : ¬Feasible gas cost (placesBefore gas.length k) := fun hf => hnonneg (htank.mpr hf)
      rw [if_neg hnonneg, if_pos (not_le.mp hnonneg), nat?]
      right
      by_cases hlt : k + 1 ≤ intMax
      · rw [if_pos hlt]
        refine .inl ⟨_, rfl, rotateLast_rotate rfl hk, rotateLast_rotate hlen.symm hk,
          fun _ => rfl, ?_, fun j hj => hupTo j (Nat.le_of_lt_succ hj) ⟨hround, fun _ => hlt⟩⟩
        intro j hj
        rcases Nat.lt_succ_iff_lt_or_eq.mp hj with hlt | heq
        · exact h.failed j hlt
        · exact heq ▸ hnot
      · rw [if_neg hlt]
        exact .inr ⟨rfl, fun htries => hlt ((htries k hk h.failed).2 hnot)⟩
  · simp only [hdrive]
    exact .inr (.inr ⟨rfl, fun htries => hround (htries k hk h.failed).1⟩)

/-- The search ends with the first try that does not fail or with none, or something overflows. -/
theorem gasStantion_or_none (hlen : gas.length = cost.length) (hne : gas ≠ [])
    (hgas : Nonneg gas) (hcost : Nonneg cost) :
    (∃ idx, gasStantion gas cost = some idx ∧ TriesInt gas cost ∧
      ((∃ k, Stopped gas cost k idx) ∨ idx = -1 ∧ ∀ s, ¬Feasible gas cost s)) ∨
    gasStantion gas cost = none ∧ ¬TriesInt gas cost := by
  have hpos : 0 < gas.length := List.length_pos_iff.mpr hne
  have hsearch := forIn_until_or_none
    (P := fun t st => Tried gas cost t.length st) (Q := fun st => ∃ k, Stopped gas cost k st.2.2)
    (R := ¬TriesInt gas cost) [] (List.range gas.length) (fun t i st ht hst => by
      obtain ⟨rfl, hlt⟩ := eq_length_of_prefix_range ht
      rw [List.length_append]
      exact hst.searchStep hlen hgas hcost hlt) (gas, cost, 0) (tried_zero hlen 0)
  unfold gasStantion
  rcases hsearch with ⟨⟨gas', cost', idx⟩, hrun, hend⟩ | ⟨hrun, htries⟩
  · rw [hrun]
    refine .inl ⟨idx, rfl, ?_⟩
    rcases hend with ⟨k, hstopped⟩ | htried
    · exact ⟨hstopped.triesInt, .inl ⟨k, hstopped⟩⟩
    · rw [List.nil_append, List.length_range] at htried
      refine ⟨fun k hk _ => htried.ints k hk, .inr ⟨htried.idx hpos.ne', ?_⟩⟩
      intro s hs
      obtain ⟨k, hk, hplaces⟩ := exists_placesBefore hs.1
      exact htried.failed k hk (hplaces ▸ hs)
  · rw [hrun]
    exact .inr ⟨rfl, htries⟩

/-- The answer counts the stations on the way back, so that, where nothing overflows, it is right
exactly when the station as many places on the way forth is feasible too. -/
theorem gasStantion_finds_iff (gas cost : List ℤ) (hlen : gas.length = cost.length)
    (hne : gas ≠ []) (hgas : Nonneg gas) (hcost : Nonneg cost) :
    (∃ idx, gasStantion gas cost = some idx ∧ Finds gas cost idx) ↔
      TriesInt gas cost ∧
      ∀ k < gas.length, Feasible gas cost (placesBefore gas.length k) →
        (∀ j < k, ¬Feasible gas cost (placesBefore gas.length j)) → Feasible gas cost k := by
  rcases gasStantion_or_none hlen hne hgas hcost with ⟨idx, hrun, htries, hend⟩ | ⟨hrun, htries⟩
  · rw [and_iff_right htries]
    constructor
    · intro h m hm hm' hfirst'
      obtain ⟨idx', hrun', hfinds⟩ := h
      obtain rfl : idx = idx' := Option.some.inj (hrun.symm.trans hrun')
      obtain ⟨s, hs, hstation⟩ := hfinds.1 ⟨_, hm'⟩
      rcases hend with ⟨k, hstopped⟩ | ⟨-, hnone⟩
      · -- there is only one first station
        have hmk : m = k := by
          by_contra hdiff
          rcases Nat.lt_or_gt_of_ne hdiff with hlt | hlt
          · exact hstopped.failed m hlt hm'
          · exact hfirst' k hlt hstopped.feasible
        rw [hmk, Int.natCast_inj.mp (hstopped.idx.symm.trans hs)]
        exact hstation
      · exact absurd hm' (hnone _)
    · intro hcond
      refine ⟨idx, hrun, ?_⟩
      rcases hend with ⟨k, hstopped⟩ | ⟨hidx, hnone⟩
      · have hfeasible := hcond k hstopped.lt hstopped.feasible hstopped.failed
        have hidx := hstopped.idx
        refine ⟨fun _ => ⟨k, hidx, hfeasible⟩, ?_⟩
        exact iff_of_false (by omega) (not_not_intro ⟨_, hfeasible⟩)
      · have hnot : ¬∃ s, Feasible gas cost s := fun ⟨s, hs⟩ => hnone s hs
        exact ⟨fun h => absurd h hnot, iff_of_true hidx hnot⟩
  · refine iff_of_false ?_ fun h => htries h.1
    rw [hrun]
    intro h
    obtain ⟨idx, hrun', -⟩ := h
    cases hrun'

theorem gasStantion_finds_iff_five : ∃ idx, gasStantion [4, 1, 3, 6, 1] [2, 4, 2, 2, 3] = some idx ∧
    Finds [4, 1, 3, 6, 1] [2, 4, 2, 2, 3] idx :=
  (gasStantion_finds_iff [4, 1, 3, 6, 1] [2, 4, 2, 2, 3] rfl (by decide) (by decide)
    (by decide)).mpr (by decide)

/-- The answer is 2, and only station 1 is feasible. -/
theorem gasStantion_two_back :
    ¬∃ idx, gasStantion [0, 2, 0] [1, 1, 0] = some idx ∧ Finds [0, 2, 0] [1, 1, 0] idx := by
  intro h
  obtain ⟨idx, hrun, hfinds⟩ := h
  obtain rfl : (2 : ℤ) = idx := Option.some.inj ((by decide : some (2 : ℤ) = _).trans hrun)
  obtain ⟨s, hs, hstation⟩ := hfinds.1 ⟨1, by decide⟩
  rw [← Int.natCast_inj.mp hs] at hstation
  exact absurd hstation (by decide)

end CppTricks.Oj
