import CppTricks.Foundation.FixedWidth
import CppTricks.Knapsack.Table

/-! The recursions and the loops over the table in `int`, where `none` also propagates overflow. -/
namespace CppTricks.Knapsack
open Foundation

/-- The fields are ints, and none is negative. -/
def Item.Nonneg (item : Item) : Prop :=
  (0 ≤ item.v ∧ item.v ≤ intMax) ∧ 0 ≤ item.w ∧ item.w ≤ intMax

instance (item : Item) : Decidable item.Nonneg := inferInstanceAs (Decidable (_ ∧ _))

def knapSackExp? : ℤ → ℕ → List Item → Option ℤ
  | _, 0, _ => some 0
  | wBound, n + 1, items =>
    if wBound = 0 then some 0
    else do
      let item ← items[n]?
      if item.w > wBound then knapSackExp? wBound n items
      else
        let left ← int? (wBound - item.w)
        let included ← knapSackExp? left n items
        let sum ← int? (included + item.v)
        let excluded ← knapSackExp? wBound n items
        return max sum excluded

def knapSack? : ℤ → List ℤ → List ℤ → ℕ → Option ℤ
  | _, _, _, 0 => some 0
  | W, wt, val, n + 1 =>
    if W = 0 then some 0
    else do
      let wtN ← wt[n]?
      if wtN > W then knapSack? W wt val n
      else
        let left ← int? (W - wtN)
        let included ← knapSack? left wt val n
        let valN ← val[n]?
        let sum ← int? (included + valN)
        let excluded ← knapSack? W wt val n
        return max sum excluded

def fillCell? (items : List Item) (A : Grid ℤ) (i x : ℕ) : Option (Grid ℤ) := do
  let item ← items[i]?
  let _ ← int? (x - item.w)
  let (wBoundary, v) := reroute item x
  let invalid ← A.cell (i - 1) x
  let valid ← A.cell (i - 1) wBoundary.toNat
  let sum ← int? (valid + v)
  A.write i x (max invalid sum)

/-- The loops over `i` and `x`. A number of items that turns negative as an `int` is no size of a
vector, and `W + 1` is an `int` as well. -/
def fillTable? (W : ℕ) (items : List Item) (body : Grid ℤ → ℕ → ℕ → Option (Grid ℤ)) :
    Option (Grid ℤ) := do
  let N := toInt items.length
  let width ← nat? (W + 1)
  if N < 0 then none
  else
    (List.range' 1 (N.toNat - 1)).foldlM
      (fun A i => (List.range width).foldlM (fun A x => body A i x) A)
      (List.replicate N.toNat (List.replicate width 0))

def knapsackProblem? (W : ℕ) (items : List Item) : Option (Grid ℤ) :=
  fillTable? W items (fillCell? items)

/-- Every selection that fits is worth an `int`. -/
def WorthInt (items : List Item) (K : Finset ℕ) (x : ℤ) : Prop :=
  ∀ S, Fits (weight items) K x S → ∑ i ∈ S, value items i ≤ intMax

variable {items : List Item} {item : Item} {wBound m : ℤ} {i n x W : ℕ} {K : Finset ℕ}

/-! ### The recursions -/

/-- The array twin computes the same on the fields of the items. -/
theorem knapSack?_eq_knapSackExp? (W : ℤ) (items : List Item) (n : ℕ) :
    knapSack? W (items.map Item.w) (items.map Item.v) n = knapSackExp? W n items := by
  induction n generalizing W with
  | zero =>
    unfold knapSack? knapSackExp?
    rfl
  | succ n ih =>
    unfold knapSack? knapSackExp?
    rw [List.getElem?_map, List.getElem?_map]
    cases items[n]? with
    | none => rfl
    | some item => simp [ih]

theorem knapSackExp_nonneg (h : knapSackExp wBound n items = some m) : 0 ≤ m := by
  induction n generalizing wBound m with
  | zero =>
    rw [knapSackExp_idx_zero] at h
    exact (Option.some.inj h).le
  | succ n ih =>
    by_cases hw : wBound = 0
    · rw [hw, knapSackExp_wBound_zero] at h
      exact (Option.some.inj h).le
    · rw [knapSackExp, if_neg hw] at h
      obtain ⟨item, hi, h⟩ := Option.bind_eq_some_iff.mp h
      split at h
      · exact ih h
      · obtain ⟨included, -, h⟩ := Option.bind_eq_some_iff.mp h
        obtain ⟨excluded, hexcluded, h⟩ := Option.bind_eq_some_iff.mp h
        rw [← Option.some.inj h]
        exact le_max_of_le_right (ih hexcluded)

/-- The greater of a sum and a number is an `int` exactly when both are. -/
private theorem int?_max {x v y : ℤ} (hx : 0 ≤ x) (hv : 0 ≤ v) (hy : 0 ≤ y) :
    (do
      let included ← int? x
      let sum ← int? (included + v)
      let excluded ← int? y
      return max sum excluded) = int? (max (x + v) y) := by
  rw [int?_of_nonneg hx, int?_of_nonneg hy, int?_of_nonneg (le_max_of_le_right hy)]
  by_cases hsum : x + v ≤ intMax
  · have hxle : x ≤ intMax := by omega
    rw [if_pos hxle, Option.bind_eq_bind, Option.bind_some, int?_of_nonneg (add_nonneg hx hv),
      if_pos hsum, Option.bind_some]
    by_cases hle : y ≤ intMax
    · rw [if_pos hle, if_pos (max_le hsum hle)]
      rfl
    · rw [if_neg hle, if_neg fun h => hle ((le_max_right _ _).trans h)]
      rfl
  · rw [if_neg (c := max (x + v) y ≤ intMax) fun h => hsum ((le_max_left _ _).trans h)]
    by_cases hxle : x ≤ intMax
    · rw [if_pos hxle, Option.bind_eq_bind, Option.bind_some, int?_of_nonneg (add_nonneg hx hv),
        if_neg hsum]
      rfl
    · rw [if_neg hxle]
      rfl

/-- Refinement includes overflow: the recursion is defined exactly where its exact result is an
`int`. -/
theorem knapSackExp?_eq (hitems : ∀ item ∈ items, item.Nonneg) (hn : n ≤ items.length)
    (hw : 0 ≤ wBound) (hint : wBound ≤ intMax) :
    knapSackExp? wBound n items = (knapSackExp wBound n items).bind int? := by
  induction n generalizing wBound with
  | zero =>
    rw [knapSackExp_idx_zero]
    rfl
  | succ n ih =>
    by_cases hzero : wBound = 0
    · rw [hzero, knapSackExp_wBound_zero, knapSackExp?, if_pos rfl]
      rfl
    · have hi : items[n]? = some items[n] := List.getElem?_eq_getElem hn
      have hitem := hitems items[n] (List.getElem_mem hn)
      rw [knapSackExp?, if_neg hzero, hi, Option.bind_eq_bind, Option.bind_some]
      by_cases h : items[n].w > wBound
      · rw [if_pos h, ih (by omega) hw hint, knapSackExp_of_lt hzero hi h]
      · have hle := not_lt.mp h
        have hweight := hitem.2.1
        obtain ⟨x, hx⟩ := exists_knapSackExp (Nat.le_of_succ_le hn) (wBound - items[n].w)
        obtain ⟨y, hy⟩ := exists_knapSackExp (Nat.le_of_succ_le hn) wBound
        have hleft : int? (wBound - items[n].w) = some (wBound - items[n].w) :=
          int?_eq_some (by omega) (by omega)
        rw [if_neg h, hleft, Option.bind_eq_bind, Option.bind_some,
          ih (by omega) (by omega) (by omega), ih (by omega) hw hint,
          knapSackExp_of_le hzero hi hle hx hy, hx, hy]
        exact int?_max (knapSackExp_nonneg hx) hitem.1.1 (knapSackExp_nonneg hy)

/-! ### The table -/

section FillTable

variable {body : Grid ℤ → ℕ → ℕ → Option (Grid ℤ)} {A : Grid ℤ} {P Q : ℕ → ℕ → ℤ → Prop}

/-- A table whose sizes are ints is filled, or a step of its loops fails. -/
theorem fillTable?_or_none {R : Prop} (hlen : items.length ≤ intMax) (hW : W < intMax)
    (hbody : ∀ A i x, 1 ≤ i → i < items.length → x < W + 1 →
      Grid.Filled items.length (W + 1) P Q i x A →
      (∃ c, body A i x = A.write i x c ∧ P i x c) ∨ body A i x = none ∧ R)
    (hP : ∀ x, P 0 x 0) (hQ : ∀ i x, Q i x 0) :
    (∃ A, fillTable? W items body = some A ∧ ∀ i x, i < items.length → x < W + 1 →
      ∃ m, A.cell i x = some m ∧ P i x m) ∨ fillTable? W items body = none ∧ R := by
  have hzero : ¬ toInt items.length < 0 := by
    rw [toInt_eq hlen]
    omega
  unfold fillTable?
  rw [nat?_eq_some (show W + 1 ≤ intMax by omega), Option.bind_eq_bind, Option.bind_some,
    if_neg hzero, toInt_eq hlen, Int.toNat_natCast]
  apply Grid.Filled.rows_or_none hbody
  intro j y hj hy
  refine ⟨0, Grid.cell_replicate hj hy 0, fun hbefore => ?_, fun _ => hQ j y⟩
  obtain rfl : j = 0 := by
    unfold Grid.Before at hbefore
    omega
  exact hP y

/-- A table with a row for every item has sizes that are ints. -/
theorem sizes_of_fillTable? (hbody : ∀ A i x A', body A i x = some A' → A'.length = A.length)
    (h : fillTable? W items body = some A) (hcell : A.cell (items.length - 1) W = some m) :
    items.length ≤ intMax ∧ W < intMax := by
  unfold fillTable? at h
  obtain ⟨width, hwidth, h⟩ := Option.bind_eq_some_iff.mp h
  have hW : W + 1 ≤ intMax := (Option.ite_none_right_eq_some.mp hwidth).1
  rw [Option.ite_none_left_eq_some] at h
  have hrows : A.length = (toInt items.length).toNat := by
    refine foldlM_preserves (P := fun B : Grid ℤ => B.length = (toInt items.length).toNat)
      ?_ h.2 List.length_replicate
    intro B i B' hB' hB
    exact foldlM_preserves (P := fun B : Grid ℤ => B.length = (toInt items.length).toNat)
      (fun B x B' hx hB => (hbody B i x B' hx).trans hB) hB' hB
  refine ⟨?_, hW⟩
  by_contra hlen
  have hlt := toInt_lt (not_le.mp hlen)
  rw [Grid.cell_of_length_le (by omega)] at hcell
  cases hcell

end FillTable

theorem length_fillCell? {A A' : Grid ℤ} (h : fillCell? items A i x = some A') :
    A'.length = A.length := by
  unfold fillCell? at h
  obtain ⟨item, -, h⟩ := Option.bind_eq_some_iff.mp h
  obtain ⟨_, -, h⟩ := Option.bind_eq_some_iff.mp h
  obtain ⟨invalid, -, h⟩ := Option.bind_eq_some_iff.mp h
  obtain ⟨valid, -, h⟩ := Option.bind_eq_some_iff.mp h
  obtain ⟨sum, -, h⟩ := Option.bind_eq_some_iff.mp h
  exact Grid.length_write h

theorem WorthInt.mono {L : Finset ℕ} (h : WorthInt items L W) (hK : K ⊆ L) (hx : x ≤ W) :
    WorthInt items K x :=
  fun S hS => h S (hS.mono hK (Int.ofNat_le.mpr hx))

theorem worthInt_of_sum_le (hitems : ∀ item ∈ items, item.Nonneg)
    (hsum : ∑ i ∈ K, value items i ≤ intMax) : WorthInt items K wBound := by
  intro S hS
  refine (Finset.sum_le_sum_of_subset_of_nonneg hS.1 fun i _ _ => ?_).trans hsum
  unfold value
  cases hi : items[i]? with
  | none => exact le_rfl
  | some item => exact (hitems item (List.mem_of_getElem? hi)).1.1

theorem row_subset_row {j : ℕ} (h : i ≤ j) : row i ⊆ row j := Finset.Icc_subset_Icc_right h

theorem Optimum.le_intMax_iff (h : Optimum items K x m) : m ≤ intMax ↔ WorthInt items K x := by
  constructor
  · intro hle S hS
    exact (h.le hS).trans hle
  · intro hworth
    obtain ⟨S, hS, rfl⟩ := h.exists
    exact hworth S hS

theorem int?_sub_weight (hitem : item.Nonneg) (hx : x ≤ intMax) :
    int? (x - item.w) = some (x - item.w) := by
  have hw := hitem.2
  exact int?_eq_some (by omega) (by omega)

/-- The table has the optimum in every cell, or some selection that fits is worth no `int`. -/
theorem knapsackProblem?_or_none (hitems : ∀ item ∈ items, item.Nonneg)
    (hlen : items.length ≤ intMax) (hW : W < intMax) :
    (∃ A, knapsackProblem? W items = some A ∧ ∀ i x, i < items.length → x < W + 1 →
      ∃ m, A.cell i x = some m ∧ Optimum items (row i) x m ∧ m ≤ intMax) ∨
    knapsackProblem? W items = none ∧ ¬ WorthInt items (row (items.length - 1)) W := by
  refine fillTable?_or_none (P := fun i x m => Optimum items (row i) x m ∧ m ≤ intMax)
    (Q := fun _ _ _ => True) hlen hW ?_ ?_ fun _ _ => trivial
  · intro A i x hi hiN hx hA
    obtain ⟨i, rfl⟩ : ∃ j, i = j + 1 := ⟨i - 1, by omega⟩
    have hw : ∀ item ∈ items, 0 ≤ item.w := fun item hmem => (hitems item hmem).2.1
    obtain ⟨item, invalid, valid, hget, hinvalid, hvalid, hnonneg, hopt⟩ :=
      exists_reads (x := x) hw hiN fun y hy => by
        obtain ⟨m, hm, hopt, -⟩ := hA i y (by omega) (by omega)
        exact ⟨m, hm, (hopt (.inl (Nat.lt_succ_self i))).1⟩
    have hitem := hitems item (List.mem_of_getElem? hget)
    have hleft := int?_sub_weight hitem (x := x) (by omega)
    have hv := reroute_nonneg hitem.1.1 x
    have hbody : fillCell? items A (i + 1) x =
        (int? (valid + (reroute item x).2)).bind fun sum =>
          A.write (i + 1) x (max invalid sum) := by
      unfold fillCell?
      simp [hget, hleft, hinvalid, hvalid]
    rw [hbody, int?_of_nonneg (add_nonneg hnonneg hv)]
    by_cases hsum : valid + (reroute item x).2 ≤ intMax
    · rw [if_pos hsum]
      obtain ⟨m, hm, habove, -⟩ := hA i x (by omega) hx
      obtain rfl : invalid = m := Option.some.inj (hinvalid.symm.trans hm)
      exact .inl ⟨_, rfl, hopt, max_le (habove (.inl (Nat.lt_succ_self i))).2 hsum⟩
    · rw [if_neg hsum]
      refine .inr ⟨rfl, fun hworth => hsum ?_⟩
      have hrow : WorthInt items (row (i + 1)) x :=
        hworth.mono (row_subset_row (by omega)) (Nat.le_of_lt_succ hx)
      exact (le_max_right _ _).trans (hopt.le_intMax_iff.mpr hrow)
  · intro x
    exact ⟨optimum_row_zero items x, by decide⟩

theorem insert_zero_row (n : ℕ) : insert 0 (row n) = Finset.range (n + 1) := by
  ext i
  simp only [row, Finset.mem_insert, Finset.mem_Icc, Finset.mem_range]
  omega

/-- With the guard at entry 0 the optimum over the other items is the optimum over all. -/
theorem Optimum.of_guard (h : Optimum items (row i) x m) (hguard : items[0]? = some ⟨0, 0⟩) :
    Optimum items (Finset.range (i + 1)) x m := by
  rw [← insert_zero_row]
  apply Best.insert_of_worthless h
  · rw [weight_eq hguard]
  · rw [value_eq hguard]

/-- Where the best selection is worth an `int`, the recursion and its array twin find it if the room
suffices, and the table's last cell is the optimum over all items but entry 0. -/
theorem knapSackExp_optimal (items : List Item) (W : ℕ) (hitems : ∀ item ∈ items, item.Nonneg)
    (hlen : items.length ≤ intMax) (hW : W ≤ intMax)
    (hworth : WorthInt items (Finset.range items.length) W) :
    ((∀ item ∈ items, item.w = 0 → item.v = 0) → RoomSuffices items W) ∧
    (∃ m, knapSackExp? W items.length items = some m ∧
      knapSack? W (items.map Item.w) (items.map Item.v) items.length = some m ∧
      (RoomSuffices items W → Optimum items (Finset.range items.length) W m)) ∧
    (0 < items.length → W < intMax → ∃ A t, knapsackProblem? W items = some A ∧
      A.cell (items.length - 1) W = some t ∧ Optimum items (row (items.length - 1)) W t ∧
      (RoomSuffices items W → items[0]? = some ⟨0, 0⟩ →
        knapSackExp? W items.length items = some t)) := by
  have hw : ∀ item ∈ items, 0 ≤ item.w := fun item hmem => (hitems item hmem).2.1
  have hnonneg : (0 : ℤ) ≤ W := Int.natCast_nonneg W
  obtain ⟨m, hm, hbest⟩ := knapSackExp_best hw (Nat.le_refl items.length) hnonneg
  have hrun : knapSackExp? W items.length items = some m := by
    obtain ⟨S, hS, hsum⟩ := hbest.exists
    rw [knapSackExp?_eq hitems le_rfl hnonneg (Int.ofNat_le.mpr hW), hm, Option.bind_some,
      int?_of_nonneg (knapSackExp_nonneg hm), if_pos (hsum ▸ hworth S hS.1)]
  have hroom : RoomSuffices items W → Optimum items (Finset.range items.length) W m := by
    intro hroom
    obtain ⟨m', hm', hopt⟩ := (knapSackExp_optimum_iff hw hnonneg).mpr hroom
    obtain rfl : m = m' := Option.some.inj (hm.symm.trans hm')
    exact hopt
  refine ⟨fun hzero => roomSuffices_of_worthless hw hzero hnonneg, ?_, ?_⟩
  · exact ⟨m, hrun, (knapSack?_eq_knapSackExp? W items items.length).trans hrun, hroom⟩
  · intro hpos hlt
    have hrow : row (items.length - 1) ⊆ Finset.range items.length := by
      rw [← Nat.sub_add_cancel hpos, ← insert_zero_row]
      exact Finset.subset_insert 0 _
    obtain ⟨A, hA, hcells⟩ := (knapsackProblem?_or_none hitems hlen hlt).resolve_right
      fun hnone => hnone.2 (hworth.mono hrow le_rfl)
    obtain ⟨t, ht, hopt, -⟩ := hcells (items.length - 1) W (by omega) (Nat.lt_succ_self W)
    refine ⟨A, t, hA, ht, hopt, fun hsuffices hguard => ?_⟩
    have hall := hopt.of_guard hguard
    rw [Nat.sub_add_cancel hpos] at hall
    rw [hrun, (hroom hsuffices).unique hall]

theorem knapSackExp_optimal_getTestItems :
    knapSackExp? 6 5 getTestItems.2 = some 8 ∧
      Optimum getTestItems.2 (Finset.range 5) 6 8 := by
  have hitems : ∀ item ∈ getTestItems.2, item.Nonneg := by decide
  have h := knapSackExp_optimal getTestItems.2 6 hitems (by decide) (by decide)
    (worthInt_of_sum_le hitems (by decide))
  obtain ⟨m, hm, -, hopt⟩ := h.2.1
  have hrun : knapSackExp? 6 5 getTestItems.2 = some 8 := by decide
  obtain rfl : m = 8 := Option.some.inj (hm.symm.trans hrun)
  exact ⟨hrun, hopt (h.1 (by decide))⟩

/-- A weightless item is lost at capacity 0, a total value may be no `int`, and the table does not
see entry 0. -/
theorem knapSackExp_not_optimal :
    (¬ ∃ m, knapSackExp? 0 1 [⟨5, 0⟩] = some m ∧ Optimum [⟨5, 0⟩] (Finset.range 1) 0 m) ∧
      (¬ ∃ m, knapSackExp? 2 2 [⟨2147483647, 1⟩, ⟨1, 1⟩] = some m) ∧
      ¬ ∃ A m, knapsackProblem? 1 [⟨5, 1⟩] = some A ∧ A.cell 0 1 = some m ∧
        knapSackExp? 1 1 [⟨5, 1⟩] = some m := by
  refine ⟨?_, ?_, ?_⟩
  · intro h
    obtain ⟨m, hm, hopt⟩ := h
    obtain rfl : (0 : ℤ) = m := Option.some.inj hm
    have hfits : Fits (weight [⟨5, 0⟩]) (Finset.range 1) 0 {0} := by
      constructor
      · decide
      · decide
    have hle : (5 : ℤ) ≤ 0 := hopt.le hfits
    omega
  · have hrun : knapSackExp? 2 2 [⟨2147483647, 1⟩, ⟨1, 1⟩] = none := by decide
    simp [hrun]
  · intro h
    obtain ⟨A, m, hA, hcell, hm⟩ := h
    obtain rfl : [[0, 0]] = A := Option.some.inj hA
    have hzero : m = 0 := Option.some.inj (hcell.symm.trans rfl)
    have hfive : m = 5 := Option.some.inj (hm.symm.trans (by decide))
    omega

end CppTricks.Knapsack
