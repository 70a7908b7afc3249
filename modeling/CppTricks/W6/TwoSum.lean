import CppTricks.Foundation.Counting
import CppTricks.Foundation.FixedWidth
import CppTricks.Foundation.Inversions
import CppTricks.Foundation.Loops

/-! The two-sum questions of `w6.cc`: `_2sum_naive` over a vector, `q1` over a table. -/
namespace CppTricks.W6
open Foundation

/-! ### `_2sum_naive` -/

/-- `find_if`, where an iterator is what it has in front of it. `none` is a failed predicate. -/
def findIf (p : ℤ → Option Bool) : List ℤ → Option (List ℤ)
  | [] => some []
  | x :: rest => do
    if ← p x then return x :: rest
    findIf p rest

def composeFGx (op1 : ℤ → Bool) (op2 : ℤ → Option ℤ) (x : ℤ) : Option Bool := do
  return op1 (← op2 x)

/-- The loop, from the iterator `at` on. `none` is a sum that is no `int`. -/
def twoSumLoop (target : ℤ) : List ℤ → ℕ → Option ℕ
  | [], countUnique => some countUnique
  | x :: rest, countUnique => do
    let findedIt ← findIf (composeFGx (· = target) fun y => int? (y + x)) (x :: rest)
    twoSumLoop target rest (if findedIt ≠ [] then countUnique + 1 else countUnique)

def twoSumNaive (input : List ℤ) (target : ℤ) : Option ℕ := twoSumLoop target input 0

variable {input rest : List ℤ} {target x y : ℤ} {n : ℕ}

theorem findIf_sum (target : ℤ) (hsum : ∀ y ∈ input, IsInt (y + x)) :
    ∃ findedIt, findIf (composeFGx (· = target) fun y => int? (y + x)) input = some findedIt ∧
      (findedIt ≠ [] ↔ ∃ y ∈ input, y + x = target) := by
  induction input with
  | nil => exact ⟨[], rfl, iff_of_false (fun h => h rfl) (by simp)⟩
  | cons y rest ih =>
    rw [List.forall_mem_cons] at hsum
    obtain ⟨findedIt, hrun, hfound⟩ := ih hsum.2
    have hcompose : composeFGx (· = target) (fun y => int? (y + x)) y =
        some (decide (y + x = target)) := by
      unfold composeFGx
      dsimp only
      rw [int?_of_isInt hsum.1]
      rfl
    rw [findIf, hcompose, Option.bind_eq_bind, Option.bind_some]
    by_cases h : y + x = target
    · rw [decide_eq_true h, if_pos rfl]
      exact ⟨y :: rest, rfl, iff_of_true (List.cons_ne_nil _ _) ⟨y, List.mem_cons_self, h⟩⟩
    · rw [decide_eq_false h, if_neg Bool.false_ne_true, hrun]
      refine ⟨findedIt, rfl, ?_⟩
      rw [hfound, List.exists_mem_cons_iff, or_iff_right h]

/-- An element has at most one partner among different ones. -/
theorem countP_partner (hrest : rest.Nodup) (x target : ℤ) :
    rest.countP (fun y => x + y = target) = if ∃ y ∈ rest, y + x = target then 1 else 0 := by
  have hcount : rest.countP (fun y => x + y = target) = rest.count (target - x) := by
    rw [List.count]
    apply List.countP_congr
    intro y _
    simp only [decide_eq_true_eq, beq_iff_eq]
    omega
  rw [hcount]
  split
  case isTrue h =>
    obtain ⟨y, hy, hxy⟩ := h
    apply List.count_eq_one_of_mem hrest
    rwa [← hxy, Int.add_sub_cancel]
  case isFalse h =>
    apply List.count_eq_zero_of_not_mem
    exact fun hmem => h ⟨target - x, hmem, by omega⟩

/-- Besides the pairs, every element is counted that gives the target with itself. -/
theorem twoSumLoop_eq (hnodup : input.Nodup)
    (hsum : ∀ x ∈ input, ∀ y ∈ input, IsInt (x + y)) (n : ℕ) :
    twoSumLoop target input n = some (n + (pairCount (fun x y => x + y = target) input +
      input.countP fun x => x + x = target)) := by
  induction input generalizing n with
  | nil => rfl
  | cons x rest ih =>
    rw [List.nodup_cons] at hnodup
    have hrest : ∀ x ∈ rest, ∀ y ∈ rest, IsInt (x + y) := fun x hx y hy =>
      hsum x (List.mem_cons_of_mem _ hx) y (List.mem_cons_of_mem _ hy)
    have hfirst : ∀ y ∈ x :: rest, IsInt (y + x) := fun y hy => hsum y hy x List.mem_cons_self
    obtain ⟨findedIt, hrun, hfound⟩ := findIf_sum target hfirst
    rw [List.exists_mem_cons_iff] at hfound
    have hself : x + x = target → ¬∃ y ∈ rest, y + x = target := by
      rintro hxx ⟨y, hy, hxy⟩
      obtain rfl : y = x := by omega
      exact hnodup.1 hy
    rw [twoSumLoop, hrun, Option.bind_eq_bind, Option.bind_some, ih hnodup.2 hrest,
      pairCount_cons, countP_partner hnodup.2, List.countP_cons]
    simp only [hfound, decide_eq_true_eq]
    by_cases hxx : x + x = target
    · rw [if_pos (.inl hxx), if_neg (hself hxx), if_pos hxx]
      congr 1
      omega
    · simp only [or_iff_right hxx, if_neg hxx]
      split <;> congr 1 <;> omega

/-- The first sum of every round is that of an element with itself. -/
theorem twoSumLoop_eq_none (hx : x ∈ input) (hself : ¬IsInt (x + x)) (n : ℕ) :
    twoSumLoop target input n = none := by
  induction input generalizing n with
  | nil => exact absurd hx List.not_mem_nil
  | cons y rest ih =>
    rw [twoSumLoop]
    rcases List.mem_cons.mp hx with rfl | hmem
    · rw [findIf, composeFGx, int?_of_not_isInt hself]
      rfl
    · cases findIf (composeFGx (· = target) fun z => int? (z + y)) (y :: rest) with
      | none => rfl
      | some findedIt => exact ih hmem _

/-- The pairs are counted right exactly if no element gives the target with itself, or a sum with
itself that is no `int`. -/
theorem twoSumNaive_iff (input : List ℤ) (target : ℤ) (hnodup : input.Nodup)
    (hsum : ∀ x ∈ input, ∀ y ∈ input, x ≠ y → IsInt (x + y)) :
    twoSumNaive input target = some (pairCount (fun x y => x + y = target) input) ↔
      ∀ x ∈ input, x + x ≠ target ∧ IsInt (x + x) := by
  unfold twoSumNaive
  by_cases hself : ∀ x ∈ input, IsInt (x + x)
  · have hall : ∀ x ∈ input, ∀ y ∈ input, IsInt (x + y) := by
      intro x hx y hy
      rcases eq_or_ne x y with rfl | hne
      · exact hself x hx
      · exact hsum x hx y hy hne
    rw [twoSumLoop_eq hnodup hall, Nat.zero_add, Option.some_inj, Nat.add_eq_left,
      List.countP_eq_zero]
    refine forall₂_congr fun x hx => ?_
    rw [and_iff_left (hself x hx), decide_eq_true_eq]
  · push Not at hself
    obtain ⟨x, hx, hxx⟩ := hself
    rw [twoSumLoop_eq_none hx hxx]
    exact iff_of_false nofun fun h => hxx (h x hx).2

theorem twoSumNaive_iff_three :
    twoSumNaive [1, 3, 5] 4 = some (pairCount (fun x y => x + y = 4) [1, 3, 5]) ↔
      ∀ x ∈ [1, 3, 5], x + x ≠ 4 ∧ IsInt (x + x) :=
  twoSumNaive_iff [1, 3, 5] 4 (by decide) (by decide)

/-- An element is paired with itself. -/
theorem twoSumNaive_single : twoSumNaive [2] 4 = some 1 ∧
    pairCount (fun x y => x + y = 4) ([2] : List ℤ) = 0 ∧
    ¬twoSumNaive [2] 4 = some (pairCount (fun x y => x + y = 4) [2]) := by
  refine ⟨by decide, by decide, by decide⟩

/-! ### `q1` -/

def low : ℕ := 2500

def high : ℕ := 4000

def insertVal (htbl : List ℤ) (val : ℤ) : List ℤ :=
  if val ∈ htbl then htbl else if val < high + 1 then htbl ++ [val] else htbl

def fillTable (input : List ℤ) : List ℤ := input.foldl insertVal []

/-- The loop over the table for one `t`. `none` is a difference that is no `int`. -/
def hasPartner (htbl : List ℤ) (t : ℤ) : List ℤ → Option Bool
  | [] => some false
  | x :: rest => do
    let y ← int? (t - x)
    if y ∈ htbl ∧ x ≠ y then return true
    hasPartner htbl t rest

/-- The loop goes through the table in the order that `iterate` gives. `none` is a failed assertion,
or a difference that is no `int`. -/
def q1 (iterate : List ℤ → List ℤ) (input : List ℤ) : Option ℕ := do
  let htbl := fillTable input
  if ¬htbl.length < input.length then none
  else if htbl = [] then none
  else
    (List.range' low (high + 1 - low)).foldlM (fun (countUnique t : ℕ) => do
      return if ← hasPartner htbl t (iterate htbl) then countUnique + 1 else countUnique) 0

/-- `t` is the sum of two different values that occur. -/
def Reachable (input : List ℤ) (t : ℤ) : Prop := ∃ x ∈ input, ∃ y ∈ input, x ≠ y ∧ x + y = t

instance (input : List ℤ) (t : ℤ) : Decidable (Reachable input t) :=
  inferInstanceAs (Decidable (∃ x ∈ input, ∃ y ∈ input, x ≠ y ∧ x + y = t))

variable {htbl : List ℤ} {iterate : List ℤ → List ℤ} {t : ℤ}

theorem mem_insertVal {val : ℤ} : x ∈ insertVal htbl val ↔ x ∈ htbl ∨ x = val ∧ x ≤ high := by
  unfold insertVal
  split
  case isTrue hmem =>
    refine (or_iff_left_of_imp ?_).symm
    rintro ⟨rfl, -⟩
    exact hmem
  case isFalse =>
    split
    case isTrue hlt =>
      rw [List.mem_append, List.mem_singleton]
      refine or_congr_right (and_iff_left_of_imp ?_).symm
      rintro rfl
      exact Int.lt_add_one_iff.mp hlt
    case isFalse hlt =>
      refine (or_iff_left ?_).symm
      rintro ⟨rfl, hle⟩
      exact hlt (Int.lt_add_one_iff.mpr hle)

theorem mem_foldl_insertVal :
    x ∈ input.foldl insertVal htbl ↔ x ∈ htbl ∨ x ∈ input ∧ x ≤ high := by
  induction input generalizing htbl with
  | nil => simp
  | cons val rest ih =>
    rw [List.foldl_cons, ih, mem_insertVal, or_assoc, ← or_and_right, List.mem_cons]

/-- The table has the values that are not above `high`. -/
theorem mem_fillTable : x ∈ fillTable input ↔ x ∈ input.filter fun x : ℤ => x ≤ high := by
  unfold fillTable
  rw [mem_foldl_insertVal, or_iff_right List.not_mem_nil, List.mem_filter, decide_eq_true_eq]

theorem hasPartner_eq (rest : List ℤ) (hsub : ∀ x ∈ rest, IsInt (t - x)) :
    hasPartner htbl t rest = some (decide (∃ x ∈ rest, t - x ∈ htbl ∧ x ≠ t - x)) := by
  induction rest with
  | nil => rfl
  | cons x rest ih =>
    rw [List.forall_mem_cons] at hsub
    rw [hasPartner, int?_of_isInt hsub.1, Option.bind_eq_bind, Option.bind_some, ih hsub.2]
    simp only [List.exists_mem_cons_iff]
    by_cases h : t - x ∈ htbl ∧ x ≠ t - x
    · rw [if_pos h, decide_eq_true (.inl h)]
      rfl
    · rw [if_neg h]
      simp only [or_iff_right h]

theorem hasPartner_fillTable (hiterate : ∀ v, (iterate v).Perm v)
    (hsub : ∀ x ∈ input, IsInt (t - x)) :
    hasPartner (fillTable input) t (iterate (fillTable input)) =
      some (decide (Reachable (input.filter fun x : ℤ => x ≤ high) t)) := by
  have hmem : ∀ x, x ∈ iterate (fillTable input) ↔ x ∈ input.filter fun x : ℤ => x ≤ high := by
    intro x
    rw [(hiterate _).mem_iff, mem_fillTable]
  have hint : ∀ x ∈ iterate (fillTable input), IsInt (t - x) := fun x hx =>
    hsub x (List.mem_of_mem_filter ((hmem x).mp hx))
  rw [hasPartner_eq _ hint, Option.some_inj, decide_eq_decide]
  unfold Reachable
  refine exists_congr fun x => and_congr (hmem x) ?_
  rw [mem_fillTable]
  constructor
  · rintro ⟨hy, hne⟩
    exact ⟨t - x, hy, hne, by omega⟩
  · rintro ⟨y, hy, hne, rfl⟩
    rw [add_sub_cancel_left]
    exact ⟨hy, hne⟩

/-- The values that are not above `high` decide. -/
theorem q1_eq (hiterate : ∀ v, (iterate v).Perm v)
    (hsize : (fillTable input).length < input.length) (hempty : fillTable input ≠ [])
    (hsub : ∀ t ∈ Finset.Icc low high, ∀ x ∈ input, IsInt (t - x)) :
    q1 iterate input = some ((Finset.Icc low high).filter fun t : ℕ =>
      Reachable (input.filter fun x : ℤ => x ≤ high) t).card := by
  have hpartner : ∀ t ∈ List.range' low (high + 1 - low),
      hasPartner (fillTable input) t (iterate (fillTable input)) =
        some (decide (Reachable (input.filter fun x : ℤ => x ≤ high) t)) := by
    intro t ht
    rw [List.mem_range'_1] at ht
    exact hasPartner_fillTable hiterate (hsub t (Finset.mem_Icc.mpr (by omega)))
  unfold q1
  dsimp only
  rw [if_neg (not_not.mpr hsize), if_neg hempty, foldlM_count _ hpartner, Nat.zero_add,
    countP_range'_eq_card]

theorem reachable_filter_iff : Reachable (input.filter fun x : ℤ => x ≤ high) t ↔
    ∃ x ∈ input, ∃ y ∈ input, x ≤ high ∧ y ≤ high ∧ x ≠ y ∧ x + y = t := by
  unfold Reachable
  simp only [List.mem_filter, decide_eq_true_eq]
  constructor
  · rintro ⟨x, ⟨hx, hxle⟩, y, ⟨hy, hyle⟩, hsum⟩
    exact ⟨x, hx, y, hy, hxle, hyle, hsum⟩
  · rintro ⟨x, hx, y, hy, hxle, hyle, hsum⟩
    exact ⟨x, ⟨hx, hxle⟩, y, ⟨hy, hyle⟩, hsum⟩

theorem reachable_of_filter (h : Reachable (input.filter fun x : ℤ => x ≤ high) t) :
    Reachable input t := by
  obtain ⟨x, hx, y, hy, hsum⟩ := h
  exact ⟨x, List.mem_of_mem_filter hx, y, List.mem_of_mem_filter hy, hsum⟩

theorem isInt_sub_of_forall (h : ∀ x ∈ input, -2147479647 ≤ x ∧ x ≤ 2147483647) {t : ℕ}
    (ht : t ∈ Finset.Icc low high) : ∀ x ∈ input, IsInt (t - x) := by
  intro x hx
  have hx' := h x hx
  have hmax : intMax = 2147483647 := rfl
  have hhigh : high = 4000 := rfl
  have hle := (Finset.mem_Icc.mp ht).2
  unfold IsInt
  omega

/-- The targets are counted right exactly if none of them needs a value above `high`. -/
theorem q1_iff (hiterate : ∀ v, (iterate v).Perm v)
    (hsize : (fillTable input).length < input.length) (hempty : fillTable input ≠ [])
    (hsub : ∀ t ∈ Finset.Icc low high, ∀ x ∈ input, IsInt (t - x)) :
    q1 iterate input =
        some ((Finset.Icc low high).filter fun t : ℕ => Reachable input t).card ↔
      ∀ t ∈ Finset.Icc low high, ∀ x ∈ input, ∀ y ∈ input, high < x → x + y = t →
        ∃ x' ∈ input, ∃ y' ∈ input, x' ≤ high ∧ y' ≤ high ∧ x' ≠ y' ∧ x' + y' = t := by
  rw [q1_eq hiterate hsize hempty hsub, Option.some_inj,
    card_filter_eq_iff_of_imp _ fun _ => reachable_of_filter]
  refine forall₂_congr fun t ht => ?_
  have hle := (Finset.mem_Icc.mp ht).2
  rw [reachable_filter_iff]
  constructor
  · intro h x hx y hy hhigh hsum
    exact h ⟨x, hx, y, hy, by omega, hsum⟩
  · rintro h ⟨x, hx, y, hy, hne, hsum⟩
    by_cases hxle : x ≤ high
    · by_cases hyle : y ≤ high
      · exact ⟨x, hx, y, hy, hxle, hyle, hne, hsum⟩
      · exact h y hy x hx (by omega) (by omega)
    · exact h x hx y hy (by omega) hsum

theorem q1_iff_three : q1 id [1000, 1500, 1500] =
    some ((Finset.Icc low high).filter fun t : ℕ => Reachable [1000, 1500, 1500] t).card ↔
      ∀ t ∈ Finset.Icc low high, ∀ x ∈ ([1000, 1500, 1500] : List ℤ),
        ∀ y ∈ ([1000, 1500, 1500] : List ℤ), high < x → x + y = t →
          ∃ x' ∈ ([1000, 1500, 1500] : List ℤ), ∃ y' ∈ ([1000, 1500, 1500] : List ℤ),
            x' ≤ high ∧ y' ≤ high ∧ x' ≠ y' ∧ x' + y' = t :=
  q1_iff (fun _ => .refl _) (by decide) (by decide)
    fun _ ht => isInt_sub_of_forall (by decide) ht

/-- The partner of a negative value is not in the table. -/
theorem q1_negative : (fillTable [5000, -1000, -1000]).length < [5000, -1000, -1000].length ∧
    fillTable [5000, -1000, -1000] ≠ [] ∧
    ¬q1 id [5000, -1000, -1000] =
      some ((Finset.Icc low high).filter fun t : ℕ => Reachable [5000, -1000, -1000] t).card := by
  refine ⟨by decide, by decide, ?_⟩
  have hiterate : ∀ v : List ℤ, (id v).Perm v := fun v => .refl v
  rw [q1_eq hiterate (by decide) (by decide) fun _ ht => isInt_sub_of_forall (by decide) ht,
    Option.some_inj, card_filter_eq_iff_of_imp _ fun _ => reachable_of_filter]
  intro hall
  have hmem : high ∈ Finset.Icc low high := Finset.mem_Icc.mpr (by decide)
  exact absurd (hall high hmem (by decide)) (by decide)

end CppTricks.W6
