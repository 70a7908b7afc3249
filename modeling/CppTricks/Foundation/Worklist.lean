import Mathlib.Data.List.Nodup
import Mathlib.Data.Nat.Notation
import Mathlib.Logic.Relation

/-! Worklists that grow at the back: an item is kept or dropped, and its successors are added. -/
namespace Foundation

variable {A : Type} {expand : A → List A} {keep : A → Bool}

/-- Go through the list, in front of which the kept items gather. -/
def drain (expand : A → List A) (keep : A → Bool) : ℕ → List A → List A → Option (List A)
  | 0, _, _ => none
  | _ + 1, kept, [] => some kept
  | fuel + 1, kept, x :: rest =>
    if keep x then drain expand keep fuel (kept ++ [x]) (rest ++ expand x)
    else drain expand keep fuel kept (rest ++ expand x)

/-- The items, their successors, the successors of these, and so on `n` times. -/
def generations (expand : A → List A) : ℕ → List A → List A
  | 0, _ => []
  | n + 1, xs => xs ++ generations expand n (xs.flatMap expand)

theorem drain_cons (fuel : ℕ) (kept : List A) (x : A) (rest : List A) :
    drain expand keep (fuel + 1) kept (x :: rest) =
      drain expand keep fuel (kept ++ [x].filter keep) (rest ++ expand x) := by
  rw [drain]
  by_cases hx : keep x
  · rw [if_pos hx, List.filter_cons_of_pos hx, List.filter_nil]
  · rw [if_neg hx, List.filter_cons_of_neg hx, List.filter_nil, List.append_nil]

/-- One generation is gone through while the next gathers behind it. -/
theorem drain_append (fuel : ℕ) (kept xs ys : List A) :
    drain expand keep (xs.length + fuel) kept (xs ++ ys) =
      drain expand keep fuel (kept ++ xs.filter keep) (ys ++ xs.flatMap expand) := by
  induction xs generalizing kept ys with
  | nil =>
    rw [List.length_nil, Nat.zero_add]
    simp
  | cons x xs ih =>
    have hfuel : (x :: xs).length + fuel = xs.length + fuel + 1 := by
      rw [List.length_cons]
      omega
    have hfilter : (x :: xs).filter keep = [x].filter keep ++ xs.filter keep :=
      List.filter_append [x] xs
    rw [hfuel, List.cons_append, drain_cons, List.append_assoc, ih, hfilter, List.flatMap_cons,
      List.append_assoc, List.append_assoc]

private theorem rank_lt_of_mem_flatMap {rank : A → ℕ}
    (hrank : ∀ x, ∀ y ∈ expand x, rank y < rank x) {n : ℕ} {xs : List A}
    (hxs : ∀ x ∈ xs, rank x < n + 1) : ∀ y ∈ xs.flatMap expand, rank y < n := by
  intro y hy
  obtain ⟨x, hx, hyx⟩ := List.mem_flatMap.mp hy
  have hlt := hrank x y hyx
  have hle := hxs x hx
  omega

/-- Where every item has a rank above that of its successors, the list comes to an end. -/
theorem exists_drain {rank : A → ℕ} (hrank : ∀ x, ∀ y ∈ expand x, rank y < rank x) (n : ℕ)
    (kept xs : List A) (hxs : ∀ x ∈ xs, rank x < n) :
    ∃ m, ∀ fuel, m ≤ fuel →
      drain expand keep fuel kept xs = some (kept ++ (generations expand n xs).filter keep) := by
  induction n generalizing kept xs with
  | zero =>
    obtain rfl := List.eq_nil_iff_forall_not_mem.mpr fun x hx => Nat.not_lt_zero _ (hxs x hx)
    refine ⟨1, ?_⟩
    intro fuel hfuel
    obtain ⟨k, rfl⟩ := Nat.exists_eq_add_of_le' hfuel
    simp [drain, generations]
  | succ n ih =>
    have hnext := rank_lt_of_mem_flatMap hrank hxs
    obtain ⟨m, hm⟩ := ih (kept ++ xs.filter keep) (xs.flatMap expand) hnext
    refine ⟨xs.length + m, ?_⟩
    intro fuel hfuel
    obtain ⟨k, rfl⟩ := Nat.exists_eq_add_of_le hfuel
    have hdrain : drain expand keep (xs.length + (m + k)) kept xs =
        drain expand keep (m + k) (kept ++ xs.filter keep) (xs.flatMap expand) := by
      have happend := @drain_append A expand keep (m + k) kept xs []
      rwa [List.append_nil, List.nil_append] at happend
    rw [Nat.add_assoc, hdrain, hm (m + k) (Nat.le_add_right m k), generations, List.filter_append,
      List.append_assoc]

/-- Nothing but what comes of the items is gone through, and all of it is. -/
theorem mem_generations {rank : A → ℕ} (hrank : ∀ x, ∀ y ∈ expand x, rank y < rank x) {n : ℕ}
    {xs : List A} (hxs : ∀ x ∈ xs, rank x < n) (y : A) :
    y ∈ generations expand n xs ↔
      ∃ x ∈ xs, Relation.ReflTransGen (fun x y => y ∈ expand x) x y := by
  induction n generalizing xs with
  | zero =>
    obtain rfl := List.eq_nil_iff_forall_not_mem.mpr fun x hx => Nat.not_lt_zero _ (hxs x hx)
    simp [generations]
  | succ n ih =>
    have hnext := rank_lt_of_mem_flatMap hrank hxs
    unfold generations
    rw [List.mem_append, ih hnext]
    constructor
    · intro hy
      cases hy with
      | inl hmem => exact ⟨y, hmem, .refl⟩
      | inr hlater =>
        obtain ⟨z, hz, hzy⟩ := hlater
        obtain ⟨x, hx, hxz⟩ := List.mem_flatMap.mp hz
        exact ⟨x, hx, .head hxz hzy⟩
    · intro hy
      obtain ⟨x, hx, hxy⟩ := hy
      cases hxy.cases_head with
      | inl heq => exact .inl (heq ▸ hx)
      | inr hsteps =>
        obtain ⟨z, hxz, hzy⟩ := hsteps
        exact .inr ⟨z, List.mem_flatMap.mpr ⟨x, hx, hxz⟩, hzy⟩

/-- An item of the generations is at least as deep as the first of them. -/
private theorem le_depth {depth : A → ℕ} (hdepth : ∀ x, ∀ y ∈ expand x, depth y = depth x + 1)
    {n d : ℕ} {xs : List A} (hxs : ∀ x ∈ xs, depth x = d) {y : A}
    (hy : y ∈ generations expand n xs) : d ≤ depth y := by
  induction n generalizing xs d with
  | zero => cases hy
  | succ n ih =>
    unfold generations at hy
    cases List.mem_append.mp hy with
    | inl hmem => exact Nat.le_of_eq (hxs y hmem).symm
    | inr hlater =>
      apply Nat.le_of_succ_le
      apply ih _ hlater
      intro z hz
      obtain ⟨x, hx, hxz⟩ := List.mem_flatMap.mp hz
      rw [hdepth x z hxz, hxs x hx]

/-- Where an item has one depth and comes of one other only, nothing is gone through twice. -/
theorem nodup_generations {depth : A → ℕ} (hdepth : ∀ x, ∀ y ∈ expand x, depth y = depth x + 1)
    (hunique : ∀ x x' y, y ∈ expand x → y ∈ expand x' → x = x')
    (hnodup : ∀ x, (expand x).Nodup) {d : ℕ} (n : ℕ) {xs : List A} (hxs : ∀ x ∈ xs, depth x = d)
    (hone : xs.Nodup) : (generations expand n xs).Nodup := by
  induction n generalizing xs d with
  | zero => exact List.nodup_nil
  | succ n ih =>
    have hnext : ∀ y ∈ xs.flatMap expand, depth y = d + 1 := by
      intro y hy
      obtain ⟨x, hx, hxy⟩ := List.mem_flatMap.mp hy
      rw [hdepth x y hxy, hxs x hx]
    have hflat : (xs.flatMap expand).Nodup := by
      rw [List.nodup_flatMap]
      constructor
      · intro x _
        exact hnodup x
      · apply hone.imp
        intro x x' hne y hy hy'
        exact hne (hunique x x' y hy hy')
    unfold generations
    apply List.Nodup.append hone (ih hnext hflat)
    intro y hy hlater
    have hle := le_depth hdepth hnext hlater
    have heq := hxs y hy
    omega

end Foundation
