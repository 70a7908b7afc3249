import CppTricks.Foundation.Cycles
import CppTricks.Foundation.Grid

/-! `rotate_img_90`: a square matrix turned by a quarter in place, ring after ring. -/
namespace CppTricks.Crack
open Foundation

variable {T : Type}

/-- The body of the inner loop. `none` is an access outside the matrix. -/
def rotateStep (N layer : ℕ) (mat : Grid T) (i : ℕ) : Option (Grid T) := do
  let first := layer
  let last := N - 1 - layer
  let offset := i - first
  let top ← mat.cell first i
  let left ← mat.cell (last - offset) first
  let mat ← mat.write first i left
  let bottom ← mat.cell last (last - offset)
  let mat ← mat.write (last - offset) first bottom
  let right ← mat.cell i last
  let mat ← mat.write last (last - offset) right
  mat.write i last top

def rotateLayer (N : ℕ) (mat : Grid T) (layer : ℕ) : Option (Grid T) :=
  (List.range' layer (N - 1 - layer - layer)).foldlM (rotateStep N layer) mat

/-- `none` is also an assertion that fails. -/
def rotateImg90 (mat : Grid T) (N : ℕ) : Option (Grid T) := do
  guard (mat.length = N)
  let row ← mat[0]?
  guard (row.length = N)
  (List.range (N / 2)).foldlM (rotateLayer N) mat

/-- The place whose content comes to `x`. -/
def turn (N : ℕ) (x : ℕ × ℕ) : ℕ × ℕ := (N - 1 - x.2, x.1)

/-- The places that change theirs at one step. -/
def cycle (N layer i : ℕ) : Set (ℕ × ℕ) :=
  {(layer, i), (N - 1 - i, layer), (N - 1 - layer, N - 1 - i), (i, N - 1 - layer)}

/-- The places of the cycles before `layer, i`. -/
def turned (N layer i : ℕ) : Set (ℕ × ℕ) :=
  {x | ∃ l k, (l < layer ∨ l = layer ∧ k < i) ∧ l ≤ k ∧ k < N - 1 - l ∧ x ∈ cycle N l k}

variable {N layer i : ℕ} {x : ℕ × ℕ} {mat : Grid T}

/-! ### Cycles -/

theorem mem_cycle : x ∈ cycle N layer i ↔ x = (layer, i) ∨ x = (N - 1 - i, layer) ∨
    x = (N - 1 - layer, N - 1 - i) ∨ x = (i, N - 1 - layer) := Iff.rfl

theorem cycle_nodup (hl : layer ≤ i) (hi : i < N - 1 - layer) :
    [(layer, i), (N - 1 - i, layer), (N - 1 - layer, N - 1 - i), (i, N - 1 - layer)].Nodup := by
  simp only [List.nodup_cons, List.mem_cons, Prod.mk.injEq, List.not_mem_nil, or_false,
    not_false_eq_true, List.nodup_nil, and_true]
  omega

theorem turn_circle (hl : layer ≤ i) (hi : i < N - 1 - layer) :
    turn N (layer, i) = (N - 1 - i, layer) ∧
      turn N (N - 1 - i, layer) = (N - 1 - layer, N - 1 - i) ∧
      turn N (N - 1 - layer, N - 1 - i) = (i, N - 1 - layer) ∧
      turn N (i, N - 1 - layer) = (layer, i) := by
  have hi' : N - 1 - (N - 1 - i) = i := by omega
  have hl' : N - 1 - (N - 1 - layer) = layer := by omega
  unfold turn
  rw [hi', hl']
  exact ⟨rfl, rfl, rfl, rfl⟩

theorem turn_mem_cycle (hl : layer ≤ i) (hi : i < N - 1 - layer) (hx : x ∈ cycle N layer i) :
    turn N x ∈ cycle N layer i := by
  obtain ⟨ha, hb, hc, hd⟩ := turn_circle hl hi
  rw [mem_cycle] at hx ⊢
  rcases hx with rfl | rfl | rfl | rfl
  · exact .inr (.inl ha)
  · exact .inr (.inr (.inl hb))
  · exact .inr (.inr (.inr hc))
  · exact .inl hd

theorem cycle_disjoint (hl : layer ≤ i) (hi : i < N - 1 - layer) (hx : x ∈ cycle N layer i) :
    x ∉ turned N layer i := by
  rintro ⟨l, k, hbefore, hlk, hk, hx'⟩
  rw [mem_cycle] at hx hx'
  rcases hx with rfl | rfl | rfl | rfl <;>
    · simp only [Prod.mk.injEq] at hx'
      omega

theorem turned_succ (hl : layer ≤ i) (hi : i < N - 1 - layer) :
    turned N layer (i + 1) = turned N layer i ∪ cycle N layer i := by
  ext x
  constructor
  · rintro ⟨l, k, hbefore, hlk, hk, hx⟩
    by_cases hlast : l = layer ∧ k = i
    · obtain ⟨rfl, rfl⟩ := hlast
      exact .inr hx
    · exact .inl ⟨l, k, by omega, hlk, hk, hx⟩
  · rintro (⟨l, k, hbefore, hlk, hk, hx⟩ | hx)
    · exact ⟨l, k, by omega, hlk, hk, hx⟩
    · exact ⟨layer, i, by omega, hl, hi, hx⟩

theorem turned_zero (N : ℕ) : turned N 0 0 = ∅ := by
  ext x
  refine iff_of_false ?_ (Set.notMem_empty x)
  rintro ⟨l, k, hbefore, -⟩
  omega

theorem turned_next (N layer : ℕ) :
    turned N layer (N - 1 - layer) = turned N (layer + 1) (layer + 1) := by
  ext x
  constructor
  · rintro ⟨l, k, hbefore, hlk, hk, hx⟩
    exact ⟨l, k, by omega, hlk, hk, hx⟩
  · rintro ⟨l, k, hbefore, hlk, hk, hx⟩
    refine ⟨l, k, ?_, hlk, hk, hx⟩
    rcases Nat.lt_or_ge l layer with hlt | hge
    · exact .inl hlt
    · right
      have heq : l = layer := by omega
      exact ⟨heq, heq ▸ hk⟩

/-- All places are in some cycle, but for one in the middle that stays. -/
theorem turn_eq_of_notMem {p q : ℕ} (hp : p < N) (hq : q < N)
    (hx : (p, q) ∉ turned N (N / 2) (N / 2)) : turn N (p, q) = (p, q) := by
  have hnot : ∀ l k, l < N / 2 → l ≤ k → k < N - 1 - l → (p, q) ∉ cycle N l k :=
    fun l k hl hlk hk hmem => hx ⟨l, k, .inl hl, hlk, hk, hmem⟩
  have htwice : ∀ r < N, N - 1 - (N - 1 - r) = r := fun r hr => by omega
  -- the sides of the ring that the place could be on
  have htop : ¬(p ≤ q ∧ q < N - 1 - p) := fun h =>
    hnot p q (by omega) h.1 h.2 (.inl rfl)
  have hleft : ¬(q < p ∧ q ≤ N - 1 - p) := fun h =>
    hnot q (N - 1 - p) (by omega) h.2 (by omega) (.inr (.inl (by rw [htwice p hp])))
  have hbottom : ¬(q ≤ p ∧ N - 1 - q < p) := fun h =>
    hnot (N - 1 - p) (N - 1 - q) (by omega) (by omega) (by omega)
      (.inr (.inr (.inl (by rw [htwice p hp, htwice q hq]))))
  have hright : ¬(p < q ∧ N - 1 - q ≤ p) := fun h =>
    hnot (N - 1 - q) p (by omega) h.2 (by omega) (.inr (.inr (.inr (by rw [htwice q hq]; rfl))))
  have hcentre : N - 1 - q = p ∧ p = q := by omega
  exact Prod.ext hcentre.1 hcentre.2

/-! ### The loops -/

theorem rotateStep_eq (hmat : mat.Square N) (hl : layer ≤ i) (hi : i < N - 1 - layer) :
    ∃ mat', rotateStep N layer mat i = some mat' ∧ mat'.Square N ∧
      (∀ x ∈ cycle N layer i, mat'.cells x = mat.cells (turn N x)) ∧
      ∀ x ∉ cycle N layer i, mat'.cells x = mat.cells x := by
  have hoffset : N - 1 - layer - (i - layer) = N - 1 - i := by omega
  have hfirst : layer < N := by omega
  have hlast : N - 1 - layer < N := by omega
  have hiN : i < N := by omega
  have hback : N - 1 - i < N := by omega
  obtain ⟨top, htop⟩ := hmat.exists_cell hfirst hiN
  obtain ⟨left, mat₁, hleft, hwrite₁, hmat₁, hcells₁⟩ := hmat.exists_copy hback hfirst hfirst hiN
  obtain ⟨bottom, mat₂, hbottom, hwrite₂, hmat₂, hcells₂⟩ :=
    hmat₁.exists_copy hlast hback hback hfirst
  obtain ⟨right, mat₃, hright, hwrite₃, hmat₃, hcells₃⟩ := hmat₂.exists_copy hiN hlast hlast hback
  obtain ⟨mat₄, hwrite₄, hmat₄, hcells₄⟩ := hmat₃.exists_write hiN hlast top
  rw [← htop] at hcells₄
  refine ⟨mat₄, ?_, hmat₄, ?_⟩
  · unfold rotateStep
    simp only [hoffset, htop, hleft, hwrite₁, hbottom, hwrite₂, hright, hwrite₃, hwrite₄,
      Option.bind_eq_bind, Option.bind_some]
  · exact update_circle (cycle_nodup hl hi) (turn_circle hl hi) hcells₁ hcells₂ hcells₃ hcells₄

theorem rotateLayer_eq {old : ℕ × ℕ → Option T} (hlayer : layer < N / 2) (hmat : mat.Square N)
    (hmoved : Moved (turn N) old (turned N layer layer) mat.cells) :
    ∃ mat', rotateLayer N mat layer = some mat' ∧ mat'.Square N ∧
      Moved (turn N) old (turned N (layer + 1) (layer + 1)) mat'.cells := by
  obtain ⟨mat', hrun, hmat', hmoved'⟩ := foldlM_prefix
    (P := fun t mat => mat.Square N ∧
      Moved (turn N) old (turned N layer (layer + t.length)) mat.cells)
    (List.range' layer (N - 1 - layer - layer)) (fun t i mat ht hinv => by
      obtain ⟨rfl, hlt⟩ := eq_add_length_of_prefix_range' ht
      have hl : layer ≤ layer + t.length := Nat.le_add_right _ _
      have hi : layer + t.length < N - 1 - layer := by omega
      obtain ⟨mat', hstep, hmat', hcycle, hrest⟩ := rotateStep_eq hinv.1 hl hi
      refine ⟨mat', hstep, hmat', ?_⟩
      rw [List.length_append, List.length_singleton, ← Nat.add_assoc, turned_succ hl hi]
      exact hinv.2.union (fun x => cycle_disjoint hl hi) (fun x => turn_mem_cycle hl hi) hcycle
        hrest) mat ⟨hmat, hmoved⟩
  have hend : layer + (N - 1 - layer - layer) = N - 1 - layer := by omega
  rw [List.length_range', hend, turned_next] at hmoved'
  exact ⟨mat', hrun, hmat', hmoved'⟩

theorem rotateImg90_eq (hN : 0 < N) (hmat : mat.Square N) :
    ∃ mat', rotateImg90 mat N = some mat' ∧ mat'.Square N ∧
      ∀ i < N, ∀ j < N, mat'.cell i j = mat.cell (N - 1 - j) i := by
  obtain ⟨mat', hrun, hmat', hmoved⟩ := foldlM_prefix
    (P := fun t mat' => mat'.Square N ∧
      Moved (turn N) mat.cells (turned N t.length t.length) mat'.cells)
    (List.range (N / 2)) (fun t layer mat' ht hinv => by
      obtain ⟨rfl, hlayer⟩ := eq_length_of_prefix_range ht
      rw [List.length_append]
      exact rotateLayer_eq hlayer hinv.1 hinv.2) mat
    ⟨hmat, by rw [List.length_nil, turned_zero]; exact moved_empty _ _⟩
  rw [List.length_range] at hmoved
  refine ⟨mat', ?_, hmat', ?_⟩
  · have hrow : 0 < mat.length := hmat.height ▸ hN
    have hwidth := hmat.width _ (List.getElem_mem hrow)
    unfold rotateImg90 guard
    rw [if_pos hmat.height, List.getElem?_eq_getElem hrow, Option.pure_def, Option.bind_eq_bind,
      Option.bind_some, Option.bind_eq_bind, Option.bind_some, if_pos hwidth, Option.bind_some,
      hrun]
  · intro i hi j hj
    exact hmoved.eq (x := (i, j)) (turn_eq_of_notMem hi hj)

/-- Every cell has what was a quarter turn away, and four turns are none. -/
theorem rotateImg90_turns (N : ℕ) (mat : Grid T) (hN : 0 < N) (hmat : mat.Square N) :
    (∃ mat', rotateImg90 mat N = some mat' ∧ mat'.Square N ∧
      ∀ i < N, ∀ j < N, mat'.cell i j = mat.cell (N - 1 - j) i) ∧
    (do let mat ← rotateImg90 mat N
        let mat ← rotateImg90 mat N
        let mat ← rotateImg90 mat N
        rotateImg90 mat N) = some mat := by
  obtain ⟨mat₁, hrun₁, hmat₁, hcell₁⟩ := rotateImg90_eq hN hmat
  obtain ⟨mat₂, hrun₂, hmat₂, hcell₂⟩ := rotateImg90_eq hN hmat₁
  obtain ⟨mat₃, hrun₃, hmat₃, hcell₃⟩ := rotateImg90_eq hN hmat₂
  obtain ⟨mat₄, hrun₄, hmat₄, hcell₄⟩ := rotateImg90_eq hN hmat₃
  refine ⟨⟨mat₁, hrun₁, hmat₁, hcell₁⟩, ?_⟩
  have hsame : mat₄ = mat := by
    refine hmat₄.ext hmat ?_
    intro i hi j hj
    have htwice : ∀ k < N, N - 1 - (N - 1 - k) = k := fun k hk => by omega
    rw [hcell₄ i hi j hj, hcell₃ _ (by omega) i hi, hcell₂ _ (by omega) _ (by omega),
      hcell₁ _ (by omega) _ (by omega), htwice i hi, htwice j hj]
  rw [hrun₁, Option.bind_eq_bind, Option.bind_some, hrun₂, Option.bind_some, hrun₃,
    Option.bind_some, hrun₄, hsame]

theorem rotateImg90_turns_three :
    (∃ mat', rotateImg90 [[1, 2, 3], [4, 5, 6], [7, 8, 9]] 3 = some mat' ∧ mat'.Square 3 ∧
      ∀ i < 3, ∀ j < 3,
        mat'.cell i j = Grid.cell [[1, 2, 3], [4, 5, 6], [7, 8, 9]] (3 - 1 - j) i) ∧
    (do let mat ← rotateImg90 [[1, 2, 3], [4, 5, 6], [7, 8, 9]] 3
        let mat ← rotateImg90 mat 3
        let mat ← rotateImg90 mat 3
        rotateImg90 mat 3) = some [[1, 2, 3], [4, 5, 6], [7, 8, 9]] :=
  rotateImg90_turns 3 _ (by decide) ⟨rfl, by decide⟩

example : rotateImg90 [[1, 2, 3], [4, 5, 6], [7, 8, 9]] 3 =
    some [[7, 4, 1], [8, 5, 2], [9, 6, 3]] := by decide

end CppTricks.Crack
