import CppTricks.Foundation.Loops

/-! Tables of cells, and the double loops that fill one row after another. -/
namespace Foundation

variable {α : Type}

abbrev Grid (α : Type) := List (List α)

namespace Grid

def cell (A : Grid α) (i x : ℕ) : Option α := A[i]?.bind fun row => row[x]?

/-- `none` is a write outside the table. -/
def write (A : Grid α) (i x : ℕ) (c : α) : Option (Grid α) := do
  let row ← A[i]?
  if x < row.length then some (A.set i (row.set x c)) else none

/-- A row-by-row filling reaches the cell `j, y` before `i, x`. -/
def Before (i x j y : ℕ) : Prop := j < i ∨ j = i ∧ y < x

/-- Of `N` rows with `m` cells each, those before `i, x` have the property `P`, the others `Q`. -/
def Filled (N m : ℕ) (P Q : ℕ → ℕ → α → Prop) (i x : ℕ) (A : Grid α) : Prop :=
  ∀ j y, j < N → y < m → ∃ c, A.cell j y = some c ∧
    (Before i x j y → P j y c) ∧ (¬ Before i x j y → Q j y c)

variable {A : Grid α} {N m i x j y : ℕ} {c d : α} {P Q : ℕ → ℕ → α → Prop}

theorem cell_replicate (hi : i < N) (hx : x < m) (c : α) :
    cell (List.replicate N (List.replicate m c)) i x = some c := by
  unfold cell
  rw [List.getElem?_replicate_of_lt hi, Option.bind_some, List.getElem?_replicate_of_lt hx]

theorem exists_write (h : A.cell i x = some d) (c : α) :
    ∃ A', A.write i x c = some A' ∧ A'.cell i x = some c ∧
      ∀ j y, ¬ (j = i ∧ y = x) → A'.cell j y = A.cell j y := by
  obtain ⟨row, hrow, hd⟩ := Option.bind_eq_some_iff.mp h
  obtain ⟨hx, -⟩ := List.getElem?_eq_some_iff.mp hd
  obtain ⟨hi, -⟩ := List.getElem?_eq_some_iff.mp hrow
  refine ⟨A.set i (row.set x c), ?_, ?_, ?_⟩
  · unfold write
    rw [hrow]
    exact if_pos hx
  · simp [cell, hi, hx]
  · intro j y hne
    unfold cell
    by_cases hj : j = i
    · subst hj
      have hy : x ≠ y := fun hxy => hne ⟨rfl, hxy.symm⟩
      rw [List.getElem?_set_self hi, hrow, Option.bind_some, Option.bind_some,
        List.getElem?_set_ne hy]
    · rw [List.getElem?_set_ne (Ne.symm hj)]

theorem length_write {A' : Grid α} (h : A.write i x c = some A') : A'.length = A.length := by
  obtain ⟨row, -, hA'⟩ := Option.bind_eq_some_iff.mp h
  rw [Option.ite_none_right_eq_some] at hA'
  rw [← Option.some.inj hA'.2, List.length_set]

theorem cell_of_length_le (h : A.length ≤ i) (x : ℕ) : A.cell i x = none := by
  unfold cell
  rw [List.getElem?_eq_none h]
  rfl

theorem before_succ_iff : Before i (x + 1) j y ↔ Before i x j y ∨ j = i ∧ y = x := by
  unfold Before
  omega

theorem before_row_iff (hy : y < m) : Before (i + 1) 0 j y ↔ Before i m j y := by
  unfold Before
  omega

theorem Filled.write (h : Filled N m P Q i x A) (hi : i < N) (hx : x < m) (hc : P i x c) :
    ∃ A', A.write i x c = some A' ∧ Filled N m P Q i (x + 1) A' := by
  obtain ⟨d, hd, -⟩ := h i x hi hx
  obtain ⟨A', hwrite, hself, hother⟩ := exists_write hd c
  refine ⟨A', hwrite, fun j y hj hy => ?_⟩
  by_cases hjy : j = i ∧ y = x
  · obtain ⟨rfl, rfl⟩ := hjy
    exact ⟨c, hself, fun _ => hc, fun hnot => absurd (before_succ_iff.mpr (.inr ⟨rfl, rfl⟩)) hnot⟩
  · obtain ⟨c', hc', hdone, hleft⟩ := h j y hj hy
    rw [before_succ_iff, or_iff_left hjy]
    exact ⟨c', by rw [hother j y hjy, hc'], hdone, hleft⟩

theorem Filled.next (h : Filled N m P Q i m A) : Filled N m P Q (i + 1) 0 A := by
  intro j y hj hy
  rw [before_row_iff hy]
  exact h j y hj hy

variable {body : Grid α → ℕ → ℕ → Option (Grid α)}

/-- A row is filled when each step writes its own cell, or it comes to a step that fails. -/
theorem Filled.row_or_none {R : Prop} (hi : i < N)
    (hbody : ∀ A x, x < m → Filled N m P Q i x A →
      (∃ c, body A i x = A.write i x c ∧ P i x c) ∨ body A i x = none ∧ R)
    (h : Filled N m P Q i 0 A) :
    (∃ A', (List.range m).foldlM (fun A x => body A i x) A = some A' ∧
      Filled N m P Q (i + 1) 0 A') ∨
    (List.range m).foldlM (fun A x => body A i x) A = none ∧ R := by
  have hrun := foldlM_or_none (f := fun A x => body A i x)
    (P := fun t A => Filled N m P Q i t.length A) (Q := R) (List.range m)
    (fun t x A ht hA => by
      obtain ⟨rfl, hx⟩ := eq_length_of_prefix_range ht
      rcases hbody A t.length hx hA with ⟨c, hbodyA, hc⟩ | hnone
      · obtain ⟨A', hwrite, hA'⟩ := hA.write hi hx hc
        exact .inl ⟨A', hbodyA.trans hwrite, by simpa using hA'⟩
      · exact .inr hnone) A h
  refine hrun.imp_left fun hdone => ?_
  obtain ⟨A', hrun, hfilled⟩ := hdone
  rw [List.length_range] at hfilled
  exact ⟨A', hrun, hfilled.next⟩

/-- The rows from the second on are filled when each step writes its own cell, or a step fails. -/
theorem Filled.rows_or_none {R : Prop}
    (hbody : ∀ A i x, 1 ≤ i → i < N → x < m → Filled N m P Q i x A →
      (∃ c, body A i x = A.write i x c ∧ P i x c) ∨ body A i x = none ∧ R)
    (h : Filled N m P Q 1 0 A) :
    (∃ A', (List.range' 1 (N - 1)).foldlM
        (fun A i => (List.range m).foldlM (fun A x => body A i x) A) A = some A' ∧
      ∀ j y, j < N → y < m → ∃ c, A'.cell j y = some c ∧ P j y c) ∨
    (List.range' 1 (N - 1)).foldlM
        (fun A i => (List.range m).foldlM (fun A x => body A i x) A) A = none ∧ R := by
  have hrun := foldlM_or_none
    (f := fun A i => (List.range m).foldlM (fun A x => body A i x) A)
    (P := fun t A => Filled N m P Q (1 + t.length) 0 A) (Q := R) (List.range' 1 (N - 1))
    (fun t i A ht hA => by
      obtain ⟨rfl, hi⟩ := eq_add_length_of_prefix_range' ht
      have hiN : 1 + t.length < N := by omega
      refine (hA.row_or_none hiN fun A x hx hA => hbody A _ x (by omega) hiN hx hA).imp_left ?_
      intro hrow
      obtain ⟨A', hrow, hA'⟩ := hrow
      exact ⟨A', hrow, by simpa [Nat.add_assoc] using hA'⟩) A h
  refine hrun.imp_left fun hdone => ?_
  obtain ⟨A', hrun, hfilled⟩ := hdone
  refine ⟨A', hrun, fun j y hj hy => ?_⟩
  obtain ⟨c, hc, hdone, -⟩ := hfilled j y hj hy
  rw [List.length_range'] at hdone
  exact ⟨c, hc, hdone (by unfold Before; omega)⟩

/-- The rows from the second on are filled when each step writes its own cell. -/
theorem Filled.rows
    (hbody : ∀ A i x, 1 ≤ i → i < N → x < m → Filled N m P Q i x A →
      ∃ c, body A i x = A.write i x c ∧ P i x c)
    (h : Filled N m P Q 1 0 A) :
    ∃ A', (List.range' 1 (N - 1)).foldlM
        (fun A i => (List.range m).foldlM (fun A x => body A i x) A) A = some A' ∧
      ∀ j y, j < N → y < m → ∃ c, A'.cell j y = some c ∧ P j y c :=
  (Filled.rows_or_none (R := False)
    (fun A i x hi hiN hx hA => .inl (hbody A i x hi hiN hx hA)) h).resolve_right And.right

/-! ### Square tables -/

structure Square (N : ℕ) (A : Grid α) : Prop where
  height : A.length = N
  width : ∀ row ∈ A, row.length = N

def cells (A : Grid α) (x : ℕ × ℕ) : Option α := A.cell x.1 x.2

theorem Square.exists_cell (h : Square N A) (hi : i < N) (hx : x < N) :
    ∃ c, A.cell i x = some c := by
  have hrow : i < A.length := h.height ▸ hi
  have hcell : x < A[i].length := h.width _ (List.getElem_mem hrow) ▸ hx
  refine ⟨A[i][x], ?_⟩
  unfold cell
  rw [List.getElem?_eq_getElem hrow, Option.bind_some, List.getElem?_eq_getElem hcell]

theorem Square.write {A' : Grid α} (h : Square N A) (hwrite : A.write i x c = some A') :
    Square N A' := by
  obtain ⟨row, hrow, hA'⟩ := Option.bind_eq_some_iff.mp hwrite
  rw [Option.ite_none_right_eq_some] at hA'
  obtain rfl := Option.some.inj hA'.2
  refine ⟨(length_write hwrite).trans h.height, ?_⟩
  intro row' hrow'
  rcases List.mem_or_eq_of_mem_set hrow' with hmem | rfl
  · exact h.width row' hmem
  · rw [List.length_set]
    exact h.width row (List.mem_of_getElem? hrow)

theorem Square.exists_write (h : Square N A) (hi : i < N) (hx : x < N) (c : α) :
    ∃ A', A.write i x c = some A' ∧ Square N A' ∧
      A'.cells = Function.update A.cells (i, x) (some c) := by
  obtain ⟨d, hd⟩ := h.exists_cell hi hx
  obtain ⟨A', hwrite, hself, hother⟩ := Grid.exists_write hd c
  refine ⟨A', hwrite, h.write hwrite, ?_⟩
  funext y
  by_cases hy : y = (i, x)
  · rw [hy, Function.update_self]
    exact hself
  · rw [Function.update_of_ne hy]
    exact hother y.1 y.2 fun heq => hy (Prod.ext heq.1 heq.2)

theorem Square.exists_copy (h : Square N A) (hi : i < N) (hx : x < N) (hj : j < N) (hy : y < N) :
    ∃ c A', A.cell i x = some c ∧ A.write j y c = some A' ∧ Square N A' ∧
      A'.cells = Function.update A.cells (j, y) (A.cells (i, x)) := by
  obtain ⟨c, hc⟩ := h.exists_cell hi hx
  obtain ⟨A', hwrite, hA', hcells⟩ := h.exists_write hj hy c
  rw [← hc] at hcells
  exact ⟨c, A', hc, hwrite, hA', hcells⟩

theorem Square.ext {B : Grid α} (hA : Square N A) (hB : Square N B)
    (h : ∀ i < N, ∀ x < N, A.cell i x = B.cell i x) : A = B := by
  refine List.ext_getElem (hA.height.trans hB.height.symm) ?_
  intro i hiA hiB
  have hwidthA := hA.width _ (List.getElem_mem hiA)
  have hwidthB := hB.width _ (List.getElem_mem hiB)
  refine List.ext_getElem (hwidthA.trans hwidthB.symm) ?_
  intro x hxA hxB
  have hcell := h i (hA.height ▸ hiA) x (hwidthA ▸ hxA)
  unfold cell at hcell
  rw [List.getElem?_eq_getElem hiA, List.getElem?_eq_getElem hiB, Option.bind_some,
    Option.bind_some, List.getElem?_eq_getElem hxA, List.getElem?_eq_getElem hxB] at hcell
  exact Option.some.inj hcell

end Grid

end Foundation
