import CppTricks.Foundation.DepthFirst

/-! Searches that put vertices on a stack, where the last one to go on it is the first to leave. -/
namespace Foundation

variable {V : Type} [DecidableEq V] {succ : V → List V}

/-- The vertices of the list that are not in `E`, each at its first place. -/
def fresh (E : Finset V) : List V → List V
  | [] => []
  | w :: ws => if w ∈ E then fresh E ws else w :: fresh (insert w E) ws

/-- With explored vertices `E`, the vertices leave the stack in the order of the last list; one
that leaves puts its unexplored successors on top. -/
inductive Pops (succ : V → List V) : Finset V → List V → List V → Prop where
  | nil (E : Finset V) : Pops succ E [] []
  | pop {E : Finset V} {v : V} {stack L : List V}
      (rest : Pops succ (E ∪ (fresh E (succ v)).toFinset) ((fresh E (succ v)).reverse ++ stack) L) :
      Pops succ E (v :: stack) (v :: L)

variable {E : Finset V} {w x : V} {ws stack L L' : List V}

theorem mem_fresh : x ∈ fresh E ws ↔ x ∈ ws ∧ x ∉ E := by
  induction ws generalizing E with
  | nil => simp [fresh]
  | cons w ws ih =>
    unfold fresh
    by_cases hw : w ∈ E
    · rw [if_pos hw, ih]
      grind
    · rw [if_neg hw, List.mem_cons, ih]
      grind

theorem nodup_fresh (E : Finset V) (ws : List V) : (fresh E ws).Nodup := by
  induction ws generalizing E with
  | nil => exact List.nodup_nil
  | cons w ws ih =>
    unfold fresh
    by_cases hw : w ∈ E
    · rw [if_pos hw]
      exact ih E
    · rw [if_neg hw, List.nodup_cons]
      exact ⟨fun hmem => (mem_fresh.mp hmem).2 (Finset.mem_insert_self w E), ih (insert w E)⟩

namespace Pops

theorem unique (h : Pops succ E stack L) (h' : Pops succ E stack L') : L = L' := by
  induction h generalizing L' with
  | nil =>
    cases h'
    rfl
  | pop _ ih =>
    cases h' with
    | pop rest' => rw [ih rest']

/-- What leaves the stack was on it, or is reached from there. -/
theorem mem_iff (h : Pops succ E stack L) (x : V) :
    x ∈ L ↔ x ∈ stack ∨ ∃ v ∈ stack, ∃ w ∈ succ v, Reach succ E w x := by
  induction h with
  | nil => simp
  | @pop E v stack L _ ih =>
    have hnew : ∀ u, u ∈ (fresh E (succ v)).toFinset ↔ u ∈ succ v ∧ u ∉ E := by
      intro u
      rw [List.mem_toFinset, mem_fresh]
    have hstack : ∀ u, u ∈ (fresh E (succ v)).reverse ++ stack ↔
        u ∈ (fresh E (succ v)).toFinset ∨ u ∈ stack := by
      intro u
      rw [List.mem_append, List.mem_reverse, List.mem_toFinset]
    rw [List.mem_cons, ih]
    simp only [hstack]
    constructor
    · intro h
      rcases h with rfl | (hx | hx) | ⟨u, hu | hu, w, hw, hpath⟩
      · exact .inl List.mem_cons_self
      · obtain ⟨hsucc, hout⟩ := (hnew x).mp hx
        exact .inr ⟨v, List.mem_cons_self, x, hsucc, .refl hout⟩
      · exact .inl (List.mem_cons_of_mem v hx)
      · obtain ⟨hsucc, hout⟩ := (hnew u).mp hu
        have hpath' := hpath.mono Finset.subset_union_left
        exact .inr ⟨v, List.mem_cons_self, u, hsucc, .head hout hw hpath'⟩
      · have hpath' := hpath.mono Finset.subset_union_left
        exact .inr ⟨u, List.mem_cons_of_mem v hu, w, hw, hpath'⟩
    · intro h
      rcases h with hx | ⟨u, hu, w, hw, hpath⟩
      · exact (List.mem_cons.mp hx).imp_right fun hx => .inl (.inr hx)
      · right
        -- the new vertices cut the path, and one that leaves none of them avoids them
        rcases hpath.last (fresh E (succ v)).toFinset with hpath' | hx | ⟨u', hu', hlast⟩
        · cases List.mem_cons.mp hu with
          | inl heq =>
            have hmem := (hnew w).mpr ⟨heq ▸ hw, hpath.1⟩
            exact absurd (Finset.mem_union_right E hmem) hpath'.1
          | inr hu => exact .inr ⟨u, .inr hu, w, hw, hpath'⟩
        · exact .inl (.inl hx)
        · exact .inr ⟨u', .inl hu', hlast⟩

theorem nodup (h : Pops succ E stack L) (hstack : stack.Nodup) (hE : ∀ v ∈ stack, v ∈ E) :
    L.Nodup := by
  induction h with
  | nil => exact List.nodup_nil
  | @pop E v stack L rest ih =>
    rw [List.nodup_cons] at hstack
    have hvE : v ∈ E := hE v List.mem_cons_self
    have hnodup : ((fresh E (succ v)).reverse ++ stack).Nodup := by
      apply List.Nodup.append (List.nodup_reverse.mpr (nodup_fresh E (succ v))) hstack.2
      intro u hu hold
      exact (mem_fresh.mp (List.mem_reverse.mp hu)).2 (hE u (List.mem_cons_of_mem v hold))
    have hsub : ∀ u ∈ (fresh E (succ v)).reverse ++ stack,
        u ∈ E ∪ (fresh E (succ v)).toFinset := by
      intro u hu
      cases List.mem_append.mp hu with
      | inl hnew =>
        exact Finset.mem_union_right E (List.mem_toFinset.mpr (List.mem_reverse.mp hnew))
      | inr hold => exact Finset.mem_union_left _ (hE u (List.mem_cons_of_mem v hold))
    rw [List.nodup_cons]
    refine ⟨?_, ih hnodup hsub⟩
    intro hv
    rcases (rest.mem_iff v).mp hv with hmem | ⟨u, -, w, -, hpath⟩
    · cases List.mem_append.mp hmem with
      | inl hnew => exact (mem_fresh.mp (List.mem_reverse.mp hnew)).2 hvE
      | inr hold => exact hstack.1 hold
    · exact hpath.notMem (Finset.mem_union_left _ hvE)

/-- From a single vertex the search explores what the vertex reaches. -/
theorem block (hw : w ∉ E) (h : Pops succ (insert w E) [w] L) (x : V) :
    x ∈ L ↔ Reach succ E w x := by
  rw [h.mem_iff, Reach.iff_first hw]
  simp

theorem nodup_block (h : Pops succ (insert w E) [w] L) : L.Nodup := by
  apply h.nodup (List.nodup_singleton w)
  intro v hv
  rw [List.mem_singleton.mp hv]
  exact Finset.mem_insert_self w E

end Pops

/-- A search with a stack from each of the given vertices that is not explored yet, with the
vertices in the order in which they leave the stack. -/
inductive StackSweep (succ : V → List V) : Finset V → List V → List (V × List V) → Prop where
  | nil (E : Finset V) : StackSweep succ E [] []
  | skip {E : Finset V} {w : V} {ws : List V} {bs : List (V × List V)} (hw : w ∈ E)
      (rest : StackSweep succ E ws bs) : StackSweep succ E (w :: ws) bs
  | visit {E : Finset V} {w : V} {ws L : List V} {bs : List (V × List V)} (hw : w ∉ E)
      (below : Pops succ (insert w E) [w] L)
      (rest : StackSweep succ (E ∪ L.toFinset) ws bs) :
      StackSweep succ E (w :: ws) ((w, L) :: bs)

namespace StackSweep

variable {bs bs' : List (V × List V)}

theorem unique (h : StackSweep succ E ws bs) (h' : StackSweep succ E ws bs') : bs = bs' := by
  induction h generalizing bs' with
  | nil =>
    cases h'
    rfl
  | skip hw _ ih =>
    cases h' with
    | skip _ rest' => exact ih rest'
    | visit hw' _ _ => exact absurd hw hw'
  | visit hw below _ ih =>
    cases h' with
    | skip hw' _ => exact absurd hw' hw
    | visit _ below' rest' =>
      obtain rfl := below.unique below'
      rw [ih rest']

theorem exploration (h : StackSweep succ E ws bs) : Exploration succ E ws bs := by
  induction h with
  | nil E => exact .nil E
  | skip hw _ ih => exact .skip hw ih
  | visit hw below _ ih => exact .visit hw (below.block hw) below.nodup_block ih

end StackSweep
end Foundation
