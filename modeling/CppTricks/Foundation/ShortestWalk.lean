import Mathlib.Algebra.Order.Group.Int
import Mathlib.Data.Set.Insert
import Mathlib.Order.Bounds.Basic

/-! Walks in a weighted graph, and the search that settles the nearest vertex first. -/
namespace Foundation

variable {V : Type} {edge : V → V → ℤ → Prop} {s u v : V} {cap : ℤ}

/-- There is a walk from `s` to the vertex of this length. -/
inductive WalkLength (edge : V → V → ℤ → Prop) (s : V) : V → ℤ → Prop where
  | nil : WalkLength edge s s 0
  | snoc {u v : V} {l w : ℤ} (walk : WalkLength edge s u l) (last : edge u v w) :
      WalkLength edge s v (l + w)

/-- The shortest length of a walk, when it is below `cap`. -/
def CappedDistance (edge : V → V → ℤ → Prop) (s : V) (cap : ℤ) (v : V) (d : ℤ) : Prop :=
  IsLeast ({cap} ∪ {l | WalkLength edge s v l}) d

/-- What holds of the labels `d` between two rounds of a search that has settled `done`. -/
structure Search (edge : V → V → ℤ → Prop) (s : V) (cap : ℤ) (d : V → ℤ) (done : Set V) :
    Prop where
  le_cap : ∀ v, d v ≤ cap
  walk : ∀ v, d v = cap ∨ WalkLength edge s v (d v)
  source : d s ≤ 0
  final : ∀ v ∈ done, ∀ l, WalkLength edge s v l → d v ≤ l
  relaxed : ∀ u ∈ done, ∀ v w, edge u v w → d v ≤ d u + w

/-- The labels `d'` are `d` after the edges out of `u` have been relaxed. -/
structure Relaxed (edge : V → V → ℤ → Prop) (u : V) (d d' : V → ℤ) (done : Set V) : Prop where
  le : ∀ v, d' v ≤ d v
  frozen : ∀ v ∈ insert u done, d' v = d v
  relaxed : ∀ v w, v ∉ insert u done → edge u v w → d' v ≤ d u + w
  source : ∀ v, d' v = d v ∨ ∃ w, edge u v w ∧ d' v = d u + w

namespace Search

variable {d d' : V → ℤ} {done : Set V}

theorem start [DecidableEq V] (hcap : 0 ≤ cap) :
    Search edge s cap (fun v => if v = s then 0 else cap) ∅ where
  le_cap v := by
    split
    · exact hcap
    · exact Int.le_refl _
  walk v := by
    by_cases h : v = s
    · subst v
      exact .inr (by rw [if_pos rfl]; exact .nil)
    · exact .inl (if_neg h)
  source := by rw [if_pos rfl]
  final _ h := absurd h (Set.notMem_empty _)
  relaxed _ h := absurd h (Set.notMem_empty _)

/-- A walk that ends outside the settled vertices passes a vertex outside whose label is not above
its length. -/
theorem exists_le_of_walk (h : Search edge s cap d done) (hw : ∀ u v w, edge u v w → 0 ≤ w)
    {l : ℤ} (hwalk : WalkLength edge s v l) (hv : v ∉ done) : ∃ y ∉ done, d y ≤ l := by
  induction hwalk with
  | nil => exact ⟨s, hv, h.source⟩
  | @snoc x v l w hwalk hedge ih =>
    have hnonneg := hw x v w hedge
    by_cases hx : x ∈ done
    · have hlast := h.relaxed x hx v w hedge
      have hfinal := h.final x hx l hwalk
      exact ⟨v, hv, by omega⟩
    · obtain ⟨y, hy, hle⟩ := ih hx
      exact ⟨y, hy, by omega⟩

/-- The nearest vertex that is not settled has its final label. -/
theorem le_of_walk (h : Search edge s cap d done) (hw : ∀ u v w, edge u v w → 0 ≤ w)
    (hu : u ∉ done) (hmin : ∀ v ∉ done, d u ≤ d v) {l : ℤ} (hwalk : WalkLength edge s u l) :
    d u ≤ l := by
  obtain ⟨y, hy, hle⟩ := h.exists_le_of_walk hw hwalk hu
  exact Int.le_trans (hmin y hy) hle

/-- One round: the nearest vertex is settled and its edges are relaxed. -/
theorem visit (h : Search edge s cap d done) (hw : ∀ u v w, edge u v w → 0 ≤ w)
    (hu : u ∉ done) (hmin : ∀ v ∉ done, d u ≤ d v) (hcap : d u ≠ cap)
    (hrelax : Relaxed edge u d d' done) : Search edge s cap d' (insert u done) := by
  have hwalk : WalkLength edge s u (d u) := (h.walk u).resolve_left hcap
  have hself : d' u = d u := hrelax.frozen u (Set.mem_insert u done)
  have hfinal : ∀ v ∈ insert u done, ∀ l, WalkLength edge s v l → d v ≤ l := by
    rintro v (rfl | hv) l hl
    · exact h.le_of_walk hw hu hmin hl
    · exact h.final v hv l hl
  refine ⟨fun v => Int.le_trans (hrelax.le v) (h.le_cap v), fun v => ?_,
    Int.le_trans (hrelax.le s) h.source, fun v hv l hl => ?_, ?_⟩
  · obtain heq | ⟨w, hedge, heq⟩ := hrelax.source v
    · rw [heq]
      exact h.walk v
    · rw [heq]
      exact .inr (hwalk.snoc hedge)
  · rw [hrelax.frozen v hv]
    exact hfinal v hv l hl
  · rintro x (rfl | hx) v w hedge
    · rw [hself]
      by_cases hv : v ∈ insert x done
      · rw [hrelax.frozen v hv]
        exact hfinal v hv _ (hwalk.snoc hedge)
      · exact hrelax.relaxed v w hv hedge
    · rw [hrelax.frozen x (Set.mem_insert_of_mem u hx)]
      exact Int.le_trans (hrelax.le v) (h.relaxed x hx v w hedge)

/-- When no label outside the settled vertices is below the cap, every label is final. -/
theorem cappedDistance (h : Search edge s cap d done) (hw : ∀ u v w, edge u v w → 0 ≤ w)
    (hstop : ∀ v ∉ done, cap ≤ d v) (v : V) : CappedDistance edge s cap v (d v) := by
  refine ⟨h.walk v, ?_⟩
  rintro l (rfl | hl)
  · exact h.le_cap v
  · by_cases hv : v ∈ done
    · exact h.final v hv l hl
    · obtain ⟨y, hy, hle⟩ := h.exists_le_of_walk hw hl hv
      exact Int.le_trans (h.le_cap v) (Int.le_trans (hstop y hy) hle)

end Search
end Foundation
