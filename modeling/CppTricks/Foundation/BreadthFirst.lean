import CppTricks.Foundation.DepthFirst
import Mathlib.Data.Finset.Card
import Mathlib.Data.List.Induction
import Mathlib.Logic.Function.Basic
import Mathlib.Order.Bounds.Basic

/-! Breadth-first search: vertices leave a queue in the order of their numbers of hops. -/
namespace Foundation

variable {V : Type} {succ : V → List V} {start : V}

/-- There is a walk from `start` to the vertex with this number of edges. -/
inductive Hops (succ : V → List V) (start : V) : V → ℕ → Prop where
  | nil : Hops succ start start 0
  | snoc {u v : V} {n : ℕ} (walk : Hops succ start u n) (last : v ∈ succ u) :
      Hops succ start v (n + 1)

theorem Hops.path {v : V} {n : ℕ} (h : Hops succ start v n) : HasPath succ start v := by
  induction h with
  | nil => exact .refl
  | snoc _ hlast ih => exact ih.tail hlast

theorem exists_hops {v : V} (h : HasPath succ start v) : ∃ n, Hops succ start v n := by
  induction h with
  | refl => exact ⟨0, .nil⟩
  | tail _ hstep ih =>
    obtain ⟨n, hn⟩ := ih
    exact ⟨n + 1, hn.snoc hstep⟩

/-- The vertices that have left the queue, those in it, and the levels of both. -/
structure BreadthFirst (V : Type) where
  level : V → ℕ
  out : List V
  queue : List V

namespace BreadthFirst

variable {s t : BreadthFirst V} {u v w : V}

def seen (s : BreadthFirst V) : List V := s.out ++ s.queue

def discover [DecidableEq V] (v : V) (s : BreadthFirst V) (w : V) : BreadthFirst V :=
  if w ∈ s.seen then s
  else ⟨Function.update s.level w (s.level v + 1), s.out, s.queue ++ [w]⟩

/-- `none` is that it takes more than `fuel` rounds. -/
def search [DecidableEq V] (succ : V → List V) : ℕ → BreadthFirst V → Option (BreadthFirst V)
  | 0, _ => none
  | fuel + 1, s =>
    match s.queue with
    | [] => some s
    | v :: queue => search succ fuel ((succ v).foldl (discover v) ⟨s.level, s.out ++ [v], queue⟩)

def init (start : V) : BreadthFirst V := ⟨fun _ => 0, [], [start]⟩

/-- Every vertex is seen once, in the order of the levels, which are lengths of walks. -/
structure Ordered (succ : V → List V) (start : V) (s : BreadthFirst V) : Prop where
  source : start ∈ s.seen ∧ s.level start = 0
  nodup : s.seen.Nodup
  sorted : s.seen.Pairwise fun u v => s.level u ≤ s.level v
  hops : ∀ v ∈ s.seen, Hops succ start v (s.level v)

/-- The edge from `u` to `w` has been followed. -/
def Covers (s : BreadthFirst V) (u w : V) : Prop := w ∈ s.seen ∧ s.level w ≤ s.level u + 1

/-- No vertex is more than one level below `v`. -/
def Below (s : BreadthFirst V) (v : V) : Prop := ∀ u ∈ s.seen, s.level u ≤ s.level v + 1

/-- What holds between two rounds. -/
structure Searching (succ : V → List V) (start : V) (s : BreadthFirst V) : Prop
    extends s.Ordered succ start where
  below : ∀ v ∈ s.queue, s.Below v
  covers : ∀ u ∈ s.out, ∀ w ∈ succ u, s.Covers u w

/-- Vertices have been added at the back of the queue. -/
structure Extends (s t : BreadthFirst V) : Prop where
  out : t.out = s.out
  queue : s.queue <+: t.queue
  level : ∀ v ∈ s.seen, t.level v = s.level v

namespace Extends

theorem refl (s : BreadthFirst V) : s.Extends s := ⟨rfl, List.prefix_rfl, fun _ _ => rfl⟩

theorem seen (h : s.Extends t) (hv : v ∈ s.seen) : v ∈ t.seen := by
  unfold BreadthFirst.seen at hv ⊢
  rw [h.out, List.mem_append]
  exact (List.mem_append.mp hv).imp_right fun hqueue => h.queue.subset hqueue

theorem trans {r : BreadthFirst V} (h : r.Extends s) (h' : s.Extends t) : r.Extends t where
  out := h'.out.trans h.out
  queue := h.queue.trans h'.queue
  level v hv := (h'.level v (h.seen hv)).trans (h.level v hv)

theorem covers (h : s.Extends t) (hu : u ∈ s.seen) (hcovers : s.Covers u w) : t.Covers u w := by
  refine ⟨h.seen hcovers.1, ?_⟩
  rw [h.level u hu, h.level w hcovers.1]
  exact hcovers.2

end Extends

section Discover

variable [DecidableEq V]

theorem discover_extends (s : BreadthFirst V) (v w : V) : s.Extends (discover v s w) := by
  unfold discover
  by_cases hw : w ∈ s.seen
  · rw [if_pos hw]
    exact .refl s
  · rw [if_neg hw]
    refine ⟨rfl, List.prefix_append _ _, ?_⟩
    intro u hu
    have hne : u ≠ w := fun heq => hw (heq ▸ hu)
    exact Function.update_of_ne hne _ _

theorem discover_new (v : V) (hw : w ∉ s.seen) : (discover v s w).seen = s.seen ++ [w] ∧
    (discover v s w).level w = s.level v + 1 := by
  unfold discover
  rw [if_neg hw]
  exact ⟨(List.append_assoc _ _ _).symm, Function.update_self _ _ _⟩

/-- A new vertex is no nearer than any that was seen before it. -/
theorem discover_ordered (h : s.Ordered succ start) (hv : v ∈ s.seen) (hbelow : s.Below v)
    (hw : w ∈ succ v) : (discover v s w).Ordered succ start ∧ (discover v s w).Below v ∧
      (discover v s w).Covers v w := by
  by_cases hseen : w ∈ s.seen
  · have hsame : discover v s w = s := if_pos hseen
    rw [hsame]
    exact ⟨h, hbelow, hseen, hbelow w hseen⟩
  · have hext := discover_extends s v w
    obtain ⟨hall, hlevel⟩ := discover_new v hseen
    have hv' : (discover v s w).level v = s.level v := hext.level v hv
    have hbelow' : (discover v s w).Below v := by
      intro u hu
      rw [hall, List.mem_append, List.mem_singleton] at hu
      rw [hv']
      cases hu with
      | inl hold =>
        rw [hext.level u hold]
        exact hbelow u hold
      | inr hnew => rw [hnew, hlevel]
    have hcovers : (discover v s w).Covers v w := by
      refine ⟨?_, by rw [hlevel, hv']⟩
      rw [hall]
      exact List.mem_append_right s.seen (List.mem_singleton.mpr rfl)
    refine ⟨⟨?_, ?_, ?_, ?_⟩, hbelow', hcovers⟩
    · exact ⟨hext.seen h.source.1, (hext.level start h.source.1).trans h.source.2⟩
    · rw [hall]
      apply List.Nodup.append h.nodup (List.nodup_singleton w)
      intro x hx hxw
      exact hseen (List.mem_singleton.mp hxw ▸ hx)
    · rw [hall, List.pairwise_append]
      refine ⟨?_, List.pairwise_singleton _ _, ?_⟩
      · apply h.sorted.imp_of_mem
        intro x y hx hy hle
        rwa [hext.level x hx, hext.level y hy]
      · intro x hx y hy
        rw [List.mem_singleton.mp hy, hlevel, hext.level x hx]
        exact hbelow x hx
    · intro u hu
      rw [hall, List.mem_append, List.mem_singleton] at hu
      cases hu with
      | inl hold =>
        rw [hext.level u hold]
        exact h.hops u hold
      | inr hnew =>
        rw [hnew, hlevel]
        exact (h.hops v hv).snoc hw

theorem foldl_discover_extends (s : BreadthFirst V) (v : V) (ws : List V) :
    s.Extends (ws.foldl (discover v) s) := by
  induction ws generalizing s with
  | nil => exact .refl s
  | cons w ws ih => exact (discover_extends s v w).trans (ih (discover v s w))

/-- The edges from `v` to all of `ws` are followed. -/
theorem foldl_discover (h : s.Ordered succ start) (hv : v ∈ s.seen) (hbelow : s.Below v)
    (ws : List V) (hws : ws ⊆ succ v) :
    (ws.foldl (discover v) s).Ordered succ start ∧ (ws.foldl (discover v) s).Below v ∧
      ∀ w ∈ ws, (ws.foldl (discover v) s).Covers v w := by
  induction ws using List.reverseRecOn with
  | nil => exact ⟨h, hbelow, nofun⟩
  | append_singleton ws w ih =>
    obtain ⟨hordered, hbelow', hcovers⟩ := ih fun x hx => hws (List.mem_append_left [w] hx)
    have hext := foldl_discover_extends s v ws
    have hw : w ∈ succ v := hws (List.mem_append_right ws (List.mem_singleton.mpr rfl))
    obtain ⟨hordered', hbelow'', hlast⟩ := discover_ordered hordered (hext.seen hv) hbelow' hw
    have hext' := discover_extends (ws.foldl (discover v) s) v w
    rw [List.foldl_append]
    refine ⟨hordered', hbelow'', ?_⟩
    intro x hx
    cases List.mem_append.mp hx with
    | inl hold => exact hext'.covers (hext.seen hv) (hcovers x hold)
    | inr hnew => exact List.mem_singleton.mp hnew ▸ hlast

/-- One round: the nearest vertex leaves the queue, and its edges are followed. -/
theorem Searching.round (h : s.Searching succ start) {queue : List V}
    (hqueue : s.queue = v :: queue) :
    ((succ v).foldl (discover v) ⟨s.level, s.out ++ [v], queue⟩).Searching succ start ∧
      ((succ v).foldl (discover v) ⟨s.level, s.out ++ [v], queue⟩).out = s.out ++ [v] := by
  have hseen : BreadthFirst.seen ⟨s.level, s.out ++ [v], queue⟩ = s.seen := by
    unfold BreadthFirst.seen
    rw [hqueue, List.append_assoc]
    rfl
  have hpopped : Ordered succ start ⟨s.level, s.out ++ [v], queue⟩ :=
    ⟨hseen ▸ h.source, hseen ▸ h.nodup, hseen ▸ h.sorted, hseen ▸ h.hops⟩
  have hv : v ∈ BreadthFirst.seen ⟨s.level, s.out ++ [v], queue⟩ := by
    rw [hseen]
    unfold BreadthFirst.seen
    rw [hqueue]
    exact List.mem_append_right s.out List.mem_cons_self
  have hbelow : Below ⟨s.level, s.out ++ [v], queue⟩ v := by
    intro u hu
    rw [hseen] at hu
    exact h.below v (hqueue ▸ List.mem_cons_self) u hu
  have hext := foldl_discover_extends ⟨s.level, s.out ++ [v], queue⟩ v (succ v)
  obtain ⟨hordered, hbelow', hcovers⟩ :=
    foldl_discover hpopped hv hbelow (succ v) (List.Subset.refl _)
  refine ⟨⟨hordered, ?_, ?_⟩, hext.out⟩
  · intro u hu x hx
    have hsorted := hordered.sorted
    unfold BreadthFirst.seen at hsorted
    have hle := (List.pairwise_append.mp hsorted).2.2 v
      (hext.out ▸ List.mem_append_right s.out (List.mem_singleton.mpr rfl)) u hu
    exact (hbelow' x hx).trans (Nat.succ_le_succ hle)
  · intro u hu w hw
    rw [hext.out] at hu
    cases List.mem_append.mp hu with
    | inl hold =>
      have hcover := h.covers u hold w hw
      apply hext.covers
      · rw [hseen]
        exact List.mem_append_left s.queue hold
      · exact ⟨hseen ▸ hcover.1, hcover.2⟩
    | inr hnew =>
      obtain rfl := List.mem_singleton.mp hnew
      exact hcovers w hw

omit [DecidableEq V] in
theorem init_searching (start : V) : (init start).Searching succ start where
  source := ⟨List.mem_singleton.mpr rfl, rfl⟩
  nodup := List.nodup_singleton start
  sorted := List.pairwise_singleton _ _
  hops v hv := by
    rw [List.mem_singleton.mp hv]
    exact .nil
  below v _ u _ := Nat.zero_le _
  covers u hu := nomatch hu

omit [DecidableEq V] in
/-- No more vertices leave the queue than a closed set has. -/
private theorem Ordered.length_seen_le {U : Finset V} (hU : Closed succ U) (hstart : start ∈ U)
    (h : s.Ordered succ start) : s.seen.length ≤ U.card := by
  classical
  rw [← List.toFinset_card_of_nodup h.nodup]
  apply Finset.card_le_card
  intro v hv
  exact hU.path hstart (h.hops v (List.mem_toFinset.mp hv)).path

/-- The queue runs empty, after one round at most for each vertex of a closed set. -/
theorem Searching.search {U : Finset V} (hU : Closed succ U) (hstart : start ∈ U) (fuel : ℕ)
    (h : s.Searching succ start) (hfuel : U.card < s.out.length + fuel) :
    ∃ t, search succ fuel s = some t ∧ t.Searching succ start ∧ t.queue = [] := by
  induction fuel generalizing s with
  | zero =>
    have hlen := h.length_seen_le hU hstart
    unfold BreadthFirst.seen at hlen
    rw [List.length_append] at hlen
    omega
  | succ fuel ih =>
    unfold BreadthFirst.search
    cases hqueue : s.queue with
    | nil => exact ⟨s, rfl, h, hqueue⟩
    | cons v queue =>
      obtain ⟨hround, hout⟩ := h.round hqueue
      apply ih hround
      rw [hout, List.length_append, List.length_singleton]
      omega

end Discover

/-- With an empty queue all levels are least numbers of hops. -/
theorem Searching.isLeast (h : s.Searching succ start) (hempty : s.queue = []) :
    (∀ v, v ∈ s.out ↔ HasPath succ start v) ∧
      ∀ v ∈ s.out, IsLeast {n | Hops succ start v n} (s.level v) := by
  have hseen : s.seen = s.out := by
    unfold BreadthFirst.seen
    rw [hempty, List.append_nil]
  have hwalk : ∀ v n, Hops succ start v n → v ∈ s.out ∧ s.level v ≤ n := by
    intro v n hv
    induction hv with
    | nil =>
      obtain ⟨hmem, hzero⟩ := h.source
      exact ⟨hseen ▸ hmem, Nat.le_of_eq hzero⟩
    | @snoc u w n _ hlast ih =>
      obtain ⟨hmem, hle⟩ := h.covers u ih.1 w hlast
      exact ⟨hseen ▸ hmem, hle.trans (Nat.succ_le_succ ih.2)⟩
  constructor
  · intro v
    constructor
    · intro hv
      exact (h.hops v (hseen ▸ hv)).path
    · intro hpath
      obtain ⟨n, hn⟩ := exists_hops hpath
      exact (hwalk v n hn).1
  · intro v hv
    constructor
    · exact h.hops v (hseen ▸ hv)
    · intro n hn
      exact (hwalk v n hn).2

end BreadthFirst
end Foundation
