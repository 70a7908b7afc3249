import CppTricks.Graph.Fuse
import Mathlib.Algebra.BigOperators.Group.List.Basic
import Mathlib.Data.Finset.Dedup
import Mathlib.Data.List.FinRange
import Mathlib.Data.List.Perm.Lattice
import Mathlib.Order.Bounds.Basic

/-! The contraction loop keeps the quotient of the source graph, and ends with a cut of it. -/
namespace CppTricks.Graph.MinCut
open Foundation

variable {V : Type} [DecidableEq V] {G : AdjList V}

/-- A connected undirected multigraph without loops, given symmetrically. -/
structure Valid (G : AdjList V) : Prop where
  two_le : 2 ≤ G.keys.length
  symm : ∀ u v, (G.ends u).count v = (G.ends v).count u
  loopFree : ∀ v, v ∉ G.ends v
  connected : ∀ u ∈ G, ∀ v ∈ G, HasPath G.ends u v

/-- The edges that leave a set of vertices. -/
def cutSize (G : AdjList V) (S : Finset V) : ℕ := (pairs G).countP fun p => p.1 ∈ S ∧ p.2 ∉ S

def IsCut (G : AdjList V) (S : Finset V) : Prop := (∃ u ∈ G, u ∈ S) ∧ ∃ v ∈ G, v ∉ S

def IsMinCut (G : AdjList V) (c : ℕ) : Prop := IsLeast {c | ∃ S, IsCut G S ∧ cutSize G S = c} c

/-! ### The pairs of the source graph -/

theorem mem_pairs_iff {u v : V} : (u, v) ∈ pairs G ↔ v ∈ G.ends u := by
  unfold pairs
  rw [List.mem_flatMap]
  constructor
  · rintro ⟨e, he, hmem⟩
    obtain ⟨w, hw, heq⟩ := List.mem_map.mp hmem
    obtain ⟨rfl, rfl⟩ := Prod.mk.inj heq
    rwa [← (AdjList.mem_entries_iff.mp he).2]
  · intro hv
    have hu : u ∈ G := by
      by_contra hu
      simp [AdjList.ends, AList.lookup_eq_none.mpr hu] at hv
    exact ⟨⟨u, G.ends u⟩, AdjList.mem_entries_iff.mpr ⟨hu, rfl⟩, List.mem_map_of_mem hv⟩

private theorem count_flatMap_keys (f : V → List V) (keys : List V) (hkeys : keys.Nodup) (u v : V) :
    (keys.flatMap fun k => (f k).map fun value => (k, value)).count (u, v) =
      if u ∈ keys then (f u).count v else 0 := by
  induction keys with
  | nil => simp
  | cons k keys ih =>
    rw [List.nodup_cons] at hkeys
    rw [List.flatMap_cons, List.count_append, ih hkeys.2]
    by_cases hk : u = k
    · subst k
      rw [if_neg hkeys.1, if_pos (by simp), Nat.add_zero,
        List.count_map_of_injective (f u) _ (Prod.mk_right_injective u)]
    · have hnot : (u, v) ∉ (f k).map fun value => (k, value) := by
        simp only [List.mem_map, Prod.mk.injEq, not_exists, not_and]
        exact fun _ _ heq => absurd heq.symm hk
      simp [List.count_eq_zero_of_not_mem hnot, hk]

theorem count_pairs (u v : V) : (pairs G).count (u, v) = (G.ends u).count v := by
  have hpairs : pairs G = G.keys.flatMap fun k => (G.ends k).map fun value => (k, value) := by
    unfold pairs
    rw [AList.keys, List.keys, List.flatMap_map]
    apply List.flatMap_congr
    intro e he
    rw [(AdjList.mem_entries_iff.mp he).2]
  rw [hpairs, count_flatMap_keys G.ends G.keys G.keys_nodup]
  split
  · rfl
  · rename_i hu
    rw [← AList.mem_keys] at hu
    simp [AdjList.ends, AList.lookup_eq_none.mpr hu]

private theorem exists_mem_ne {l : List V} (hl : l.Nodup) (htwo : 2 ≤ l.length) (u : V) :
    ∃ v ∈ l, v ≠ u := by
  match l, hl, htwo with
  | a :: c :: l, hl, _ =>
    by_cases ha : a = u
    · refine ⟨c, by simp, ?_⟩
      rintro rfl
      rw [List.nodup_cons] at hl
      exact hl.1 (by simp [ha])
    · exact ⟨a, by simp, ha⟩

namespace Valid

theorem perm_swap (hG : Valid G) : (pairs G).Perm ((pairs G).map Prod.swap) := by
  rw [List.perm_iff_count]
  rintro ⟨u, v⟩
  have hswap := List.count_map_of_injective (pairs G) Prod.swap Prod.swap_injective (v, u)
  rw [Prod.swap_prod_mk] at hswap
  rw [hswap, count_pairs, count_pairs, hG.symm]

theorem swap_mem (hG : Valid G) {u v : V} (h : (u, v) ∈ pairs G) : (v, u) ∈ pairs G :=
  hG.perm_swap.mem_iff.mpr (List.mem_map.mpr ⟨(u, v), h, rfl⟩)

theorem mem_of_pair (hG : Valid G) {u v : V} (h : (u, v) ∈ pairs G) : u ∈ G ∧ v ∈ G := by
  have hmem : ∀ a b, (a, b) ∈ pairs G → a ∈ G := by
    intro a b hab
    by_contra ha
    rw [mem_pairs_iff, AdjList.ends, AList.lookup_eq_none.mpr ha] at hab
    simp at hab
  exact ⟨hmem u v h, hmem v u (hG.swap_mem h)⟩

theorem exists_pair (hG : Valid G) {u : V} (hu : u ∈ G) : ∃ v, (u, v) ∈ pairs G := by
  obtain ⟨v, hv, hne⟩ := exists_mem_ne G.keys_nodup hG.two_le u
  obtain heq | ⟨w, hw, -⟩ := Relation.ReflTransGen.cases_head
    (hG.connected u hu v (AList.mem_keys.mpr hv))
  · exact absurd heq.symm hne
  · exact ⟨w, mem_pairs_iff.mpr hw⟩

end Valid

/-! ### Work graphs that hold the quotient by a labelling -/

namespace WorkGraph

variable {m : ℕ}

def list (st : WorkGraph V m) (k : V) : List (Fin m) := (st.graph.lookup k).getD []

def count (st : WorkGraph V m) (k l : V) : ℕ :=
  (st.list k).countP fun i => (st.edges i).end = l

/-- The work graph is an undirected multigraph without loops, each edge in the list of its own
begin, and connected. -/
structure WellFormed (st : WorkGraph V m) : Prop where
  own : ∀ k, ∀ i ∈ st.list k, (st.edges i).begin = k
  loopFree : ∀ k, ∀ i ∈ st.list k, (st.edges i).end ≠ k
  symm : ∀ k l, st.count k l = st.count l k
  connected : ∀ k ∈ st.graph, ∀ l ∈ st.graph,
    HasPath (fun k => (st.list k).map fun i => (st.edges i).end) k l

end WorkGraph

/-- The ends of the source edge of an object, as the classes they have been merged into. -/
def classBegin (G : AdjList V) (cls : V → V) (i : Fin (pairs G).length) : V :=
  cls ((pairs G).get i).1

def classEnd (G : AdjList V) (cls : V → V) (i : Fin (pairs G).length) : V :=
  cls ((pairs G).get i).2

/-- The work graph is the quotient of the source graph by the classes of `cls`. -/
structure Quotient (G : AdjList V) (cls : V → V) (st : WorkGraph V (pairs G).length) : Prop where
  represents : Represents (classBegin G cls) (classEnd G cls) st
  source : ∀ i, (st.edges i).source = (pairs G).get i
  mem_iff : ∀ k, k ∈ st.graph ↔ ∃ v ∈ G, cls v = k

namespace Quotient

variable {cls : V → V} {st : WorkGraph V (pairs G).length}

theorem mem_list (h : Quotient G cls st) (k : V) (i : Fin (pairs G).length) :
    i ∈ st.list k ↔ classBegin G cls i = k ∧ classEnd G cls i ≠ k := by
  unfold WorkGraph.list
  cases hk : st.graph.lookup k with
  | none =>
    rw [Option.getD_none]
    apply iff_of_false List.not_mem_nil
    intro hi
    exact AList.lookup_eq_none.mp hk (hi.1 ▸ h.represents.begin_mem i)
  | some L => exact h.represents.mem_list k L hk i

theorem nodup_list (h : Quotient G cls st) (k : V) : (st.list k).Nodup := by
  rw [WorkGraph.list]
  cases hk : st.graph.lookup k with
  | none => exact List.nodup_nil
  | some L => exact h.represents.nodup k L hk

theorem list_perm (h : Quotient G cls st) (k : V) : (st.list k).Perm
    ((List.finRange _).filter fun i => classBegin G cls i = k ∧ classEnd G cls i ≠ k) := by
  rw [List.perm_ext_iff_of_nodup (h.nodup_list k) ((List.nodup_finRange _).filter _)]
  intro i
  rw [h.mem_list, List.mem_filter]
  simp

theorem work_eq (h : Quotient G cls st) {k : V} {i : Fin (pairs G).length} (hi : i ∈ st.list k) :
    (st.edges i).work = (k, classEnd G cls i) := by
  obtain ⟨rfl, hne⟩ := (h.mem_list k i).mp hi
  exact h.represents.work i hne.symm

omit [DecidableEq V] in
private theorem countP_finRange (p : V × V → Bool) :
    (List.finRange (pairs G).length).countP (fun i => p ((pairs G).get i)) =
      (pairs G).countP p := by
  have hmap := congrArg (List.countP p) (List.map_get_finRange (pairs G))
  rwa [List.countP_map] at hmap

theorem count_eq (h : Quotient G cls st) {k l : V} (hkl : k ≠ l) :
    st.count k l = (pairs G).countP fun p => cls p.1 = k ∧ cls p.2 = l := by
  have hend : ∀ i ∈ st.list k, (st.edges i).end = classEnd G cls i := fun i hi => by
    rw [Edge.end, h.work_eq hi]
  unfold WorkGraph.count
  rw [List.countP_congr fun i hi => by rw [hend i hi],
    (h.list_perm k).countP_eq, List.countP_filter, ← countP_finRange]
  apply List.countP_congr
  intro i _
  rw [Bool.and_eq_true, decide_eq_true_eq, decide_eq_true_eq, decide_eq_true_eq]
  constructor
  · rintro ⟨hl, hk, -⟩
    exact ⟨hk, hl⟩
  · rintro ⟨hk, hl⟩
    exact ⟨hl, hk, fun heq => hkl (heq.symm.trans hl)⟩

theorem length_list (h : Quotient G cls st) (k : V) :
    (st.list k).length = (pairs G).countP fun p => cls p.1 = k ∧ cls p.2 ≠ k := by
  rw [(h.list_perm k).length_eq, ← List.countP_eq_length_filter, ← countP_finRange]
  rfl

private theorem snd_eq_list {e : Sigma fun _ : V => List (Fin (pairs G).length)}
    (he : e ∈ st.graph.entries) : e.2 = st.list e.1 := by
  unfold WorkGraph.list
  rw [show st.graph.lookup e.1 = some e.2 from AList.mem_lookup_iff.mpr he, Option.getD_some]

/-- The lists together hold the edges that are not loops between the classes. -/
theorem mem_lists_iff (h : Quotient G cls st) (i : Fin (pairs G).length) :
    i ∈ st.graph.entries.flatMap Sigma.snd ↔ classBegin G cls i ≠ classEnd G cls i := by
  rw [List.mem_flatMap]
  constructor
  · rintro ⟨e, he, hi⟩
    rw [snd_eq_list he, h.mem_list] at hi
    rw [hi.1]
    exact hi.2.symm
  · intro hne
    obtain ⟨L, hL⟩ := exists_lookup (h.represents.begin_mem i)
    exact ⟨⟨_, L⟩, AList.mem_lookup_iff.mp hL,
      (h.represents.mem_list _ L hL i).mpr ⟨rfl, hne.symm⟩⟩

theorem nodup_lists (h : Quotient G cls st) :
    (st.graph.entries.flatMap Sigma.snd).Nodup := by
  refine List.nodup_flatMap.mpr ⟨fun e he => by rw [snd_eq_list he]; exact h.nodup_list e.1, ?_⟩
  have hkeys := st.graph.keys_nodup
  rw [AList.keys, List.keys, List.Nodup, List.pairwise_map] at hkeys
  refine hkeys.imp_of_mem fun {e f} he hf hne i hi hi' => hne ?_
  rw [snd_eq_list he, h.mem_list] at hi
  rw [snd_eq_list hf, h.mem_list] at hi'
  exact hi.1.symm.trans hi'.1

/-- The source edges that are not loops between the classes, with the classes as their ends. -/
theorem work_perm (h : Quotient G cls st) :
    ((st.graph.entries.flatMap Sigma.snd).map fun i => (st.edges i).work).Perm
      (((pairs G).map (Prod.map cls cls)).filter fun p => p.1 ≠ p.2) := by
  have hids := (List.perm_ext_iff_of_nodup h.nodup_lists ((List.nodup_finRange _).filter
    fun i => classBegin G cls i ≠ classEnd G cls i)).mpr fun i => by
      rw [h.mem_lists_iff]
      simp
  have hwork : (st.graph.entries.flatMap Sigma.snd).map (fun i => (st.edges i).work) =
      (st.graph.entries.flatMap Sigma.snd).map fun i => (classBegin G cls i, classEnd G cls i) :=
    List.map_congr_left fun i hi => h.represents.work i ((h.mem_lists_iff i).mp hi)
  rw [hwork]
  refine (hids.map _).trans (.of_eq ?_)
  conv_rhs => rw [← List.map_get_finRange (pairs G), List.map_map, List.filter_map]
  rfl

theorem wellFormed (h : Quotient G cls st) (hG : Valid G) : st.WellFormed where
  own k i hi := by rw [Edge.begin, h.work_eq hi]
  loopFree k i hi := by
    rw [Edge.end, h.work_eq hi]
    exact ((h.mem_list k i).mp hi).2
  symm k l := by
    by_cases hkl : k = l
    · rw [hkl]
    · rw [h.count_eq hkl, h.count_eq (Ne.symm hkl), hG.perm_swap.countP_eq, List.countP_map]
      apply List.countP_congr
      intro p _
      simp [and_comm]
  connected := by
    intro k hk l hl
    obtain ⟨u, hu, rfl⟩ := (h.mem_iff k).mp hk
    obtain ⟨v, hv, rfl⟩ := (h.mem_iff l).mp hl
    have hpath := hG.connected u hu v hv
    clear hv hl
    induction hpath with
    | refl => exact .refl
    | @tail a c _ hstep ih =>
      by_cases hcls : cls a = cls c
      · rwa [← hcls]
      · obtain ⟨i, hi⟩ := List.get_of_mem (mem_pairs_iff.mpr hstep)
        have hb : classBegin G cls i = cls a := by rw [classBegin, hi]
        have he : classEnd G cls i = cls c := by rw [classEnd, hi]
        have hmem : i ∈ st.list (cls a) := (h.mem_list _ i).mpr ⟨hb, by rw [he]; exact Ne.symm hcls⟩
        refine ih.tail (List.mem_map.mpr ⟨i, hmem, ?_⟩)
        rw [Edge.end, h.work_eq hmem, he]

/-- No list is empty as long as there are two vertices. -/
theorem list_ne_nil (h : Quotient G cls st) (hG : Valid G) (htwo : 2 ≤ st.graph.keys.length)
    {k : V} (hk : k ∈ st.graph) : st.list k ≠ [] := by
  obtain ⟨l, hl, hne⟩ := exists_mem_ne st.graph.keys_nodup htwo k
  obtain heq | ⟨c, hc, -⟩ := Relation.ReflTransGen.cases_head
    ((h.wellFormed hG).connected k hk l (AList.mem_keys.mpr hl))
  · exact absurd heq.symm hne
  · intro hnil
    simp [hnil] at hc

theorem getRandomEdge (h : Quotient G cls st) (hG : Valid G) (htwo : 2 ≤ st.graph.keys.length)
    (r : ℕ × ℕ) : ∃ cut k, getRandomEdge r st = some cut ∧ cut ∈ st.list k := by
  have hkey : r.1 % st.graph.keys.length < st.graph.keys.length := Nat.mod_lt _ (by omega)
  have hmem : st.graph.keys[r.1 % st.graph.keys.length] ∈ st.graph :=
    AList.mem_keys.mpr (List.getElem_mem hkey)
  obtain ⟨L, hL⟩ := exists_lookup hmem
  have hlist : st.list st.graph.keys[r.1 % st.graph.keys.length] = L := by
    unfold WorkGraph.list
    rw [hL, Option.getD_some]
  have hne : L ≠ [] := hlist ▸ h.list_ne_nil hG htwo hmem
  have hidx : r.2 % L.length < L.length := Nat.mod_lt _ (List.length_pos_of_ne_nil hne)
  refine ⟨L[r.2 % L.length], _, ?_, by rw [hlist]; exact List.getElem_mem hidx⟩
  simp [MinCut.getRandomEdge, randint, show st.graph.keys.length ≠ 0 by omega, hkey, hL, hne, hidx]

/-- One fuse merges two classes. -/
theorem fuse (h : Quotient G cls st) (hG : Valid G) {cut : Fin (pairs G).length} {k : V}
    (hcut : cut ∈ st.list k) :
    ∃ st' cls', fuse st cut = some st' ∧ Quotient G cls' st' ∧
      st'.graph.keys.length + 1 = st.graph.keys.length := by
  have hne : classBegin G cls cut ≠ classEnd G cls cut := by
    obtain ⟨rfl, hne⟩ := (h.mem_list k cut).mp hcut
    exact hne.symm
  obtain ⟨st', hfuse, hrep, hsource, hmem⟩ := h.represents.fuse (fun i _ => by
    obtain ⟨j, hj⟩ := List.get_of_mem (hG.swap_mem (List.get_mem (pairs G) i))
    exact ⟨j, by rw [classBegin, hj, classEnd], by rw [classEnd, hj, classBegin]⟩) hne
  have hold := h.represents.end_mem cut
  refine ⟨st', rename (classBegin G cls cut) (classEnd G cls cut) ∘ cls, hfuse,
    ⟨hrep, fun i => by rw [hsource, h.source], fun l => ?_⟩, ?_⟩
  · rw [hmem, h.mem_iff]
    constructor
    · rintro ⟨⟨v, hv, rfl⟩, hl⟩
      exact ⟨v, hv, rename_of_ne hl⟩
    · rintro ⟨v, hv, rfl⟩
      refine ⟨?_, rename_ne hne (cls v)⟩
      rw [Function.comp_apply, rename]
      split
      · exact (h.mem_iff _).mp (h.represents.begin_mem cut)
      · exact ⟨v, hv, rfl⟩
  · have hperm : st'.graph.keys.Perm (st.graph.keys.erase (classEnd G cls cut)) :=
      (List.perm_ext_iff_of_nodup st'.graph.keys_nodup (st.graph.keys_nodup.erase _)).mpr
        fun l => by
          rw [← AList.mem_keys, hmem, st.graph.keys_nodup.mem_erase_iff, ← AList.mem_keys, and_comm]
    rw [hperm.length_eq, List.length_erase_of_mem (AList.mem_keys.mp hold)]
    have := List.length_pos_of_mem (AList.mem_keys.mp hold)
    omega

/-- The loop, for as many iterations as there are numbers. -/
theorem contract (h : Quotient G cls st) (hG : Valid G) (htwo : 2 ≤ st.graph.keys.length)
    (rs : List (ℕ × ℕ)) :
    ∃ st' cls', contract rs st = some st' ∧ Quotient G cls' st' ∧
      st'.graph.keys.length = max 2 (st.graph.keys.length - rs.length) := by
  induction rs generalizing st cls with
  | nil => exact ⟨st, cls, rfl, h, by rw [List.length_nil]; omega⟩
  | cons r rs ih =>
    by_cases hmore : st.graph.keys.length > 2
    · obtain ⟨cut, k, hpick, hcut⟩ := h.getRandomEdge hG htwo r
      obtain ⟨st₁, cls₁, hfuse, h₁, hlen⟩ := h.fuse hG hcut
      obtain ⟨st₂, cls₂, hrest, h₂, hlen₂⟩ := ih h₁ (by omega)
      refine ⟨st₂, cls₂, by simp [MinCut.contract, hmore, hpick, hfuse, hrest], h₂, ?_⟩
      rw [hlen₂, List.length_cons]
      omega
    · exact ⟨st, cls, by rw [MinCut.contract, if_neg hmore], h, by rw [List.length_cons]; omega⟩

/-- With two vertices left, every edge goes from one to the other. -/
theorem length_list_of_two (h : Quotient G cls st) {k l : V}
    (htwo : ∀ v ∈ st.graph, v = k ∨ v = l) : (st.list k).length = st.count k l := by
  unfold WorkGraph.count
  rw [eq_comm, List.countP_eq_length]
  intro i hi
  have hne := ((h.mem_list k i).mp hi).2
  rw [decide_eq_true_eq, Edge.end, h.work_eq hi]
  exact (htwo _ (h.represents.end_mem i)).resolve_left hne

/-- The vertices of a class are a cut, as long as there is another class. -/
theorem isCut (h : Quotient G cls st) {k l : V} (hk : k ∈ st.graph) (hl : l ∈ st.graph)
    (hkl : k ≠ l) : IsCut G (G.keys.toFinset.filter (cls · = k)) := by
  obtain ⟨u, hu, rfl⟩ := (h.mem_iff k).mp hk
  obtain ⟨v, hv, rfl⟩ := (h.mem_iff l).mp hl
  refine ⟨⟨u, hu, ?_⟩, v, hv, ?_⟩
  · simpa using AList.mem_keys.mp hu
  · simp [hkl.symm]

theorem length_list_eq_cutSize (h : Quotient G cls st) (hG : Valid G) (k : V) :
    (st.list k).length = cutSize G (G.keys.toFinset.filter (cls · = k)) := by
  rw [h.length_list, cutSize]
  apply List.countP_congr
  intro p hp
  obtain ⟨hu, hv⟩ := hG.mem_of_pair hp
  simp [AList.mem_keys.mp hu, AList.mem_keys.mp hv]

end Quotient

/-! ### The work graph that `main` builds -/

private theorem foldl_appendEdge {m : ℕ} (edges : Fin m → Edge V) (t : List (Fin m)) (k : V) :
    ((t.foldl (appendEdge edges) ∅).lookup k).getD [] = t.filter (fun i => (edges i).begin = k) ∧
      (k ∈ t.foldl (appendEdge edges) ∅ ↔ ∃ i ∈ t, (edges i).begin = k) := by
  induction t using List.reverseRecOn with
  | nil => simp
  | append_singleton t i ih =>
    rw [List.foldl_append, List.foldl_cons, List.foldl_nil, appendEdge]
    by_cases hk : k = (edges i).begin
    · subst k
      rw [AList.lookup_insert, Option.getD_some, ih.1, List.filter_append]
      simp
    · rw [AList.lookup_insert_ne hk, ih.1, AList.mem_insert, ih.2, List.filter_append]
      simp [hk, Ne.symm hk]

theorem quotient_build (hG : Valid G) : Quotient G id (build G) := by
  have hpair : ∀ i, ((pairs G).get i) ∈ pairs G := List.get_mem (pairs G)
  have hmem : ∀ k, k ∈ (build G).graph ↔ ∃ i, ((pairs G).get i).1 = k := by
    intro k
    unfold build
    rw [(foldl_appendEdge _ _ k).2]
    simp [Edge.begin]
  have hlist : ∀ k L, (build G).graph.lookup k = some L →
      L = (List.finRange _).filter fun i => ((pairs G).get i).1 = k := by
    intro k L hL
    have hfold := (foldl_appendEdge (build G).edges (List.finRange _) k).1
    rw [show (List.finRange _).foldl (appendEdge (build G).edges) ∅ = (build G).graph from rfl, hL,
      Option.getD_some] at hfold
    exact hfold
  refine ⟨⟨fun i _ => rfl, fun i => (hmem _).mpr ⟨i, rfl⟩, fun i => ?_, fun k L hL => ?_,
    fun k L hL i => ?_⟩, fun i => rfl, fun k => ?_⟩
  · obtain ⟨j, hj⟩ := List.get_of_mem (hG.swap_mem (hpair i))
    exact (hmem _).mpr ⟨j, by rw [hj]; rfl⟩
  · rw [hlist k L hL]
    exact (List.nodup_finRange _).filter _
  · rw [hlist k L hL, List.mem_filter]
    simp only [List.mem_finRange, true_and, decide_eq_true_eq, classBegin, classEnd, id]
    refine ⟨fun hb => ⟨hb, fun he => ?_⟩, fun hb => hb.1⟩
    have hloop := mem_pairs_iff.mp (hpair i)
    rw [hb, he] at hloop
    exact hG.loopFree k hloop
  · rw [hmem]
    constructor
    · rintro ⟨i, rfl⟩
      exact ⟨_, (hG.mem_of_pair (hpair i)).1, rfl⟩
    · rintro ⟨u, hu, rfl⟩
      obtain ⟨v, hv⟩ := hG.exists_pair hu
      obtain ⟨i, hi⟩ := List.get_of_mem hv
      exact ⟨i, by rw [hi]; rfl⟩

/-- After any number of iterations, with any edges picked, the work graph is a well-formed quotient
with one vertex fewer for each of them. When two vertices are left, both lists hold the edges
between the two classes, no fewer than a minimum cut. -/
theorem contract_sound (hG : Valid G) (rs : List (ℕ × ℕ)) :
    ∃ st cls, contract rs (build G) = some st ∧
      st.graph.keys.length = max 2 (G.keys.length - rs.length) ∧ st.WellFormed ∧
      (∀ k ∈ st.graph, st.list k ≠ []) ∧ Quotient G cls st ∧
      ((st.graph.entries.flatMap Sigma.snd).map fun i => (st.edges i).work).Perm
        (((pairs G).map (Prod.map cls cls)).filter fun p => p.1 ≠ p.2) ∧
      (G.keys.length ≤ rs.length + 2 → ∃ k l, st.graph.keys = [k, l] ∧
        (st.list k).length = ((pairs G).countP fun p => cls p.1 = k ∧ cls p.2 = l) ∧
        (st.list l).length = (st.list k).length ∧
        ∀ c, IsMinCut G c → c ≤ (st.list k).length) := by
  have hstart := quotient_build hG
  have hlen : (build G).graph.keys.length = G.keys.length := by
    refine ((List.perm_ext_iff_of_nodup (build G).graph.keys_nodup G.keys_nodup).mpr
      fun k => ?_).length_eq
    rw [← AList.mem_keys, hstart.mem_iff, ← AList.mem_keys]
    simp
  obtain ⟨st, cls, hrun, h, hkeys⟩ := hstart.contract hG (by rw [hlen]; exact hG.two_le) rs
  rw [hlen] at hkeys
  have htwo : 2 ≤ st.graph.keys.length := by omega
  have hwf := h.wellFormed hG
  refine ⟨st, cls, hrun, hkeys, hwf, fun k hk => h.list_ne_nil hG htwo hk, h, h.work_perm,
    fun hend => ?_⟩
  obtain ⟨k, l, hkl⟩ := List.length_eq_two.mp (show st.graph.keys.length = 2 by omega)
  have hne : k ≠ l := by
    have hnodup := st.graph.keys_nodup
    rw [hkl] at hnodup
    simpa using hnodup
  have hall : ∀ v ∈ st.graph, v = k ∨ v = l := fun v hv => by
    rw [AList.mem_keys, hkl] at hv
    simpa using hv
  have hk : k ∈ st.graph := AList.mem_keys.mpr (by simp [hkl])
  have hl : l ∈ st.graph := AList.mem_keys.mpr (by simp [hkl])
  refine ⟨k, l, hkl, ?_, ?_, fun c hc => ?_⟩
  · rw [h.length_list_of_two hall, h.count_eq hne]
  · rw [h.length_list_of_two hall, h.length_list_of_two fun v hv => (hall v hv).symm, hwf.symm]
  · rw [h.length_list_eq_cutSize hG]
    exact hc.2 ⟨_, h.isCut hk hl hne, rfl⟩

private def triangle : AdjList (Fin 3) := [⟨0, [1, 2]⟩, ⟨1, [0, 2]⟩, ⟨2, [0, 1]⟩].toAList

private theorem triangle_valid : Valid triangle where
  two_le := by decide
  symm := by decide
  loopFree := by decide
  connected u _ v _ := by
    have hadj : ∀ u v, v = u ∨ v ∈ triangle.ends u := by decide
    obtain rfl | hv := hadj u v
    · exact .refl
    · exact .single hv

theorem contract_sound_triangle :
    ∃ st, contract [(4, 7)] (build triangle) = some st ∧ st.graph.keys.length = 2 := by
  obtain ⟨st, -, hrun, hkeys, -⟩ := contract_sound triangle_valid [(4, 7)]
  exact ⟨st, hrun, hkeys⟩

end CppTricks.Graph.MinCut
