import CppTricks.Foundation.Loops
import CppTricks.Foundation.MinElement
import CppTricks.Foundation.ShortestWalk
import Mathlib.Data.List.Nodup
import Mathlib.Data.Finset.Card
import Mathlib.Order.Interval.Finset.Nat

/-! Dijkstra's loop over a table of labels, with the nearest vertex found by a scan. -/
namespace CppTricks.Graph.Dijkstra
open Foundation

def kMaxVal : ℤ := 1000000

/-- `end` is `endNode` here. -/
structure Neighbor where
  weight : ℤ
  endNode : ℕ

structure NodeInfo where
  d : ℤ
  visited : Bool
  idx : ℕ

/-- What the comparator of `min_element` sees of a node. -/
def NodeInfo.masked (o : NodeInfo) : ℤ := if o.visited then kMaxVal else o.d

def less (o1 o2 : NodeInfo) : Bool := o1.masked < o2.masked

/-- The body of the loop over the neighbours; `none` is an access outside `track`. -/
def relax (rootD : ℤ) (track : List NodeInfo) (n : Neighbor) : Option (List NodeInfo) := do
  let node ← track[n.endNode]?
  if node.visited then return track
  let newD := rootD + n.weight
  return if node.d > newD then track.set n.endNode { node with d := newD } else track

def round (graph : List (List Neighbor)) (track : List NodeInfo) :
    Option (Option (ℕ × List NodeInfo)) := do
  let (minNode, idx) ← minElement less track
  if minNode.d = kMaxVal then return none
  let track := track.set idx { minNode with visited := true }
  let neighbors ← graph[idx]?
  let track ← neighbors.foldlM (relax minNode.d) track
  return some (idx, track)

/-- The rounds of the loop, with the nodes visited so far; `none` when the fuel is not enough. -/
def rounds (graph : List (List Neighbor)) : ℕ → List NodeInfo → List ℕ →
    Option (List NodeInfo × List ℕ)
  | 0, _, _ => none
  | fuel + 1, track, order => do
    match ← round graph track with
    | none => return (track, order)
    | some (idx, track) => rounds graph fuel track (order ++ [idx])

/-- `track` before the loop, for a source node `1`. -/
def start (graph : List (List Neighbor)) : List NodeInfo :=
  let vActive := 1
  ((List.range graph.length).map fun i => ⟨kMaxVal, false, i⟩).modify vActive fun node =>
    { node with d := 0 }

def dijkstra (graph : List (List Neighbor)) (fuel : ℕ) : Option (List NodeInfo × List ℕ) :=
  rounds graph fuel (start graph) []

structure Valid (graph : List (List Neighbor)) (n : ℕ) : Prop where
  pos : 1 ≤ n
  length_eq : graph.length = n + 1
  weight_nonneg : ∀ neighbors ∈ graph, ∀ e ∈ neighbors, 0 ≤ e.weight
  one_le_end : ∀ neighbors ∈ graph, ∀ e ∈ neighbors, 1 ≤ e.endNode
  end_le : ∀ neighbors ∈ graph, ∀ e ∈ neighbors, e.endNode ≤ n

def Edge (graph : List (List Neighbor)) (u v : ℕ) (w : ℤ) : Prop :=
  ∃ neighbors, graph[u]? = some neighbors ∧ ⟨w, v⟩ ∈ neighbors

/-! ### Labels and visited nodes of a table -/

def dist (track : List NodeInfo) (v : ℕ) : ℤ := track[v]?.elim kMaxVal NodeInfo.d

def visited (track : List NodeInfo) : Set ℕ :=
  {v | ∃ node, track[v]? = some node ∧ node.visited = true}

variable {graph : List (List Neighbor)} {track : List NodeInfo} {n : ℕ}

theorem dist_of_get? {v : ℕ} {node : NodeInfo} (h : track[v]? = some node) :
    dist track v = node.d := by rw [dist, h, Option.elim_some]

theorem mem_visited_of_get? {v : ℕ} {node : NodeInfo} (h : track[v]? = some node) :
    v ∈ visited track ↔ node.visited = true := by simp [visited, h]

theorem lt_length_of_mem_visited {v : ℕ} (h : v ∈ visited track) : v < track.length := by
  obtain ⟨node, hget, -⟩ := h
  exact (List.getElem?_eq_some_iff.mp hget).1

theorem dist_set {i v : ℕ} {node : NodeInfo} (hi : i < track.length) :
    dist (track.set i node) v = if v = i then node.d else dist track v := by
  rw [dist, List.getElem?_set]
  by_cases h : i = v
  · subst v
    simp [hi]
  · rw [if_neg h, if_neg (Ne.symm h), dist]

theorem mem_visited_set {i v : ℕ} {node : NodeInfo} (hi : i < track.length) :
    v ∈ visited (track.set i node) ↔ if v = i then node.visited = true else v ∈ visited track := by
  simp only [visited, Set.mem_ofPred_eq, List.getElem?_set]
  by_cases h : i = v
  · subst v
    simp [hi]
  · rw [if_neg h, if_neg (Ne.symm h)]

/-- Marking a node as visited leaves the labels as they are. -/
theorem dist_mark {idx : ℕ} {node : NodeInfo} (hget : track[idx]? = some node) :
    dist (track.set idx { node with visited := true }) = dist track := by
  funext v
  rw [dist_set (List.getElem?_eq_some_iff.mp hget).1]
  split
  · rename_i heq
    rw [heq, dist_of_get? hget]
  · rfl

theorem visited_mark {idx : ℕ} {node : NodeInfo} (hget : track[idx]? = some node) :
    visited (track.set idx { node with visited := true }) = insert idx (visited track) := by
  ext v
  rw [mem_visited_set (List.getElem?_eq_some_iff.mp hget).1, Set.mem_insert_iff]
  split <;> simp_all

/-! ### One round -/

/-- The table after the edges `es` out of a node with label `rootD` have been relaxed. -/
structure RelaxedBy (rootD : ℤ) (track : List NodeInfo) (es : List Neighbor)
    (track' : List NodeInfo) : Prop where
  length_eq : track'.length = track.length
  visited_eq : visited track' = visited track
  le : ∀ v, dist track' v ≤ dist track v
  frozen : ∀ v ∈ visited track, dist track' v = dist track v
  relaxed : ∀ e ∈ es, e.endNode ∉ visited track → dist track' e.endNode ≤ rootD + e.weight
  source : ∀ v, dist track' v = dist track v ∨
    ∃ e ∈ es, e.endNode = v ∧ dist track' v = rootD + e.weight

theorem RelaxedBy.refl (rootD : ℤ) (track : List NodeInfo) : RelaxedBy rootD track [] track :=
  ⟨rfl, rfl, fun _ => Int.le_refl _, fun _ _ => rfl, by simp, fun _ => .inl rfl⟩

private theorem RelaxedBy.lower {rootD : ℤ} {es : List Neighbor} {track' : List NodeInfo}
    (h : RelaxedBy rootD track es track') {e : Neighbor} (hlt : e.endNode < track'.length)
    (hvis : track'[e.endNode].visited = false) (hgt : track'[e.endNode].d > rootD + e.weight) :
    RelaxedBy rootD track (es ++ [e])
      (track'.set e.endNode { track'[e.endNode] with d := rootD + e.weight }) := by
  have hget := List.getElem?_eq_getElem hlt
  have hdist := dist_of_get? hget
  have hopen : e.endNode ∉ visited track := by
    rw [← h.visited_eq, mem_visited_of_get? hget, hvis]
    exact Bool.false_ne_true
  have hdrop : ∀ v, dist (track'.set e.endNode
      { track'[e.endNode] with d := rootD + e.weight }) v ≤ dist track' v := by
    intro v
    rw [dist_set hlt]
    split
    · rename_i heq
      rw [heq, hdist]
      exact Int.le_of_lt hgt
    · exact Int.le_refl _
  refine ⟨by rw [List.length_set, h.length_eq], ?_, fun v => Int.le_trans (hdrop v) (h.le v),
    fun v hv => ?_, fun f hf hv => ?_, fun v => ?_⟩
  · rw [← h.visited_eq]
    ext v
    rw [mem_visited_set hlt]
    split
    · rename_i heq
      rw [heq, mem_visited_of_get? hget]
    · rfl
  · rw [dist_set hlt, if_neg (by rintro rfl; exact hopen hv), h.frozen v hv]
  · obtain hf | hf := List.mem_append.mp hf
    · exact Int.le_trans (hdrop f.endNode) (h.relaxed f hf hv)
    · rw [List.mem_singleton.mp hf, dist_set hlt, if_pos rfl]
  · rw [dist_set hlt]
    split
    · rename_i heq
      exact .inr ⟨e, by simp, heq.symm, rfl⟩
    · exact (h.source v).imp_right fun ⟨f, hf, hfv⟩ => ⟨f, List.mem_append_left _ hf, hfv⟩

theorem RelaxedBy.step {rootD : ℤ} {es : List Neighbor} {track' : List NodeInfo}
    (h : RelaxedBy rootD track es track') {e : Neighbor} (he : e.endNode < track.length) :
    ∃ track'', relax rootD track' e = some track'' ∧
      RelaxedBy rootD track (es ++ [e]) track'' := by
  have hlt : e.endNode < track'.length := by rwa [h.length_eq]
  have hget := List.getElem?_eq_getElem hlt
  have hmem := mem_visited_of_get? hget
  have hdist := dist_of_get? hget
  -- a step that changes nothing, when the node is settled or its label is small enough
  have hkeep (hnew : e.endNode ∉ visited track → dist track' e.endNode ≤ rootD + e.weight) :
      RelaxedBy rootD track (es ++ [e]) track' := by
    refine ⟨h.length_eq, h.visited_eq, h.le, h.frozen, fun f hf hv => ?_, fun v => ?_⟩
    · obtain hf | hf := List.mem_append.mp hf
      · exact h.relaxed f hf hv
      · obtain rfl := List.mem_singleton.mp hf
        exact hnew hv
    · exact (h.source v).imp_right fun ⟨f, hf, hfv⟩ => ⟨f, List.mem_append_left _ hf, hfv⟩
  cases hvis : track'[e.endNode].visited with
  | true =>
    refine ⟨track', by simp [relax, hget, hvis], hkeep fun hv => absurd ?_ hv⟩
    rw [← h.visited_eq, hmem, hvis]
  | false =>
    by_cases hgt : track'[e.endNode].d > rootD + e.weight
    · exact ⟨_, by simp [relax, hget, hvis, hgt], h.lower hlt hvis hgt⟩
    · exact ⟨track', by simp [relax, hget, hvis, hgt], hkeep fun _ => by omega⟩

theorem relax_all (rootD : ℤ) (track : List NodeInfo) (es : List Neighbor)
    (hes : ∀ e ∈ es, e.endNode < track.length) :
    ∃ track', es.foldlM (relax rootD) track = some track' ∧ RelaxedBy rootD track es track' :=
  foldlM_prefix es (fun _ e _ hpre h => h.step (hes e (hpre.subset (by simp)))) track
    (.refl rootD track)

/-- What holds between two rounds, after the nodes `order` have been visited. -/
structure Inv (graph : List (List Neighbor)) (n : ℕ) (track : List NodeInfo) (order : List ℕ) :
    Prop where
  length_eq : track.length = n + 1
  fake : dist track 0 = kMaxVal ∧ 0 ∉ visited track
  nodup : order.Nodup
  mem_order : ∀ v, v ∈ order ↔ v ∈ visited track
  search : Search (Edge graph) 1 kMaxVal (dist track) (visited track)

theorem Edge.weight_nonneg (hg : Valid graph n) {u v : ℕ} {w : ℤ} (h : Edge graph u v w) :
    0 ≤ w := by
  obtain ⟨neighbors, hget, hmem⟩ := h
  exact hg.weight_nonneg neighbors (List.mem_of_getElem? hget) _ hmem

theorem inv_start (hg : Valid graph n) : Inv graph n (start graph) [] := by
  have hget : ∀ v < n + 1,
      (start graph)[v]? = some ⟨if v = 1 then 0 else kMaxVal, false, v⟩ := by
    intro v hv
    unfold start
    rw [List.getElem?_modify, List.getElem?_map, hg.length_eq, List.getElem?_range hv]
    by_cases h : 1 = v
    · subst v
      simp
    · simp [h, Ne.symm h]
  have hlen : (start graph).length = n + 1 := by simp [start, hg.length_eq]
  have hvisited : visited (start graph) = ∅ := by
    apply Set.eq_empty_of_forall_notMem
    intro v hv
    have hlt := lt_length_of_mem_visited hv
    rw [hlen] at hlt
    simp [mem_visited_of_get? (hget v hlt)] at hv
  have hdist : dist (start graph) = fun v => if v = 1 then 0 else kMaxVal := by
    funext v
    by_cases hv : v < n + 1
    · rw [dist_of_get? (hget v hv)]
    · have := hg.pos
      unfold dist
      rw [List.getElem?_eq_none (by omega), Option.elim_none, if_neg (by omega)]
  refine ⟨hlen, ⟨by simp [hdist], by simp [hvisited]⟩, List.nodup_nil, by simp [hvisited], ?_⟩
  rw [hvisited, hdist]
  exact .start (by decide)

/-- A node that is still open is seen with its label, and no node past the table has one. -/
private theorem le_dist_of_le_masked {d : ℤ} (hd : d ≤ kMaxVal)
    (hle : ∀ (v : ℕ) (node : NodeInfo), track[v]? = some node → d ≤ node.masked) (v : ℕ)
    (hv : v ∉ visited track) : d ≤ dist track v := by
  cases hget : track[v]? with
  | none => rwa [dist, hget, Option.elim_none]
  | some node =>
    have := hle v node hget
    rw [mem_visited_of_get? hget] at hv
    rwa [NodeInfo.masked, if_neg hv, ← dist_of_get? hget] at this

private theorem Inv.visit {order : List ℕ} (h : Inv graph n track order) (hg : Valid graph n)
    {minNode : NodeInfo} {idx : ℕ} (hget : track[idx]? = some minNode)
    (hopen : idx ∉ visited track) (hlt : minNode.d < kMaxVal)
    (hmin : ∀ v ∉ visited track, dist track idx ≤ dist track v) :
    ∃ neighbors track', graph[idx]? = some neighbors ∧
      neighbors.foldlM (relax minNode.d) (track.set idx { minNode with visited := true }) =
        some track' ∧ Inv graph n track' (order ++ [idx]) := by
  have hidx := (List.getElem?_eq_some_iff.mp hget).1
  have hneighbors := List.getElem?_eq_getElem (show idx < graph.length by
    rw [hg.length_eq, ← h.length_eq]; exact hidx)
  have hmem := List.mem_of_getElem? hneighbors
  have hvisited := visited_mark hget
  obtain ⟨track', hrelax, hby⟩ := relax_all minNode.d
    (track.set idx { minNode with visited := true }) _ fun e he => by
      have := hg.end_le _ hmem e he
      rw [List.length_set, h.length_eq]
      omega
  have hle := hby.le
  have hfrozen := hby.frozen
  have hrelaxed := hby.relaxed
  have hsource := hby.source
  rw [dist_mark hget] at hle hfrozen hsource
  rw [hvisited] at hfrozen hrelaxed
  have hroot := dist_of_get? hget
  refine ⟨_, track', hneighbors, hrelax, by rw [hby.length_eq, List.length_set, h.length_eq],
    ⟨?_, ?_⟩, ?_, fun v => ?_, ?_⟩
  · obtain heq | ⟨e, he, heq, -⟩ := hsource 0
    · rw [heq, h.fake.1]
    · have := hg.one_le_end _ hmem e he
      omega
  · rw [hby.visited_eq, hvisited, Set.mem_insert_iff, not_or]
    refine ⟨?_, h.fake.2⟩
    rintro rfl
    rw [← hroot, h.fake.1] at hlt
    exact Int.lt_irrefl _ hlt
  · rw [List.nodup_append_comm, List.singleton_append, List.nodup_cons, h.mem_order]
    exact ⟨hopen, h.nodup⟩
  · rw [List.mem_append, List.mem_singleton, h.mem_order, hby.visited_eq, hvisited,
      Set.mem_insert_iff, or_comm]
  · rw [hby.visited_eq, hvisited]
    refine h.search.visit (fun _ _ _ => Edge.weight_nonneg hg) hopen hmin (by omega)
      ⟨hle, hfrozen, ?_, fun v => (hsource v).imp_right ?_⟩
    · rintro v w hv ⟨neighbors, hn, hedge⟩
      obtain rfl := Option.some.inj (hneighbors.symm.trans hn)
      rw [hroot]
      exact hrelaxed ⟨w, v⟩ hedge hv
    · rintro ⟨e, he, rfl, heq⟩
      exact ⟨e.weight, ⟨_, hneighbors, he⟩, by rw [heq, hroot]⟩

/-- The loop breaks when every node that is left is out of reach, and visits a new node else. -/
theorem Inv.round {order : List ℕ} (h : Inv graph n track order) (hg : Valid graph n) :
    (round graph track = some none ∧ ∀ v ∉ visited track, kMaxVal ≤ dist track v) ∨
      ∃ idx track', round graph track = some (some (idx, track')) ∧
        Inv graph n track' (order ++ [idx]) := by
  have hpos : 0 < track.length := by rw [h.length_eq]; omega
  obtain ⟨minNode, idx, hmin, hget, hle, hlt⟩ :=
    minElement_spec NodeInfo.masked (List.ne_nil_of_length_pos hpos)
  have hmin : minElement less track = some (minNode, idx) := hmin
  have hzero := List.getElem?_eq_getElem hpos
  have hfake : track[0].d = kMaxVal := by rw [← dist_of_get? hzero, h.fake.1]
  have hmasked : track[0].masked = kMaxVal := by rw [NodeInfo.masked, hfake, ite_self]
  by_cases hidx : idx = 0
  · -- the fake node is the first of the nodes at `kMaxVal`, so nothing nearer is left
    subst idx
    obtain rfl := Option.some.inj (hzero.symm.trans hget)
    rw [hmasked] at hle
    exact .inl ⟨by simp [Dijkstra.round, hmin, hfake], le_dist_of_le_masked (Int.le_refl _) hle⟩
  · have hnear := hlt 0 _ hzero (Nat.pos_of_ne_zero hidx)
    rw [hmasked] at hnear
    have hopen : minNode.visited = false := by
      by_contra hvis
      unfold NodeInfo.masked at hnear
      rw [if_pos (by simpa using hvis)] at hnear
      exact Int.lt_irrefl _ hnear
    have hseen : minNode.masked = minNode.d := by rw [NodeInfo.masked, hopen]; rfl
    rw [hseen] at hnear hle
    obtain ⟨neighbors, track', hneighbors, hrelax, hinv⟩ := h.visit hg hget
      (by rw [mem_visited_of_get? hget, hopen]; exact Bool.false_ne_true) hnear
      (by rw [dist_of_get? hget]; exact le_dist_of_le_masked (Int.le_of_lt hnear) hle)
    refine .inr ⟨idx, track', ?_, hinv⟩
    simp [Dijkstra.round, hmin, Int.ne_of_lt hnear, hneighbors, hrelax]

theorem Inv.length_order_le {order : List ℕ} (h : Inv graph n track order) :
    order.length ≤ n := by
  have hsub : order.toFinset ⊆ Finset.Icc 1 n := by
    intro v hv
    have hv := (h.mem_order v).mp (List.mem_toFinset.mp hv)
    have hlt := lt_length_of_mem_visited hv
    have hne : v ≠ 0 := by
      rintro rfl
      exact h.fake.2 hv
    rw [h.length_eq] at hlt
    rw [Finset.mem_Icc]
    omega
  have hcard := Finset.card_le_card hsub
  rwa [List.toFinset_card_of_nodup h.nodup, Nat.card_Icc, Nat.add_sub_cancel] at hcard

theorem Inv.rounds {order : List ℕ} (h : Inv graph n track order) (hg : Valid graph n) {fuel : ℕ}
    (hfuel : n < fuel + order.length) :
    ∃ track' order', rounds graph fuel track order = some (track', order') ∧
      Inv graph n track' order' ∧ ∀ v ∉ visited track', kMaxVal ≤ dist track' v := by
  induction fuel generalizing track order with
  | zero =>
    have := h.length_order_le
    omega
  | succ fuel ih =>
    obtain ⟨hround, hstop⟩ | ⟨idx, track', hround, hinv⟩ := h.round hg
    · exact ⟨track, order, by simp [Dijkstra.rounds, hround], h, hstop⟩
    · obtain ⟨track'', order'', hrun, hinv'', hstop⟩ := ih hinv
        (by rw [List.length_append, List.length_singleton]; omega)
      exact ⟨track'', order'', by simp [Dijkstra.rounds, hround, hrun], hinv'', hstop⟩

/-- The loop stops after at most `n` visits, of different nodes, with the distances from node 1. -/
theorem dijkstra_shortest (hg : Valid graph n) {fuel : ℕ} (hfuel : n < fuel) :
    ∃ track order, dijkstra graph fuel = some (track, order) ∧ order.Nodup ∧ order.length ≤ n ∧
      ∀ v, 1 ≤ v → v ≤ n → ∃ node, track[v]? = some node ∧
        CappedDistance (Edge graph) 1 kMaxVal v node.d := by
  obtain ⟨track, order, hrun, hinv, hstop⟩ := (inv_start hg).rounds hg (by simpa using hfuel)
  refine ⟨track, order, hrun, hinv.nodup, hinv.length_order_le, fun v _ hv => ?_⟩
  have hlt : v < track.length := by rw [hinv.length_eq]; omega
  have hget := List.getElem?_eq_getElem hlt
  refine ⟨track[v], hget, ?_⟩
  rw [← dist_of_get? hget]
  exact hinv.search.cappedDistance (fun _ _ _ => Edge.weight_nonneg hg) hstop v

theorem dijkstra_shortest_triangle :
    ∃ track order, dijkstra [[], [⟨1, 2⟩, ⟨4, 3⟩], [⟨2, 3⟩], []] 4 = some (track, order) ∧
      order.Nodup ∧ order.length ≤ 3 := by
  obtain ⟨track, order, hrun, hnodup, hlength, -⟩ :=
    dijkstra_shortest (show Valid [[], [⟨1, 2⟩, ⟨4, 3⟩], [⟨2, 3⟩], []] 3 from
      ⟨by decide, rfl, by decide, by decide, by decide⟩) (by decide : 3 < 4)
  exact ⟨track, order, hrun, hnodup, hlength⟩

end CppTricks.Graph.Dijkstra
