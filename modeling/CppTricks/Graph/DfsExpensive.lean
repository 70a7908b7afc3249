import CppTricks.Graph.Scc
import CppTricks.Graph.SearchInGraph

/-! The recursive search of `search_in_graph.py`, over the same linked objects as the breadth-first
one. -/
namespace CppTricks.Graph
open Foundation

section Dfs

variable {K : Type}

/-- `__dfs`; `none` is a recursion deeper than the fuel. -/
def dfs : ℕ → ℕ → Vertices K → Option (Vertices K)
  | 0, _, _ => none
  | fuel + 1, vertex, vertices => do
    let vertices := vertices.modify vertex fun x => { x with explored := true }
    let object ← vertices.objects vertex
    let ends ← object.ends.getRight?
    ends.foldlM (fun vertices w => do
      let end' ← vertices.objects w
      if end'.explored then return vertices
      dfs fuel w vertices) vertices

/-- `truthy` is what a name counts as in `assert SV`. Nothing is printed. -/
def dfsExpensiveImpl [DecidableEq K] (truthy : K → Bool) (G : AdjList K) (order : List K) (SV : K)
    (fuel : ℕ) : Option (Exit K) := do
  guard (G.entries ≠ [])
  guard (truthy SV)
  let (graphStore, vertices) ← Vertex.recodeGraph G order
  let sv ← graphStore.lookup SV
  let vertices ← dfs fuel sv vertices
  return ⟨graphStore, vertices, []⟩

end Dfs

variable {K : Type} [DecidableEq K] {g : AdjList K} {addr : K → ℕ} {vertices : Vertices K}
  {E : Finset K} {order : List K} {start v : K}

/-- The objects show which vertices have been explored, and nothing else has changed. -/
def ShowsExplored (g : AdjList K) (addr : K → ℕ) (vertices : Vertices K) (E : Finset K) : Prop :=
  ∀ v ∈ g, vertices.objects (addr v) =
    some ⟨v, .inr ((g.ends v).map addr), decide (v ∈ E), 0⟩

namespace ShowsExplored

theorem explore (h : ShowsExplored g addr vertices E) (hv : v ∈ g) :
    ShowsExplored g addr (vertices.modify (addr v) fun x => { x with explored := true })
      (insert v E) := by
  intro u hu
  by_cases huv : u = v
  · subst huv
    rw [Heap.objects_modify_self, h u hu]
    simp
  · have hne : addr u ≠ addr v := by
      intro heq
      have hobject := h u hu
      rw [heq, h v hv] at hobject
      exact huv (congrArg Vertex.self (Option.some.inj hobject)).symm
    rw [Heap.objects_modify_of_ne hne, h u hu]
    simp [huv]

/-- The loop over the ends of a vertex, given what a search with this fuel does. -/
theorem foldlM_dfs {fuel : ℕ}
    (hdfs : ∀ v ∈ g, ∀ (vertices : Vertices K) (E : Finset K), ShowsExplored g addr vertices E →
      v ∉ E → (Scc.left g E).card ≤ fuel → ∃ L vertices',
        Finishes g.ends (insert v E) (g.ends v) L ∧ dfs fuel (addr v) vertices = some vertices' ∧
          ShowsExplored g addr vertices' (E ∪ (L ++ [v]).toFinset))
    (ws : List K) (hws : ∀ w ∈ ws, w ∈ g) (h : ShowsExplored g addr vertices E)
    (hfuel : (Scc.left g E).card ≤ fuel) :
    ∃ L vertices', Finishes g.ends E ws L ∧
      (ws.map addr).foldlM (fun vertices w => do
        let end' ← vertices.objects w
        if end'.explored then return vertices
        dfs fuel w vertices) vertices = some vertices' ∧
      ShowsExplored g addr vertices' (E ∪ L.toFinset) := by
  induction ws generalizing vertices E with
  | nil => exact ⟨[], vertices, .nil _, rfl, by simpa using h⟩
  | cons w ws ih =>
    obtain ⟨hw, hws⟩ := List.forall_mem_cons.mp hws
    by_cases hmem : w ∈ E
    · obtain ⟨L, vertices', hL, hrun, hshows⟩ := ih hws h hfuel
      exact ⟨L, vertices', .skip hmem hL, by simpa [h w hw, hmem] using hrun, hshows⟩
    · obtain ⟨L₁, vertices₁, h₁, hrun₁, hshows₁⟩ := hdfs w hw vertices E h hmem hfuel
      obtain ⟨L₂, vertices₂, h₂, hrun₂, hshows₂⟩ :=
        ih hws hshows₁ ((Scc.left_mono Finset.subset_union_left).trans hfuel)
      refine ⟨L₁ ++ [w] ++ L₂, vertices₂, .visit hmem h₁ h₂, ?_, ?_⟩
      · simpa [h w hw, hmem, hrun₁] using hrun₂
      · rw [List.toFinset_append, ← Finset.union_assoc]
        exact hshows₂

theorem dfs (hends : g.EndsAreKeys) (fuel : ℕ) (v : K) (hv : v ∈ g) (vertices : Vertices K)
    (E : Finset K) (h : ShowsExplored g addr vertices E) (hout : v ∉ E)
    (hfuel : (Scc.left g E).card ≤ fuel) :
    ∃ L vertices', Finishes g.ends (insert v E) (g.ends v) L ∧
      dfs fuel (addr v) vertices = some vertices' ∧
      ShowsExplored g addr vertices' (E ∪ (L ++ [v]).toFinset) := by
  have hlt := Scc.left_insert_lt hv hout
  induction fuel generalizing v vertices E with
  | zero => omega
  | succ fuel ih =>
    have hexplored := h.explore hv
    have hleft : (Scc.left g (insert v E)).card ≤ fuel := by omega
    obtain ⟨L, vertices', hL, hrun, hshows⟩ := foldlM_dfs
      (fun u hu vertices E h hout hfuel =>
        ih u hu vertices E h hout hfuel (Scc.left_insert_lt hu hout))
      (g.ends v) (hends v hv) hexplored hleft
    refine ⟨L, vertices', hL, ?_, ?_⟩
    · unfold Graph.dfs
      dsimp only
      rw [hexplored v hv]
      exact hrun
    · have hunion : E ∪ (L ++ [v]).toFinset = insert v E ∪ L.toFinset := by
        ext x
        simp only [Finset.mem_union, List.mem_toFinset, List.mem_append, List.mem_singleton,
          Finset.mem_insert]
        tauto
      rwa [hunion]

end ShowsExplored

/-- As many calls inside each other as there are vertices are enough. The vertices explored are
those that `start` reaches, and no distance is ever computed. -/
theorem dfsExpensiveImpl_explored (truthy : K → Bool) (hends : g.EndsAreKeys)
    (horder : order.Perm g.keys) (hstart : start ∈ g) (htruthy : truthy start = true) (fuel : ℕ)
    (hfuel : g.keys.length ≤ fuel) :
    ∃ e, dfsExpensiveImpl truthy g order start fuel = some e ∧ ∀ v ∈ g, ∃ x, e.vertex? v = some x ∧
      x.self = v ∧ x.distance = 0 ∧ (x.explored = true ↔ HasPath g.ends start v) := by
  obtain ⟨store, addr, vertices, hrecode, hstore, hvertices⟩ := recodeGraph_recoded hends horder
  have hshows : ShowsExplored g addr vertices ∅ := by
    intro v hv
    simp [hvertices v hv]
  obtain ⟨L, vertices', hL, hrun, hshows'⟩ := hshows.dfs hends fuel start hstart vertices ∅
    (Finset.notMem_empty _) ((Scc.card_left_le ∅).trans hfuel)
  have hne : g.entries ≠ [] := by
    intro hnil
    have hkey := AList.mem_keys.mp hstart
    rw [AList.keys, hnil] at hkey
    exact nomatch hkey
  refine ⟨⟨store, vertices', []⟩, ?_, fun v hv => ?_⟩
  · unfold dfsExpensiveImpl
    simp [htruthy, hne, hrecode, hstore start hstart, hrun]
  · have hvertex : Exit.vertex? ⟨store, vertices', []⟩ v = vertices'.objects (addr v) := by
      unfold Exit.vertex?
      rw [hstore v hv]
      rfl
    have hclosed : Closed g.ends ∅ := fun a ha => nomatch Finset.notMem_empty a ha
    refine ⟨_, hvertex.trans (hshows' v hv), rfl, rfl, ?_⟩
    rw [decide_eq_true_iff, Finset.empty_union, List.mem_toFinset,
      hL.block (Finset.notMem_empty start)]
    exact ⟨Reach.path, .of_path hclosed (Finset.notMem_empty v)⟩

private def edgeGr : AdjList ℕ := [⟨1, [2]⟩, ⟨2, []⟩].toAList

theorem dfsExpensiveImpl_explored_two :
    ∃ e, dfsExpensiveImpl (fun v => v ≠ 0) edgeGr [2, 1] 2 2 = some e ∧
      ∀ v ∈ edgeGr, ∃ x, e.vertex? v = some x ∧ x.self = v ∧ x.distance = 0 ∧
        (x.explored = true ↔ HasPath edgeGr.ends 2 v) := by
  have hmem (v : ℕ) : v ∈ edgeGr ↔ v = 1 ∨ v = 2 := by
    rw [AList.mem_keys, show edgeGr.keys = [1, 2] from rfl]
    simp
  have hends : edgeGr.EndsAreKeys := by
    intro v hv w hw
    rw [hmem] at hv ⊢
    obtain rfl | rfl := hv
    · exact .inr (List.mem_singleton.mp hw)
    · exact nomatch hw
  exact dfsExpensiveImpl_explored (fun v => v ≠ 0) hends (.swap 1 2 []) ((hmem 2).mpr (.inr rfl))
    rfl 2 le_rfl

end CppTricks.Graph
