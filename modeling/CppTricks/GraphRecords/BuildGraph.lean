import CppTricks.Foundation.Loops
import CppTricks.GraphRecords.NodeData
import Mathlib.Data.Finset.Card
import Mathlib.Data.List.Perm.Basic

/-! `build_graph` as the repository builds it, with asserts and without `USE_TBB`. -/
namespace CppTricks.GraphRecords
open Foundation

structure Neighbor where
  weight : Int32
  end_ : Int32
  deriving DecidableEq

structure EdgeMaker where
  weight_ : Int32
  end_ : Int32

def EdgeMaker.ofArrow (a : Arrow) : EdgeMaker := ⟨a.weight, a.end_⟩

def Neighbor.ofMaker (maker : EdgeMaker) : Neighbor := ⟨maker.weight_, maker.end_⟩

/-- `RawYieldFunctor`, with a stream of its own. -/
def rawYield (arg : List Char) : Except Thrown (Int32 × List Neighbor) := do
  let (root, arrows) ← (parseNodeData arg ⟨[], false, false, false⟩).1
  return (root, arrows.map fun a => .ofMaker (.ofArrow a))

/-- `process_parallel(records)`, whose loop is left out of the build: the elements stay as they were
constructed. -/
def processParallel (records : List (List Char)) : List (Int32 × List Neighbor) :=
  List.replicate records.length (0, [])

def processSerial (records : List (List Char)) : Except Thrown (List (Int32 × List Neighbor)) :=
  records.mapM rawYield

/-- `graph[elem.first] = elem.second` -/
def assign (graph : List (List Neighbor)) (elem : Int32 × List Neighbor) :
    Except Thrown (List (List Neighbor)) :=
  if 0 ≤ elem.1.toInt ∧ elem.1.toInt < graph.length then
    .ok (graph.set elem.1.toInt.toNat elem.2)
  else .error .outOfRange

def assemble (rawNodes : List (Int32 × List Neighbor)) : Except Thrown (List (List Neighbor)) :=
  if rawNodes.isEmpty then .error (.assertFailed "!raw_nodes.empty()")
  else
    let uniqueCheck := rawNodes.foldl (fun s val => insert val.1 s) (∅ : Finset Int32)
    if uniqueCheck.card ≠ rawNodes.length then
      .error (.assertFailed "unique_check.size() == raw_nodes.size()")
    else rawNodes.foldlM assign (List.replicate (rawNodes.length + 1) [])

def buildGraph (records : List (List Char)) : Except Thrown (List (List Neighbor)) :=
  assemble (processParallel records)

/-- A node as a record gives it, and the white space that ends its line. -/
structure Node where
  root : Int32
  arrows : List Arrow
  trail : List Char

def Node.record (node : Node) : List Char := showNode node.root node.arrows ++ node.trail

def Node.neighbors (node : Node) : List Neighbor := node.arrows.map fun a => ⟨a.weight, a.end_⟩

/-- The nodes are numbered from 1 on, in any order, and their lines end in white space if at all. -/
structure Numbered (nodes : List Node) : Prop where
  roots : (nodes.map fun node => node.root.toInt).Perm
    ((List.range nodes.length).map fun (k : ℕ) => (k : ℤ) + 1)
  trail : ∀ node ∈ nodes, ∀ c ∈ node.trail, c = ' ' ∨ c = '\t' ∨ c = '\r' ∨ c = '\n'

/-- Of `n + 1` slots the first is empty, and each node has its neighbours in that of its number. -/
structure Recovers (n : ℕ) (nodes : List Node) (graph : List (List Neighbor)) : Prop where
  length : graph.length = n + 1
  guard : graph[0]? = some []
  slot : ∀ node ∈ nodes, graph[node.root.toInt.toNat]? = some node.neighbors

variable {nodes : List Node} {node : Node}

namespace Numbered

theorem root_bounds (h : Numbered nodes) (hnode : node ∈ nodes) :
    1 ≤ node.root.toInt ∧ node.root.toInt ≤ nodes.length := by
  have hmem := h.roots.mem_iff.mp (List.mem_map.mpr ⟨node, hnode, rfl⟩)
  obtain ⟨k, hk, heq⟩ := List.mem_map.mp hmem
  have := List.mem_range.mp hk
  omega

theorem nodup_roots (h : Numbered nodes) : (nodes.map fun node => node.root).Nodup := by
  have hnodup : (nodes.map fun node => node.root.toInt).Nodup := by
    rw [h.roots.nodup_iff]
    apply List.Nodup.map _ List.nodup_range
    intro a b hab
    dsimp only at hab
    omega
  have hcomp : (nodes.map fun node => node.root.toInt) =
      (nodes.map fun node => node.root).map Int32.toInt := by rw [List.map_map]; rfl
  rw [hcomp] at hnodup
  exact hnodup.of_map

end Numbered

/-! ### The serial twin recovers every graph -/

theorem rawYield_record (h : Numbered nodes) (hnode : node ∈ nodes) :
    rawYield node.record = .ok (node.root, node.neighbors) := by
  obtain ⟨⟨ss, hparse⟩, -⟩ := parseNodeData_showNode node.root node.arrows node.trail
    (h.trail node hnode) ⟨[], false, false, false⟩
  unfold rawYield Node.record
  rw [hparse]
  rfl

theorem processSerial_eq (h : Numbered nodes) : processSerial (nodes.map Node.record) =
    .ok (nodes.map fun node => (node.root, node.neighbors)) := by
  have hall : ∀ l : List Node, (∀ node ∈ l, node ∈ nodes) → (l.map Node.record).mapM rawYield =
      .ok (l.map fun node => (node.root, node.neighbors)) := by
    intro l
    induction l with
    | nil => exact fun _ => rfl
    | cons node l ih =>
      intro hl
      rw [List.map_cons, List.mapM_cons, rawYield_record h (hl node List.mem_cons_self),
        ih fun node hnode => hl node (List.mem_cons_of_mem _ hnode)]
      rfl
  exact hall nodes fun _ hnode => hnode

/-- The set that the second assert counts is the set of the numbers. -/
theorem foldl_insert (l : List (Int32 × List Neighbor)) (s : Finset Int32) :
    l.foldl (fun s val => insert val.1 s) s = s ∪ (l.map Prod.fst).toFinset := by
  induction l generalizing s with
  | nil => simp
  | cons val l ih =>
    rw [List.foldl_cons, ih]
    simp [Finset.insert_union]

theorem foldl_insert_card (l : List (Int32 × List Neighbor)) (h : (l.map Prod.fst).Nodup) :
    (l.foldl (fun s val => insert val.1 s) (∅ : Finset Int32)).card = l.length := by
  rw [foldl_insert, Finset.empty_union, List.toFinset_card_of_nodup h, List.length_map]

/-- One write to the slot of a node that was not written before. -/
theorem assign_eq {graph : List (List Neighbor)} {root : Int32} (hlo : 0 ≤ root.toInt)
    (hhi : root.toInt < graph.length) (neighbors : List Neighbor) :
    assign graph (root, neighbors) = .ok (graph.set root.toInt.toNat neighbors) :=
  if_pos ⟨hlo, hhi⟩

theorem Recovers.assign {t : List Node} {graph : List (List Neighbor)}
    (hgraph : Recovers nodes.length t graph) (h : Numbered nodes) (ht : t ++ [node] <+: nodes) :
    ∃ graph', assign graph (node.root, node.neighbors) = .ok graph' ∧
      Recovers nodes.length (t ++ [node]) graph' := by
  have hlen := hgraph.length
  have hmem : node ∈ nodes := ht.subset (List.mem_append_right t (List.mem_singleton_self node))
  have hbounds := h.root_bounds hmem
  have hnodup := h.nodup_roots.sublist (ht.sublist.map _)
  rw [List.map_append, List.map_singleton, List.nodup_append] at hnodup
  refine ⟨_, assign_eq (by omega) (by omega) node.neighbors, ?_, ?_, ?_⟩
  · rw [List.length_set, hlen]
  · rw [List.getElem?_set_ne (by omega), hgraph.guard]
  · intro x hx
    cases List.mem_append.mp hx with
    | inl hxt =>
      have hxbounds := h.root_bounds (ht.subset hx)
      have hfresh := hnodup.2.2 x.root (List.mem_map.mpr ⟨x, hxt, rfl⟩) node.root (by simp)
      have hne : node.root.toInt.toNat ≠ x.root.toInt.toNat := by
        intro heq
        exact hfresh (Int32.toInt_inj.mp (by omega))
      rw [List.getElem?_set_ne hne, hgraph.slot x hxt]
    | inr hxn =>
      rw [List.mem_singleton.mp hxn]
      exact List.getElem?_set_self (by omega)

/-- Assembled from the serial twin, the graph is recovered whatever the order of the records. -/
theorem assemble_processSerial (h : Numbered nodes) (hne : nodes ≠ []) :
    ∃ raw graph, processSerial (nodes.map Node.record) = .ok raw ∧ assemble raw = .ok graph ∧
      Recovers nodes.length nodes graph := by
  obtain ⟨graph, hrun, hgraph⟩ := foldlM_pure (m := Except Thrown)
    (P := Recovers nodes.length) nodes (fun t node graph ht hgraph => hgraph.assign h ht)
    (List.replicate (nodes.length + 1) []) ⟨by simp, by simp, by simp⟩
  refine ⟨_, graph, processSerial_eq h, ?_, hgraph⟩
  have hcard := foldl_insert_card (nodes.map fun node => (node.root, node.neighbors))
    (by rw [List.map_map]; exact h.nodup_roots)
  have hempty : (nodes.map fun node => (node.root, node.neighbors)).isEmpty = false := by
    simpa using hne
  unfold assemble
  rw [hempty, if_neg Bool.false_ne_true]
  dsimp only
  rw [if_neg (not_not.mpr hcard), List.length_map, List.foldlM_map]
  exact hrun

/-! ### The build -/

/-- With two records or more the numbers are all zero, and the second assert fails. -/
theorem assemble_replicate {n : ℕ} (hn : 2 ≤ n) :
    assemble (List.replicate n (0, [])) =
      .error (.assertFailed "unique_check.size() == raw_nodes.size()") := by
  have hcard : ((List.replicate n ((0 : Int32), ([] : List Neighbor))).foldl
      (fun s val => insert val.1 s) (∅ : Finset Int32)).card = 1 := by
    rw [foldl_insert, Finset.empty_union, List.map_replicate,
      List.toFinset_replicate_of_ne_zero (by omega), Finset.card_singleton]
  have hempty : (List.replicate n ((0 : Int32), ([] : List Neighbor))).isEmpty = false := by
    rw [List.isEmpty_replicate]
    exact decide_eq_false (by omega)
  unfold assemble
  rw [hempty, if_neg Bool.false_ne_true]
  dsimp only
  rw [hcard, List.length_replicate, if_pos (by omega)]

theorem buildGraph_eq (nodes : List Node) :
    buildGraph (nodes.map Node.record) = assemble (List.replicate nodes.length (0, [])) := by
  unfold buildGraph processParallel
  rw [List.length_map]

/-- A single record gives a vector of two empty lists. -/
theorem buildGraph_singleton (node : Node) :
    buildGraph ([node].map Node.record) = .ok [[], []] := buildGraph_eq [node]

theorem Numbered.root_of_singleton (h : Numbered [node]) : node.root.toInt = 1 := by
  have hbounds := h.root_bounds (List.mem_singleton_self node)
  rw [List.length_singleton] at hbounds
  omega

/-- The numbers that `process_parallel` returns are zero, and no node has that number. -/
theorem processParallel_ne (h : Numbered nodes) (hne : nodes ≠ []) :
    processParallel (nodes.map Node.record) ≠
      nodes.map fun node => (node.root, node.neighbors) := by
  intro heq
  obtain ⟨node, hnode⟩ := List.exists_mem_of_ne_nil nodes hne
  have hmem : (node.root, node.neighbors) ∈ processParallel (nodes.map Node.record) := by
    rw [heq]
    exact List.mem_map.mpr ⟨node, hnode, rfl⟩
  have hzero : node.root = 0 := congrArg Prod.fst (List.eq_of_mem_replicate hmem)
  have hbounds := h.root_bounds hnode
  rw [hzero] at hbounds
  exact absurd hbounds.1 (by decide)

/-- The graph is recovered for a single record without arrows only, and what `process_parallel`
returns is never what `process_serial` does. -/
theorem buildGraph_recovers_iff (nodes : List Node) (h : Numbered nodes) (hne : nodes ≠ []) :
    ((∃ graph, buildGraph (nodes.map Node.record) = .ok graph ∧
        Recovers nodes.length nodes graph) ↔
        ∃ node, nodes = [node] ∧ node.arrows = []) ∧
      ∃ raw, processSerial (nodes.map Node.record) = .ok raw ∧
        processParallel (nodes.map Node.record) ≠ raw := by
  constructor
  · constructor
    · intro hbuild
      obtain ⟨graph, hgraph, hrecovers⟩ := hbuild
      match nodes with
      | [] => exact absurd rfl hne
      | [node] =>
        rw [buildGraph_singleton] at hgraph
        obtain rfl := Except.ok.inj hgraph
        have hslot := hrecovers.slot node (List.mem_singleton_self node)
        rw [h.root_of_singleton] at hslot
        have hempty : node.neighbors = [] := (Option.some.inj hslot).symm
        exact ⟨node, rfl, List.map_eq_nil_iff.mp hempty⟩
      | a :: b :: nodes =>
        have hassert := assemble_replicate (n := (a :: b :: nodes).length) (by simp)
        rw [buildGraph_eq, hassert] at hgraph
        cases hgraph
    · intro hsingle
      obtain ⟨node, rfl, harrows⟩ := hsingle
      refine ⟨[[], []], buildGraph_singleton node, rfl, rfl, ?_⟩
      intro x hx
      obtain rfl := List.mem_singleton.mp hx
      unfold Node.neighbors
      rw [h.root_of_singleton, harrows]
      rfl
  · exact ⟨_, processSerial_eq h, processParallel_ne h hne⟩

/-- Node 2 comes first, with an arrow to node 1 of weight 5, and then node 1 with one back. -/
private def records : List Node := [⟨2, [⟨1, 5⟩], []⟩, ⟨1, [⟨2, 5⟩], []⟩]

theorem buildGraph_recovers_iff_two :
    ((∃ graph, buildGraph (records.map Node.record) = .ok graph ∧ Recovers 2 records graph) ↔
        ∃ node, records = [node] ∧ node.arrows = []) ∧
      ∃ raw, processSerial (records.map Node.record) = .ok raw ∧
        processParallel (records.map Node.record) ≠ raw :=
  buildGraph_recovers_iff records ⟨by decide, by simp [records]⟩ (by decide)

theorem buildGraph_two :
    buildGraph ["2\t1,5".toList, "1\t2,5".toList] =
        .error (.assertFailed "unique_check.size() == raw_nodes.size()") ∧
      processSerial ["2\t1,5".toList, "1\t2,5".toList] = .ok [(2, [⟨5, 1⟩]), (1, [⟨5, 2⟩])] ∧
      processParallel ["2\t1,5".toList, "1\t2,5".toList] = [(0, []), (0, [])] := by
  refine ⟨?_, ?_, rfl⟩
  · decide
  · decide

end CppTricks.GraphRecords
