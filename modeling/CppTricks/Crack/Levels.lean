import CppTricks.Crack.Trees
import Mathlib.Algebra.Ring.Nat

/-! The traversals of `crack_code_gr_trees_test.cc` that print and return nothing: level by level
with a queue, and the leaves with their levels. -/
namespace CppTricks.Crack
open Foundation

variable {α : Type} {root t : BinaryTree α} {n : ℕ}

/-! ### Level by level -/

def enqueueChild : BinaryTree α → List (BinaryTree α) → List (BinaryTree α)
  | .nil, q => q
  | .node data left right, q => q ++ [.node data left right]

/-- The loop, with what has been printed. `none` is `tmp->data` of a null pointer, or a loop that is
still running. -/
def checkLoop : ℕ → List (BinaryTree α) → List α → Option (List α)
  | _, [], out => some out
  | 0, _ :: _, _ => none
  | _ + 1, .nil :: _, _ => none
  | fuel + 1, .node data left right :: q, out =>
    checkLoop fuel (enqueueChild right (enqueueChild left q)) (out ++ [data])

def checkBalansing (fuel : ℕ) (root : BinaryTree α) : Option (List α) :=
  checkLoop fuel [root] []

def children : BinaryTree α → List (BinaryTree α)
  | .nil => []
  | .node _ left right => enqueueChild right (enqueueChild left [])

theorem enqueueChild_append (child : BinaryTree α) (us vs : List (BinaryTree α)) :
    enqueueChild child (us ++ vs) = us ++ enqueueChild child vs := by
  cases child with
  | nil => rfl
  | node data left right => exact List.append_assoc us vs _

theorem mem_enqueueChild {child : BinaryTree α} {q : List (BinaryTree α)} :
    t ∈ enqueueChild child q ↔ t ∈ q ∨ t = child ∧ child ≠ .nil := by
  cases child with
  | nil => simp [enqueueChild]
  | node data left right => simp [enqueueChild]

theorem ne_nil_of_mem_children {child : BinaryTree α} (h : child ∈ children t) : child ≠ .nil := by
  cases t with
  | nil => exact nomatch h
  | node data left right =>
    rw [children, mem_enqueueChild, mem_enqueueChild] at h
    obtain (h | ⟨rfl, hne⟩) | ⟨rfl, hne⟩ := h
    · exact nomatch h
    · exact hne
    · exact hne

theorem enqueueChild_flatMap (child : BinaryTree α) (q : List (BinaryTree α)) (k : ℕ) :
    (enqueueChild child q).flatMap (layer · k) = q.flatMap (layer · k) ++ layer child k := by
  cases child with
  | nil => rw [enqueueChild, layer, List.append_nil]
  | node data left right => rw [enqueueChild, List.flatMap_append, List.flatMap_singleton]

/-- The layers of the children are those of the tree below its root. -/
theorem children_flatMap (t : BinaryTree α) (k : ℕ) :
    (children t).flatMap (layer · k) = layer t (k + 1) := by
  cases t with
  | nil => rfl
  | node data left right =>
    rw [children, enqueueChild_flatMap, enqueueChild_flatMap, layer]
    rfl

theorem children_height {child : BinaryTree α} (h : child ∈ children t) :
    child.height < t.height := by
  cases t with
  | nil => exact nomatch h
  | node data left right =>
    rw [BinaryTree.height, Nat.lt_succ_iff]
    rw [children, mem_enqueueChild, mem_enqueueChild] at h
    obtain (h | ⟨rfl, -⟩) | ⟨rfl, -⟩ := h
    · exact nomatch h
    · exact le_max_left _ _
    · exact le_max_right _ _

def totalNodes (q : List (BinaryTree α)) : ℕ := (q.map BinaryTree.numNodes).sum

theorem totalNodes_append (us vs : List (BinaryTree α)) :
    totalNodes (us ++ vs) = totalNodes us + totalNodes vs := by
  unfold totalNodes
  rw [List.map_append, List.sum_append]

theorem totalNodes_enqueueChild (child : BinaryTree α) (q : List (BinaryTree α)) :
    totalNodes (enqueueChild child q) = totalNodes q + child.numNodes := by
  cases child with
  | nil => rfl
  | node data left right =>
    rw [enqueueChild, totalNodes_append]
    rfl

theorem totalNodes_children (h : t ≠ .nil) : totalNodes (children t) + 1 = t.numNodes := by
  cases t with
  | nil => exact absurd rfl h
  | node data left right =>
    rw [children, totalNodes_enqueueChild, totalNodes_enqueueChild, BinaryTree.numNodes]
    simp [totalNodes]

theorem totalNodes_flatMap_children {q : List (BinaryTree α)} (hq : ∀ t ∈ q, t ≠ .nil) :
    totalNodes (q.flatMap children) + q.length = totalNodes q := by
  induction q with
  | nil => rfl
  | cons t q ih =>
    rw [List.forall_mem_cons] at hq
    have hcons : totalNodes (t :: q) = t.numNodes + totalNodes q := totalNodes_append [t] q
    rw [hcons, ← ih hq.2, ← totalNodes_children hq.1, List.flatMap_cons, totalNodes_append,
      List.length_cons]
    omega

/-- A level at the front of the queue is printed, and the next one is behind what follows it. -/
theorem checkLoop_level (us vs : List (BinaryTree α)) (hus : ∀ t ∈ us, t ≠ .nil) (fuel : ℕ)
    (out : List α) : checkLoop (us.length + fuel) (us ++ vs) out =
      checkLoop fuel (vs ++ us.flatMap children) (out ++ us.flatMap (layer · 0)) := by
  induction us generalizing vs out with
  | nil =>
    rw [List.length_nil, Nat.zero_add, List.nil_append, List.flatMap_nil, List.flatMap_nil,
      List.append_nil, List.append_nil]
  | cons t us ih =>
    rw [List.forall_mem_cons] at hus
    obtain ⟨hne, hus⟩ := hus
    cases t with
    | nil => exact absurd rfl hne
    | node data left right =>
      have hq : enqueueChild right (enqueueChild left (us ++ vs)) =
          us ++ (vs ++ children (.node data left right)) := by
        rw [children, ← List.append_assoc, ← enqueueChild_append, ← enqueueChild_append,
          List.append_nil]
      rw [List.length_cons, Nat.add_right_comm, List.cons_append, checkLoop, hq, ih _ hus,
        List.flatMap_cons, List.flatMap_cons, layer, List.append_assoc, List.append_assoc]

def layersOf (n : ℕ) (q : List (BinaryTree α)) : List α :=
  (List.range n).flatMap fun k => q.flatMap (layer · k)

theorem layersOf_succ (n : ℕ) (q : List (BinaryTree α)) :
    layersOf (n + 1) q = q.flatMap (layer · 0) ++ layersOf n (q.flatMap children) := by
  unfold layersOf
  rw [List.range_succ_eq_map, List.flatMap_cons, List.flatMap_map]
  simp only [List.flatMap_assoc, children_flatMap, Nat.succ_eq_add_one]

theorem checkLoop_eq (q : List (BinaryTree α)) (hq : ∀ t ∈ q, t ≠ .nil ∧ t.height ≤ n) (fuel : ℕ)
    (hfuel : totalNodes q ≤ fuel) (out : List α) :
    checkLoop fuel q out = some (out ++ layersOf n q) := by
  induction n generalizing q fuel out with
  | zero =>
    cases q with
    | nil => rw [checkLoop, layersOf, List.range_zero, List.flatMap_nil, List.append_nil]
    | cons t q =>
      obtain ⟨hne, hheight⟩ := hq t List.mem_cons_self
      cases t with
      | nil => exact absurd rfl hne
      | node data left right => exact absurd hheight (Nat.not_succ_le_zero _)
  | succ n ih =>
    have hnodes := totalNodes_flatMap_children fun t ht => (hq t ht).1
    obtain ⟨fuel, rfl⟩ : ∃ rest, fuel = q.length + rest := Nat.exists_eq_add_of_le (by omega)
    have hlevel := checkLoop_level q [] (fun t ht => (hq t ht).1) fuel out
    rw [List.append_nil, List.nil_append] at hlevel
    rw [hlevel, ih _ ?_ fuel (by omega), layersOf_succ, List.append_assoc]
    intro child hchild
    obtain ⟨t, ht, hmem⟩ := List.mem_flatMap.mp hchild
    exact ⟨ne_nil_of_mem_children hmem,
      Nat.le_of_lt_succ ((children_height hmem).trans_le (hq t ht).2)⟩

theorem exists_splitIntoLayers (root : BinaryTree α) :
    ∃ vv, splitIntoLayers root (-1) [] = some vv ∧
      vv = (List.range root.height).map (layer root) := by
  obtain ⟨vv, hrun, hadd⟩ := splitIntoLayers_added root 0 []
  have hlength : vv.length = root.height := by
    rw [hadd.length_eq, layersFrom_zero, List.length_nil, Nat.zero_max]
  refine ⟨vv, hrun, List.ext_getElem? fun k => ?_⟩
  by_cases hk : k < root.height
  · rw [getElem?_eq_dataAt (hlength ▸ hk), hadd.dataAt_eq, layerFrom_zero, List.getElem?_map,
      List.getElem?_range hk]
    rfl
  · rw [List.getElem?_eq_none (hlength ▸ not_lt.mp hk), List.getElem?_eq_none (by simpa using hk)]

/-- What is printed are the layers that `split_into_layers` makes, one after the other. -/
theorem checkBalansing_eq_layers (root : BinaryTree α) (hroot : root ≠ .nil) (fuel : ℕ)
    (hfuel : root.numNodes ≤ fuel) : ∃ vv, splitIntoLayers root (-1) [] = some vv ∧
      checkBalansing fuel root = some vv.flatten := by
  obtain ⟨vv, hrun, rfl⟩ := exists_splitIntoLayers root
  refine ⟨_, hrun, ?_⟩
  have hloop := checkLoop_eq [root] (n := root.height) (by simpa using hroot) fuel
    (by simpa [totalNodes] using hfuel) []
  rw [checkBalansing, hloop, layersOf, List.nil_append, ← List.flatMap_def]
  simp only [List.flatMap_singleton]

theorem checkBalansing_eq_layers_five : ∃ vv,
    splitIntoLayers
      (.node 1 (.node 2 (.node 4 .nil .nil) (.node 5 .nil .nil)) (.node 3 .nil .nil)) (-1) [] =
        some vv ∧
    checkBalansing 5
      (.node 1 (.node 2 (.node 4 .nil .nil) (.node 5 .nil .nil)) (.node 3 .nil .nil)) =
        some vv.flatten :=
  checkBalansing_eq_layers _ (node_ne_nil 1 _ _) 5 (by decide)

/-! ### The leaves -/

/-- With what has been printed: the data of the leaves and their levels. -/
def postOrderTree : BinaryTree α → ℤ → List (α × ℤ) → List (α × ℤ)
  | .nil, _, out => out
  | .node data left right, level, out =>
    let level := level + 1
    let out := postOrderTree left level out
    let out := postOrderTree right level out
    match left, right with
    | .nil, .nil => out ++ [(data, level)]
    | _, _ => out

theorem postOrderTree_leaf (data : α) (level : ℤ) (out : List (α × ℤ)) :
    postOrderTree (.node data .nil .nil) level out = out ++ [(data, level + 1)] := rfl

theorem postOrderTree_node (data : α) {left right : BinaryTree α}
    (h : left ≠ .nil ∨ right ≠ .nil) (level : ℤ) (out : List (α × ℤ)) :
    postOrderTree (.node data left right) level out =
      postOrderTree right (level + 1) (postOrderTree left (level + 1) out) := by
  cases left with
  | nil =>
    cases right with
    | nil => exact absurd rfl (h.resolve_left fun h => h rfl)
    | node => rfl
  | node => rfl

/-- The levels that are printed for a tree whose root is at `level + 1`. -/
theorem level_postOrderTree (t : BinaryTree α) (level : ℤ) (out : List (α × ℤ)) (l : ℤ) :
    l ∈ (postOrderTree t level out).map Prod.snd ↔
      l ∈ out.map Prod.snd ∨ ∃ d ∈ leafDepths t, l = level + d := by
  induction t generalizing level out with
  | nil => simp [postOrderTree, leafDepths_nil]
  | node data left right hleft hright =>
    by_cases h : left ≠ .nil ∨ right ≠ .nil
    · have hdepth (d : ℕ) : level + (d + 1) = level + 1 + d := by omega
      rw [postOrderTree_node data h, hright, hleft, leafDepths_node data h, Set.image_union,
        or_assoc]
      refine or_congr_right ?_
      simp [or_and_right, exists_or, hdepth]
    · obtain ⟨rfl, rfl⟩ : left = .nil ∧ right = .nil := by
        simpa only [not_or, not_not] using h
      rw [postOrderTree_leaf, leafDepths_leaf]
      simp

/-- The least depth is that of the least level printed, which is `0` for the root. -/
theorem findMinDepth_postOrderTree (root : BinaryTree α) (hroot : root ≠ .nil) :
    IsLeast {l | l ∈ (postOrderTree root (-1) []).map Prod.snd} (findMinDepth root - 1) := by
  obtain ⟨hmem, hle⟩ := isLeast_findMinDepth root hroot
  refine ⟨(level_postOrderTree root (-1) [] _).mpr (Or.inr ⟨_, hmem, by omega⟩), fun l hl => ?_⟩
  obtain hl | ⟨d, hd, rfl⟩ := (level_postOrderTree root (-1) [] l).mp hl
  · exact nomatch hl
  · have hd := hle hd
    omega

theorem findMinDepth_postOrderTree_five :
    IsLeast {l | l ∈ (postOrderTree
        (.node 1 (.node 2 (.node 4 .nil .nil) (.node 5 .nil .nil)) (.node 3 .nil .nil)) (-1) []).map
          Prod.snd}
      (findMinDepth
        (.node 1 (.node 2 (.node 4 .nil .nil) (.node 5 .nil .nil)) (.node 3 .nil .nil)) - 1) :=
  findMinDepth_postOrderTree _ (node_ne_nil 1 _ _)

end CppTricks.Crack
