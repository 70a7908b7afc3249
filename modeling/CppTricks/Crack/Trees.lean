import CppTricks.Foundation.Trees
import Mathlib.Data.Int.Order.Basic
import Mathlib.Data.List.GetD

/-! The traversals of `crack_code_gr_trees_test.cc`, where a null pointer is a tree without nodes:
pre-order with a stack, layers, the depth of the nearest leaf. -/
namespace CppTricks.Crack
open Foundation

variable {α : Type} {left right top root : BinaryTree α} {pending parentStack : List (BinaryTree α)}

/-! ### Pre-order with a stack -/

def pushChild : BinaryTree α → List (BinaryTree α) → List (BinaryTree α)
  | .nil, parentStack => parentStack
  | .node data left right, parentStack => .node data left right :: parentStack

/-- The loop, with what has been printed. `none` is `top()` or `pop()` on an empty stack, or a loop
that is still running. -/
def printLoop : ℕ → BinaryTree α → List (BinaryTree α) → List α → Option (List α)
  | _, .nil, _, out => some out
  | 0, .node .., _, _ => none
  | fuel + 1, .node data left right, parentStack, out =>
    let out := out ++ [data]
    let parentStack := pushChild right parentStack
    match pushChild left parentStack with
    | [] => none
    | top :: parentStack => printLoop fuel top parentStack out

def printTreePreOrderIterative (fuel : ℕ) (root : BinaryTree α) : Option (List α) :=
  printLoop fuel root [.nil] []

/-- The stack and its top are the subtrees still to be printed, above the null pointer. -/
def Pending (pending : List (BinaryTree α)) (stack : List (BinaryTree α)) : Prop :=
  stack = pending ++ [.nil] ∧ ∀ t ∈ pending, t ≠ .nil

theorem pushChild_pending (child : BinaryTree α) (h : Pending pending parentStack) :
    ∃ pending', Pending pending' (pushChild child parentStack) ∧
      pending'.flatMap preOrder = preOrder child ++ pending.flatMap preOrder := by
  obtain ⟨rfl, hne⟩ := h
  cases child with
  | nil => exact ⟨pending, ⟨rfl, hne⟩, rfl⟩
  | node data left right =>
    refine ⟨.node data left right :: pending, ⟨rfl, ?_⟩, List.flatMap_cons⟩
    rw [List.forall_mem_cons]
    exact ⟨node_ne_nil data left right, hne⟩

/-- One round prints the datum of the top, and then the rest of its pre-order is still to come. -/
theorem printLoop_round (fuel : ℕ) (data : α) (out : List α)
    (h : Pending (.node data left right :: pending) (.node data left right :: parentStack)) :
    ∃ pending' top' parentStack', Pending pending' (top' :: parentStack') ∧
      printLoop (fuel + 1) (.node data left right) parentStack out =
        printLoop fuel top' parentStack' (out ++ [data]) ∧
      (BinaryTree.node data left right :: pending).flatMap preOrder =
        data :: pending'.flatMap preOrder := by
  obtain ⟨hstack, hne⟩ := h
  have hrest : Pending pending parentStack :=
    ⟨List.tail_eq_of_cons_eq hstack, fun t ht => hne t (List.mem_cons_of_mem _ ht)⟩
  obtain ⟨pendingRight, hright, hrightOut⟩ := pushChild_pending right hrest
  obtain ⟨pendingLeft, hleft, hleftOut⟩ := pushChild_pending left hright
  have hout : (BinaryTree.node data left right :: pending).flatMap preOrder =
      data :: pendingLeft.flatMap preOrder := by
    rw [hleftOut, hrightOut, List.flatMap_cons, preOrder, List.cons_append, List.append_assoc]
  cases hpush : pushChild left (pushChild right parentStack) with
  | nil =>
    rw [hpush] at hleft
    exact absurd hleft.1.symm (List.append_ne_nil_of_right_ne_nil _ (List.cons_ne_nil _ _))
  | cons top' parentStack' =>
    rw [hpush] at hleft
    refine ⟨pendingLeft, top', parentStack', hleft, ?_, hout⟩
    simp only [printLoop, hpush]

/-- The loop prints the pre-orders of all subtrees still to be printed, the top one first. -/
theorem printLoop_pending (fuel : ℕ) (out : List α) (h : Pending pending (top :: parentStack))
    (hfuel : (pending.flatMap preOrder).length ≤ fuel) :
    printLoop fuel top parentStack out = some (out ++ pending.flatMap preOrder) := by
  induction fuel generalizing pending top parentStack out with
  | zero =>
    cases pending with
    | nil =>
      obtain ⟨rfl, -⟩ := List.cons.inj h.1
      rw [printLoop, List.flatMap_nil, List.append_nil]
    | cons t pending =>
      rw [List.flatMap_cons, List.length_append, length_preOrder] at hfuel
      exact absurd (numNodes_eq_zero_iff.mp (by omega)) (h.2 t List.mem_cons_self)
  | succ fuel ih =>
    cases pending with
    | nil =>
      obtain ⟨rfl, -⟩ := List.cons.inj h.1
      rw [printLoop, List.flatMap_nil, List.append_nil]
    | cons t pending =>
      obtain rfl : top = t := (List.cons.inj h.1).1
      cases top with
      | nil => exact absurd rfl (h.2 .nil List.mem_cons_self)
      | node data left right =>
        obtain ⟨pending', top', parentStack', hpending, hround, hout⟩ :=
          printLoop_round fuel data out h
        rw [hout, List.length_cons] at hfuel
        rw [hround, hout, ih (out ++ [data]) hpending (by omega), List.append_assoc,
          List.singleton_append]

/-- The loop ends after one round for every node, the stack is never empty at `top()` and `pop()`,
and what is printed is the pre-order. -/
theorem printTreePreOrderIterative_eq (root : BinaryTree α) (fuel : ℕ)
    (hfuel : root.numNodes ≤ fuel) :
    printTreePreOrderIterative fuel root = some (preOrder root) := by
  unfold printTreePreOrderIterative
  cases root with
  | nil =>
    unfold printLoop preOrder
    rfl
  | node data left right =>
    have hpending : Pending [.node data left right] [.node data left right, .nil] := by
      refine ⟨rfl, ?_⟩
      rw [List.forall_mem_singleton]
      exact node_ne_nil data left right
    have hout : [BinaryTree.node data left right].flatMap preOrder =
        preOrder (.node data left right) := List.flatMap_singleton _ _
    rw [← length_preOrder, ← hout] at hfuel
    rw [printLoop_pending fuel [] hpending hfuel, hout, List.nil_append]

theorem printTreePreOrderIterative_eq_five :
    printTreePreOrderIterative 5
        (.node 1 (.node 2 (.node 4 .nil .nil) (.node 5 .nil .nil)) (.node 3 .nil .nil)) =
      some [1, 2, 4, 5, 3] :=
  printTreePreOrderIterative_eq
    (.node 1 (.node 2 (.node 4 .nil .nil) (.node 5 .nil .nil)) (.node 3 .nil .nil)) 5 (by decide)

/-! ### Layers -/

/-- `while (vv.size() < size) vv.push_back(vector<int>());`, for a `size` that is not negative. -/
def extendLayers (vv : List (List α)) (size : ℤ) : List (List α) :=
  if vv.length < size then extendLayers (vv ++ [[]]) size else vv
termination_by (size - vv.length).toNat
decreasing_by
  rw [List.length_append, List.length_singleton]
  omega

/-- `vv[level].push_back(data)`, which is `none` where there is no such layer. -/
def pushLayer (vv : List (List α)) (level : ℤ) (data : α) : Option (List (List α)) :=
  if 0 ≤ level ∧ level < vv.length then some (vv.modify level.toNat (· ++ [data])) else none

def splitIntoLayers : BinaryTree α → ℤ → List (List α) → Option (List (List α))
  | .nil, _, vv => some vv
  | .node data left right, level, vv => do
    let level := level + 1
    let vv ← splitIntoLayers left level vv
    let vv ← splitIntoLayers right level vv
    pushLayer (extendLayers vv (level + 1)) level data

variable {vv vv' vv'' : List (List α)} {n : ℕ}

theorem extendLayers_eq (vv : List (List α)) (n : ℕ) :
    extendLayers vv n = vv ++ List.replicate (n - vv.length) [] := by
  induction hm : n - vv.length generalizing vv with
  | zero =>
    unfold extendLayers
    rw [if_neg (by omega), List.replicate_zero, List.append_nil]
  | succ m ih =>
    unfold extendLayers
    rw [if_pos (by omega), ih (vv ++ [[]]), List.append_assoc, List.replicate_succ,
      List.singleton_append]
    rw [List.length_append, List.length_singleton]
    omega

/-- What the layers hold, where a layer that is not there yet holds nothing. -/
def dataAt (vv : List (List α)) (k : ℕ) : List α := vv.getD k []

theorem dataAt_append_replicate (vv : List (List α)) (m k : ℕ) :
    dataAt (vv ++ List.replicate m []) k = dataAt vv k := by
  unfold dataAt
  rcases Nat.lt_or_ge k vv.length with hlt | hge
  · rw [List.getD_append _ _ _ _ hlt]
  · rw [List.getD_append_right _ _ _ _ hge, List.getD_eq_getElem?_getD,
      List.getElem?_getD_replicate_default_eq, List.getD_eq_default _ _ hge]

theorem dataAt_modify (vv : List (List α)) (data : α) (hn : n < vv.length) (k : ℕ) :
    dataAt (vv.modify n (· ++ [data])) k = dataAt vv k ++ if k = n then [data] else [] := by
  unfold dataAt
  rw [List.getD_eq_getElem?_getD, List.getElem?_modify, List.getD_eq_getElem?_getD]
  rcases eq_or_ne k n with rfl | hne
  · rw [List.getElem?_eq_getElem hn, if_pos rfl]
    simp
  · simp [hne, hne.symm]

/-- `vv'` is `vv` with a tree added to it whose root is at depth `n`. -/
structure Added (n : ℕ) (t : BinaryTree α) (vv vv' : List (List α)) : Prop where
  length_eq : vv'.length = max vv.length (layersFrom n t)
  dataAt_eq : ∀ k, dataAt vv' k = dataAt vv k ++ layerFrom n t k

theorem added_nil (n : ℕ) (vv : List (List α)) : Added n .nil vv vv where
  length_eq := (Nat.max_eq_left (Nat.zero_le _)).symm
  dataAt_eq k := by rw [layerFrom_nil, List.append_nil]

theorem pushLayer_extendLayers (vv : List (List α)) (n : ℕ) (data : α) :
    ∃ vv', pushLayer (extendLayers vv (n + 1)) n data = some vv' ∧
      vv'.length = max vv.length (n + 1) ∧
      ∀ k, dataAt vv' k = dataAt vv k ++ if k = n then [data] else [] := by
  have hextend := extendLayers_eq vv (n + 1)
  push_cast at hextend
  have hlength : (vv ++ List.replicate (n + 1 - vv.length) []).length = max vv.length (n + 1) := by
    rw [List.length_append, List.length_replicate]
    omega
  refine ⟨(vv ++ List.replicate (n + 1 - vv.length) []).modify n (· ++ [data]), ?_, ?_, ?_⟩
  · unfold pushLayer
    rw [hextend, if_pos (by omega), Int.toNat_natCast]
  · rw [List.length_modify, hlength]
  · intro k
    rw [dataAt_modify _ _ (by omega), dataAt_append_replicate]

theorem splitIntoLayers_added (t : BinaryTree α) (n : ℕ) (vv : List (List α)) :
    ∃ vv', splitIntoLayers t (n - 1) vv = some vv' ∧ Added n t vv vv' := by
  induction t generalizing n vv with
  | nil => exact ⟨vv, rfl, added_nil n vv⟩
  | node data left right hleft hright =>
    obtain ⟨vvLeft, hrunLeft, haddLeft⟩ := hleft (n + 1) vv
    obtain ⟨vvRight, hrunRight, haddRight⟩ := hright (n + 1) vvLeft
    obtain ⟨vv', hpush, hlength, hdata⟩ := pushLayer_extendLayers vvRight n data
    have hlevel : ((n + 1 : ℕ) : ℤ) - 1 = n := by omega
    rw [hlevel] at hrunLeft hrunRight
    refine ⟨vv', ?_, ?_, ?_⟩
    · simp only [splitIntoLayers, hrunLeft, hrunRight, Option.bind_eq_bind, Option.bind_some,
        Int.sub_add_cancel, hpush]
    · rw [hlength, haddRight.length_eq, haddLeft.length_eq, layersFrom_node]
      rw [Nat.max_assoc, Nat.max_assoc, Nat.max_assoc]
    · intro k
      rw [hdata, haddRight.dataAt_eq, haddLeft.dataAt_eq, layerFrom_node]
      rw [List.append_assoc, List.append_assoc, List.append_assoc]

theorem getElem?_eq_dataAt {k : ℕ} (hk : k < vv.length) : vv[k]? = some (dataAt vv k) := by
  unfold dataAt
  rw [List.getD_eq_getElem _ _ hk, List.getElem?_eq_getElem hk]

/-- One layer for every level of the tree, and in it what is at that depth, from left to right. -/
theorem splitIntoLayers_eq (root : BinaryTree α) : ∃ vv, splitIntoLayers root (-1) [] = some vv ∧
    vv.length = root.height ∧ (∀ k < root.height, vv[k]? = some (layer root k)) ∧
    ∀ row ∈ vv, row ≠ [] := by
  obtain ⟨vv, hrun, hadd⟩ := splitIntoLayers_added root 0 []
  have hlength : vv.length = root.height := by
    rw [hadd.length_eq, layersFrom_zero, List.length_nil, Nat.zero_max]
  have hlayer : ∀ k < root.height, vv[k]? = some (layer root k) := by
    intro k hk
    rw [← hlength] at hk
    rw [getElem?_eq_dataAt hk, hadd.dataAt_eq, layerFrom_zero]
    rfl
  refine ⟨vv, hrun, hlength, hlayer, ?_⟩
  intro row hrow
  obtain ⟨k, hk, rfl⟩ := List.getElem_of_mem hrow
  have hget := hlayer k (hlength ▸ hk)
  rw [List.getElem?_eq_getElem hk] at hget
  rw [Option.some.inj hget, layer_ne_nil_iff]
  exact hlength ▸ hk

/-! ### The nearest leaf -/

def findMinDepth : BinaryTree α → ℕ
  | .nil => 0
  | .node _ left right =>
    let l := findMinDepth left
    let r := findMinDepth right
    if l = 0 ∧ r = 0 then 1
    else if l = 0 ∨ r = 0 then max l r + 1
    else min l r + 1

theorem findMinDepth_ne_zero (h : root ≠ .nil) : findMinDepth root ≠ 0 := by
  cases root with
  | nil => exact absurd rfl h
  | node data left right =>
    simp only [findMinDepth]
    split
    · exact Nat.one_ne_zero
    · split <;> exact Nat.succ_ne_zero _

theorem isLeast_findMinDepth (root : BinaryTree α) (h : root ≠ .nil) :
    IsLeast (leafDepths root) (findMinDepth root) := by
  induction root with
  | nil => exact absurd rfl h
  | node data left right hleft hright =>
    simp only [findMinDepth]
    by_cases hl : left = .nil <;> by_cases hr : right = .nil
    · subst hl hr
      rw [if_pos ⟨rfl, rfl⟩]
      exact isLeast_leafDepths_leaf data
    · subst hl
      rw [if_neg fun h => findMinDepth_ne_zero hr h.2, if_pos (.inl rfl), findMinDepth,
        Nat.zero_max]
      exact isLeast_leafDepths_right data hr (hright hr)
    · subst hr
      rw [if_neg fun h => findMinDepth_ne_zero hl h.1, if_pos (.inr rfl),
        show findMinDepth (.nil : BinaryTree α) = 0 from rfl, Nat.max_zero]
      exact isLeast_leafDepths_left data hl (hleft hl)
    · rw [if_neg fun h => findMinDepth_ne_zero hl h.1,
        if_neg (not_or.mpr ⟨findMinDepth_ne_zero hl, findMinDepth_ne_zero hr⟩)]
      exact isLeast_leafDepths_node data hl (hleft hl) (hright hr)

/-- Nothing for the empty tree, and otherwise the least number of nodes on a path to a node without
children. -/
theorem findMinDepth_leafDepth : findMinDepth (.nil : BinaryTree α) = 0 ∧
    ∀ (data : α) left right, IsLeast {d | LeafDepth (.node data left right) d}
      (findMinDepth (.node data left right)) :=
  ⟨rfl, fun data left right => isLeast_findMinDepth _ (node_ne_nil data left right)⟩

end CppTricks.Crack
