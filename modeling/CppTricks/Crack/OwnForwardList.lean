import CppTricks.Foundation.Chains
import CppTricks.Foundation.Loops
import Mathlib.Data.Int.Order.Basic
import Mathlib.Data.List.Induction

/-! `own_forward_list`: a singly linked list with a pointer to its last node. -/
namespace CppTricks.Crack
open Foundation

/-- A null pointer is `none`. -/
structure OwnForwardList where
  head : Option ℕ
  tail : Option ℕ

variable {T : Type}

abbrev Nodes (T : Type) := Memory (Node T)

namespace OwnForwardList

def create : OwnForwardList := ⟨none, none⟩

/-- The loop of the destructor, with `ptr` at its end. `none` is a pointer to what is no node, or a
loop that is still running. -/
def destroyLoop : ℕ → Option ℕ → Nodes T → Option (Option ℕ × Nodes T)
  | fuel, ptr, m => do
    let node ← m.deref ptr
    if node.next = none then return (ptr, m)
    match fuel with
    | 0 => none
    | fuel + 1 => do
      -- `_` deletes the node at the end of the block, when `ptr` has gone on
      let m ← m.delete ptr
      destroyLoop fuel node.next m

def destroy (fuel : ℕ) (l : OwnForwardList) (m : Nodes T) : Option (Nodes T) :=
  if l.head = none then some m
  else do
    let (ptr, m) ← destroyLoop fuel l.head m
    m.delete ptr

def pushBack (l : OwnForwardList) (elem : T) (m : Nodes T) : Option (OwnForwardList × Nodes T) :=
  let (ptr, m) := m.new ⟨elem, none⟩
  if l.head ≠ none then do
    let m ← m.update l.tail fun node => { node with next := some ptr }
    return (⟨l.head, some ptr⟩, m)
  else some (⟨some ptr, some ptr⟩, m)

/-- The guarded steps of `p2`, of which so many are left. The result is a null pointer where the
list has too few nodes. -/
def openWindow (m : Nodes T) : ℕ → Option ℕ → Option (Option ℕ)
  | 0, p2 => some p2
  | n + 1, p2 => do
    let node ← m.deref p2
    if node.next = none then return none
    openWindow m n node.next

/-- Both pointers go on until `p2` is at the last node. -/
def slide (m : Nodes T) : ℕ → Option ℕ → Option ℕ → Option (Option ℕ)
  | fuel, p2, p1 => do
    let node2 ← m.deref p2
    if node2.next = none then return p1
    match fuel with
    | 0 => none
    | fuel + 1 => do
      let node1 ← m.deref p1
      slide m fuel node2.next node1.next

/-- `none` is a failed assertion, a pointer to what is no node, or a loop that is still running. -/
def getNthToLast (fuel : ℕ) (l : OwnForwardList) (nth : ℤ) (m : Nodes T) : Option (Option ℕ) :=
  if ¬nth > 1 then none
  else if l.head = none then some none
  else do
    let p2 ← openWindow m (nth - 1).toNat l.head
    if p2 = none then return none
    slide m fuel p2 l.head

def swap (l rhs : OwnForwardList) : OwnForwardList × OwnForwardList :=
  (⟨rhs.head, rhs.tail⟩, ⟨l.head, l.tail⟩)

/-- The loop of the copy constructor, with `it` at its end. -/
def copyLoop : ℕ → Option ℕ → OwnForwardList → Nodes T →
    Option (Option ℕ × OwnForwardList × Nodes T)
  | fuel, it, tmp, m => do
    let node ← m.deref it
    if node.next = none then return (it, tmp, m)
    match fuel with
    | 0 => none
    | fuel + 1 => do
      let (tmp, m) ← tmp.pushBack node.elem m
      let node ← m.deref it
      copyLoop fuel node.next tmp m

def copyConstruct (fuel : ℕ) (rhs : OwnForwardList) (m : Nodes T) :
    Option (OwnForwardList × Nodes T) := do
  let this := create
  let tmp := create
  let (tmp, m) ←
    if rhs.head = none then some (tmp, m)
    else do
      let (it, tmp, m) ← copyLoop fuel rhs.head tmp m
      let node ← m.deref it
      tmp.pushBack node.elem m
  let (tmp, this) := tmp.swap this
  let m ← tmp.destroy fuel m
  return (this, m)

def assign (fuel : ℕ) (this other : OwnForwardList) (m : Nodes T) :
    Option (OwnForwardList × Nodes T) := do
  let (rhs, m) ← other.copyConstruct fuel m
  let (rhs, this) := rhs.swap this
  let m ← rhs.destroy fuel m
  return (this, m)

structure Represents (l : OwnForwardList) (m : Nodes T) (nodes : List (ℕ × T)) : Prop where
  chain : Chain m l.head nodes
  tail_eq : l.tail = (nodes.map Prod.fst).getLast?

variable {l tmp rhs : OwnForwardList} {m : Nodes T} {nodes xs ys : List (ℕ × T)} {p : Option ℕ}

theorem create_represents (m : Nodes T) : create.Represents m [] := ⟨rfl, rfl⟩

namespace Represents

theorem head_eq_none_iff (h : l.Represents m nodes) : l.head = none ↔ nodes = [] :=
  h.chain.eq_none_iff

theorem of_replaces {m' : Nodes T} {old new : List ℕ} (h : l.Represents m nodes)
    (hreplaces : m.Replaces m' old new) (hnot : ∀ a ∈ nodes.map Prod.fst, a ∉ old) :
    l.Represents m' nodes := ⟨h.chain.of_replaces hreplaces hnot, h.tail_eq⟩

end Represents

/-! ### `push_back` -/

theorem pushBack_spec (h : l.Represents m nodes) (x : T) :
    ∃ l' m' a, l.pushBack x m = some (l', m') ∧ l'.Represents m' (nodes ++ [(a, x)]) ∧
      m.Replaces m' (nodes.map Prod.fst) ((nodes ++ [(a, x)]).map Prod.fst) := by
  have hnew := m.new_replaces ⟨x, none⟩ (nodes.map Prod.fst)
  have hself := m.objects_new_self ⟨x, none⟩
  have hmap : (nodes ++ [(m.heap.fresh, x)]).map Prod.fst = nodes.map Prod.fst ++ [m.heap.fresh] :=
    List.map_append
  unfold pushBack
  dsimp only
  rw [show (m.new ⟨x, none⟩).1 = m.heap.fresh from rfl]
  induction nodes using List.reverseRecOn with
  | nil =>
    rw [if_neg (not_not.mpr (h.head_eq_none_iff.mpr rfl))]
    refine ⟨_, _, m.heap.fresh, rfl, ⟨?_, rfl⟩, hnew⟩
    exact ⟨rfl, none, hself, rfl⟩
  | append_singleton nodes node =>
    obtain ⟨t, y⟩ := node
    have htail : l.tail = some t := by
      rw [h.tail_eq, List.map_append, List.map_singleton, List.getLast?_concat]
    have hlast := h.chain.last
    have hlive : ∀ a ∈ (nodes ++ [(t, y)]).map Prod.fst, a ≠ m.heap.fresh :=
      fun a ha => Memory.ne_fresh (h.chain.live a ha)
    have ht : t ∈ (nodes ++ [(t, y)]).map Prod.fst := by simp
    have hnodup := h.chain.nodup
    rw [List.map_append, List.map_singleton, List.nodup_append] at hnodup
    obtain ⟨m', hupdate, hset, hother, hreplaces⟩ := Memory.update_spec
      ((Memory.objects_new_of_ne (hlive t ht) ⟨x, none⟩).trans hlast)
      (fun node => { node with next := some m.heap.fresh })
      (List.mem_append_left [m.heap.fresh] ht)
    rw [if_pos h.chain.ne_none_of_concat, htail, hupdate]
    refine ⟨_, m', m.heap.fresh, rfl, ⟨?_, ?_⟩, hnew.trans ?_⟩
    · rw [List.append_assoc]
      refine h.chain.concat ?_ hset ((hother _ (hlive t ht).symm).trans hself)
      intro a ha
      have hmem : a ∈ (nodes ++ [(t, y)]).map Prod.fst := by
        rw [List.map_append]
        exact List.mem_append_left _ ha
      rw [hother a (hnodup.2.2 a ha t List.mem_cons_self),
        Memory.objects_new_of_ne (hlive a hmem)]
    · rw [List.map_append, List.map_singleton, List.getLast?_concat]
    · rw [hmap]
      exact hreplaces

/-! ### The destructor -/

theorem destroyLoop_spec {a : ℕ} {x : T} {fuel : ℕ} (h : Chain m p (xs ++ [(a, x)]))
    (hfuel : xs.length ≤ fuel) : ∃ m', destroyLoop fuel p m = some (some a, m') ∧
      m'.objects a = m.objects a ∧ m'.deleted = m.deleted ++ xs.map Prod.fst ∧
      m.Replaces m' ((xs ++ [(a, x)]).map Prod.fst) [a] := by
  induction xs generalizing p m fuel with
  | nil =>
    obtain ⟨rfl, next, hnode, rfl⟩ := h
    refine ⟨m, ?_, rfl, ?_, .refl m [a]⟩
    · unfold destroyLoop
      rw [Memory.deref_some hnode]
      rfl
    · rw [List.map_nil, List.append_nil]
  | cons node xs ih =>
    obtain ⟨b, y⟩ := node
    have hnodup := h.nodup
    obtain ⟨rfl, next, hnode, hrest⟩ := h
    have hne : next ≠ none := Chain.ne_none_of_concat hrest
    obtain ⟨m₁, hdelete, hdeleted, hother, hreplaces⟩ :=
      Memory.delete_spec hnode ((xs ++ [(a, x)]).map Prod.fst)
    have hnot : ∀ c ∈ (xs ++ [(a, x)]).map Prod.fst, c ≠ b := by
      intro c hc hcb
      rw [List.cons_append, List.map_cons, List.nodup_cons] at hnodup
      exact hnodup.1 (hcb ▸ hc)
    have hrest₁ : Chain m₁ next (xs ++ [(a, x)]) :=
      Segment.congr hrest fun c hc => hother c (hnot c hc)
    cases fuel with
    | zero => exact absurd hfuel (Nat.not_succ_le_zero _)
    | succ fuel =>
      obtain ⟨m', hrun, hlast, hdeleted', hreplaces'⟩ := ih hrest₁ (Nat.succ_le_succ_iff.mp hfuel)
      refine ⟨m', ?_, ?_, ?_, hreplaces.trans hreplaces'⟩
      · unfold destroyLoop
        rw [Memory.deref_some hnode, Option.bind_eq_bind, Option.bind_some, if_neg hne, hdelete]
        exact hrun
      · exact hlast.trans (hother a (hnot a (by simp)))
      · rw [hdeleted', hdeleted, List.append_assoc, List.singleton_append, List.map_cons]

/-- Every node is deleted, in the order of the list, and nothing else. -/
theorem destroy_spec {fuel : ℕ} (h : l.Represents m nodes) (hfuel : nodes.length ≤ fuel) :
    ∃ m', l.destroy fuel m = some m' ∧ m'.deleted = m.deleted ++ nodes.map Prod.fst ∧
      m.Replaces m' (nodes.map Prod.fst) [] := by
  unfold destroy
  rcases List.eq_nil_or_concat' nodes with rfl | ⟨xs, ⟨a, x⟩, rfl⟩
  · rw [if_pos (h.head_eq_none_iff.mpr rfl)]
    exact ⟨m, rfl, (List.append_nil _).symm, .refl m []⟩
  · have hne := h.chain.ne_none_of_concat
    rw [List.length_append] at hfuel
    obtain ⟨m₁, hrun, hlast, hdeleted, hreplaces⟩ :=
      destroyLoop_spec h.chain (Nat.le_of_succ_le hfuel)
    obtain ⟨m', hdelete, hdeleted', -, hreplaces'⟩ :=
      Memory.delete_spec (hlast.trans h.chain.last) []
    refine ⟨m', ?_, ?_, hreplaces.trans hreplaces'⟩
    · rw [if_neg hne, hrun]
      exact hdelete
    · rw [hdeleted', hdeleted, List.append_assoc, List.map_append, List.map_singleton]

/-! ### The copy constructor and the assignment -/

theorem copyLoop_spec {a : ℕ} {x : T} {fuel : ℕ} (h : Chain m p (xs ++ [(a, x)]))
    (htmp : tmp.Represents m ys)
    (hnot : ∀ b ∈ (xs ++ [(a, x)]).map Prod.fst, b ∉ ys.map Prod.fst) (hfuel : xs.length ≤ fuel) :
    ∃ tmp' m' ys', copyLoop fuel p tmp m = some (some a, tmp', m') ∧ tmp'.Represents m' ys' ∧
      ys'.map Prod.snd = ys.map Prod.snd ++ xs.map Prod.snd ∧
      m.Replaces m' (ys.map Prod.fst) (ys'.map Prod.fst) := by
  induction xs generalizing p m tmp ys fuel with
  | nil =>
    obtain ⟨rfl, next, hnode, rfl⟩ := h
    refine ⟨tmp, m, ys, ?_, htmp, ?_, .refl m _⟩
    · unfold copyLoop
      rw [Memory.deref_some hnode]
      rfl
    · rw [List.map_nil, List.append_nil]
  | cons node xs ih =>
    obtain ⟨b, y⟩ := node
    have hwhole := h
    obtain ⟨rfl, next, hnode, hrest⟩ := h
    have hne : next ≠ none := Chain.ne_none_of_concat hrest
    obtain ⟨tmp₁, m₁, c, hpush, htmp₁, hreplaces⟩ := pushBack_spec htmp y
    have hkeep : ∀ d ∈ ((b, y) :: xs ++ [(a, x)]).map Prod.fst,
        m₁.objects d = m.objects d ∧ d ∉ (ys ++ [(c, y)]).map Prod.fst :=
      fun d hd => hreplaces.objects_eq (hnot d hd) (hwhole.live d hd)
    rw [List.cons_append, List.map_cons, List.forall_mem_cons] at hkeep
    have hrest₁ : Chain m₁ next (xs ++ [(a, x)]) :=
      Segment.congr hrest fun d hd => (hkeep.2 d hd).1
    cases fuel with
    | zero => exact absurd hfuel (Nat.not_succ_le_zero _)
    | succ fuel =>
      obtain ⟨tmp', m', ys', hrun, htmp', helems, hreplaces'⟩ :=
        ih hrest₁ htmp₁ (fun d hd => (hkeep.2 d hd).2) (Nat.succ_le_succ_iff.mp hfuel)
      refine ⟨tmp', m', ys', ?_, htmp', ?_, hreplaces.trans hreplaces'⟩
      · unfold copyLoop
        rw [Memory.deref_some hnode, Option.bind_eq_bind, Option.bind_some, if_neg hne, hpush]
        dsimp only
        rw [Option.bind_eq_bind, Option.bind_some]
        dsimp only
        rw [Memory.deref_some (hkeep.1.1.trans hnode)]
        exact hrun
      · rw [helems, List.map_append, List.append_assoc, List.map_singleton, List.singleton_append,
          List.map_cons]

/-- The copy has the same elements in nodes of its own. -/
theorem copyConstruct_spec {fuel : ℕ} (h : rhs.Represents m nodes) (hfuel : nodes.length ≤ fuel) :
    ∃ this m' nodes', rhs.copyConstruct fuel m = some (this, m') ∧ this.Represents m' nodes' ∧
      nodes'.map Prod.snd = nodes.map Prod.snd ∧ m.Replaces m' [] (nodes'.map Prod.fst) := by
  unfold copyConstruct
  rcases List.eq_nil_or_concat' nodes with rfl | ⟨xs, ⟨a, x⟩, rfl⟩
  · rw [if_pos (h.head_eq_none_iff.mpr rfl)]
    exact ⟨create, m, [], rfl, create_represents m, rfl, .refl m []⟩
  · have hne := h.chain.ne_none_of_concat
    rw [List.length_append] at hfuel
    obtain ⟨tmp₁, m₁, ys, hrun, htmp₁, helems, hreplaces⟩ := copyLoop_spec h.chain
      (create_represents m) (fun _ _ => List.not_mem_nil) (Nat.le_of_succ_le hfuel)
    have hlast := (hreplaces.objects_eq List.not_mem_nil (h.chain.live a (by simp))).1.trans
      h.chain.last
    obtain ⟨tmp₂, m₂, c, hpush, htmp₂, hreplaces'⟩ := pushBack_spec htmp₁ x
    refine ⟨tmp₂, m₂, ys ++ [(c, x)], ?_, htmp₂, ?_, hreplaces.trans hreplaces'⟩
    · rw [if_neg hne, hrun, Option.bind_eq_bind, Option.bind_some]
      dsimp only
      rw [Memory.deref_some hlast, Option.bind_eq_bind, Option.bind_some, hpush]
      rfl
    · rw [List.map_append, helems, List.map_append]
      rfl

/-- The assigned list has the elements of the other one, and its own nodes are deleted. -/
theorem assign_spec {fuel : ℕ} {this other : OwnForwardList} (hthis : this.Represents m xs)
    (hother : other.Represents m ys) (hxs : xs.length ≤ fuel) (hys : ys.length ≤ fuel) :
    ∃ this' m' nodes', this.assign fuel other m = some (this', m') ∧ this'.Represents m' nodes' ∧
      nodes'.map Prod.snd = ys.map Prod.snd ∧
      m.Replaces m' (xs.map Prod.fst) (nodes'.map Prod.fst) := by
  obtain ⟨rhs, m₁, nodes', hcopy, hrhs, helems, hreplaces⟩ := copyConstruct_spec hother hys
  have hthis₁ := hthis.of_replaces hreplaces fun _ _ => List.not_mem_nil
  obtain ⟨m', hdestroy, -, hreplaces'⟩ := destroy_spec hthis₁ hxs
  have hapart : ∀ a ∈ nodes'.map Prod.fst, a ∉ xs.map Prod.fst := by
    intro a ha hxs
    exact hthis.chain.live a hxs ((hreplaces.fresh a ha).resolve_left List.not_mem_nil)
  refine ⟨rhs, m', nodes', ?_, hrhs.of_replaces hreplaces' hapart, helems,
    hreplaces.exchange hreplaces'⟩
  unfold assign
  rw [hcopy, Option.bind_eq_bind, Option.bind_some]
  dsimp only [swap]
  rw [hdestroy]
  rfl

/-! ### `get_nth_to_last` -/

theorem openWindow_spec {n : ℕ} (h : Chain m p nodes) (hne : nodes ≠ []) :
    ∃ p2, openWindow m n p = some p2 ∧ (p2 = none ↔ nodes.length ≤ n) ∧
      (p2 ≠ none → Chain m p2 (nodes.drop n)) := by
  induction n generalizing p nodes with
  | zero =>
    refine ⟨p, rfl, ?_, fun _ => h⟩
    rw [h.eq_none_iff, Nat.le_zero, List.length_eq_zero_iff]
  | succ n ih =>
    cases nodes with
    | nil => exact absurd rfl hne
    | cons node nodes =>
      obtain ⟨a, x⟩ := node
      obtain ⟨rfl, next, hnode, hrest⟩ := h
      unfold openWindow
      rw [Memory.deref_some hnode, Option.bind_eq_bind, Option.bind_some]
      by_cases hnext : next = none
      · rw [if_pos hnext]
        have hnil := (Chain.eq_none_iff hrest).mp hnext
        exact ⟨none, rfl, iff_of_true rfl (by simp [hnil]), fun hcon => absurd rfl hcon⟩
      · rw [if_neg hnext]
        obtain ⟨p2, hrun, hnone, hchain⟩ := ih hrest (hnext ∘ (Chain.eq_none_iff hrest).mpr)
        refine ⟨p2, hrun, ?_, hchain⟩
        rw [hnone, List.length_cons, Nat.succ_le_succ_iff]

theorem slide_spec {p1 p2 : Option ℕ} {fuel : ℕ} (h2 : Chain m p2 ys) (hne : ys ≠ [])
    (h1 : Chain m p1 xs) (hle : ys.length ≤ xs.length) (hfuel : ys.length ≤ fuel + 1) :
    ∃ p, slide m fuel p2 p1 = some p ∧ Chain m p (xs.drop (ys.length - 1)) := by
  induction ys generalizing p1 p2 xs fuel with
  | nil => exact absurd rfl hne
  | cons node ys ih =>
    obtain ⟨a, x⟩ := node
    obtain ⟨rfl, next, hnode, hrest⟩ := h2
    have hnext : next = none ↔ ys = [] := Chain.eq_none_iff hrest
    unfold slide
    rw [Memory.deref_some hnode, Option.bind_eq_bind, Option.bind_some]
    by_cases hlast : next = none
    · rw [if_pos hlast, hnext.mp hlast]
      exact ⟨p1, rfl, h1⟩
    · rw [if_neg hlast]
      have hpos := List.length_pos_iff.mpr (hlast ∘ hnext.mpr)
      rw [List.length_cons] at hle hfuel ⊢
      cases xs with
      | nil => exact absurd hle (Nat.not_succ_le_zero _)
      | cons node' xs =>
        obtain ⟨b, y⟩ := node'
        obtain ⟨rfl, next', hnode', hrest'⟩ := h1
        cases fuel with
        | zero => omega
        | succ fuel =>
          obtain ⟨p, hrun, hchain⟩ := ih hrest (hlast ∘ hnext.mpr) hrest'
            (Nat.succ_le_succ_iff.mp hle) (Nat.succ_le_succ_iff.mp hfuel)
          refine ⟨p, ?_, ?_⟩
          · dsimp only
            rw [Memory.deref_some hnode']
            exact hrun
          · rwa [Nat.add_sub_cancel, ← Nat.sub_add_cancel hpos, List.drop_succ_cons]

def pushAll (elems : List T) (l : OwnForwardList) (m : Nodes T) :
    Option (OwnForwardList × Nodes T) :=
  elems.foldlM (fun (l, m) elem => l.pushBack elem m) (l, m)

theorem pushAll_spec (elems : List T) (m : Nodes T) :
    ∃ l m' nodes, pushAll elems create m = some (l, m') ∧ l.Represents m' nodes ∧
      nodes.map Prod.snd = elems := by
  obtain ⟨⟨l, m'⟩, hrun, nodes, hl, helems⟩ := foldlM_prefix
    (P := fun t (st : OwnForwardList × Nodes T) =>
      ∃ nodes, st.1.Represents st.2 nodes ∧ nodes.map Prod.snd = t)
    (f := fun (l, m) elem => l.pushBack elem m) elems (by
      rintro t elem ⟨l, m⟩ - ⟨nodes, hl, rfl⟩
      obtain ⟨l', m', a, hpush, hl', -⟩ := pushBack_spec hl elem
      exact ⟨_, hpush, nodes ++ [(a, elem)], hl', List.map_append⟩)
    (create, m) ⟨[], create_represents m, rfl⟩
  exact ⟨l, m', nodes, hrun, hl, helems⟩

/-- With fewer than `nth` nodes the result is a null pointer, and otherwise the node at
`size - nth`. -/
theorem getNthToLast_spec {fuel : ℕ} {nth : ℤ} (h : l.Represents m nodes) (hnth : 2 ≤ nth)
    (hfuel : nodes.length ≤ fuel) :
    ∃ p, l.getNthToLast fuel nth m = some p ∧ (p = none ↔ (nodes.length : ℤ) < nth) ∧
      (nth ≤ nodes.length → ∃ a x, p = some a ∧
        nodes[nodes.length - nth.toNat]? = some (a, x)) := by
  unfold getNthToLast
  rw [if_neg (by omega)]
  by_cases hhead : l.head = none
  · have hnil := h.head_eq_none_iff.mp hhead
    rw [if_pos hhead, hnil, List.length_nil]
    exact ⟨none, rfl, iff_of_true rfl (by omega), by omega⟩
  · obtain ⟨p2, hopen, hnone, hchain⟩ := openWindow_spec (n := (nth - 1).toNat) h.chain
      (hhead ∘ h.head_eq_none_iff.mpr)
    rw [if_neg hhead, hopen, Option.bind_eq_bind, Option.bind_some]
    by_cases hp2 : p2 = none
    · rw [if_pos hp2]
      have hlength := hnone.mp hp2
      exact ⟨none, rfl, iff_of_true rfl (by omega), by omega⟩
    · rw [if_neg hp2]
      have hlt : (nth - 1).toNat < nodes.length := Nat.lt_of_not_le (hp2 ∘ hnone.mpr)
      have hdrop := List.length_drop (i := (nth - 1).toNat) (l := nodes)
      have hle : (nodes.drop (nth - 1).toNat).length ≤ fuel + 1 := by omega
      obtain ⟨p, hrun, hp⟩ := slide_spec (hchain hp2) (List.ne_nil_of_length_pos (by omega)) h.chain
        (by omega) hle
      have hindex : (nodes.drop (nth - 1).toNat).length - 1 = nodes.length - nth.toNat := by omega
      have hfound : nodes[nodes.length - nth.toNat]? =
          (nodes.drop (nodes.length - nth.toNat)).head? := List.head?_drop.symm
      rw [hindex] at hp
      cases hrest : nodes.drop (nodes.length - nth.toNat) with
      | nil =>
        rw [List.drop_eq_nil_iff] at hrest
        omega
      | cons node rest =>
        obtain ⟨a, x⟩ := node
        rw [hrest] at hp hfound
        obtain ⟨rfl, -⟩ := hp
        exact ⟨some a, hrun, iff_of_false (Option.some_ne_none a) (by omega),
          fun _ => ⟨a, x, rfl, hfound⟩⟩

/-- For every list built by `push_back` and every `nth` from 2 on. -/
theorem pushAll_getNthToLast (elems : List T) (m : Nodes T) (nth : ℤ) (hnth : 2 ≤ nth) (fuel : ℕ)
    (hfuel : elems.length ≤ fuel) :
    ∃ l m' nodes p, pushAll elems create m = some (l, m') ∧ l.Represents m' nodes ∧
      nodes.map Prod.snd = elems ∧ l.getNthToLast fuel nth m' = some p ∧
      (p = none ↔ (elems.length : ℤ) < nth) ∧
      (nth ≤ elems.length → ∃ a x, p = some a ∧
        nodes[elems.length - nth.toNat]? = some (a, x)) := by
  obtain ⟨l, m', nodes, hrun, hl, rfl⟩ := pushAll_spec elems m
  rw [List.length_map] at hfuel ⊢
  obtain ⟨p, hget, hnone, hsome⟩ := getNthToLast_spec hl hnth hfuel
  exact ⟨l, m', nodes, p, hrun, hl, rfl, hget, hnone, hsome⟩

theorem pushAll_getNthToLast_two : ∃ l m' nodes p,
    pushAll [9, 10, 11, 13, 14] create .empty = some (l, m') ∧ l.Represents m' nodes ∧
      nodes.map Prod.snd = [9, 10, 11, 13, 14] ∧ l.getNthToLast 5 2 m' = some p ∧
      (p = none ↔ (([9, 10, 11, 13, 14] : List ℕ).length : ℤ) < 2) ∧
      ((2 : ℤ) ≤ ([9, 10, 11, 13, 14] : List ℕ).length → ∃ a x, p = some a ∧
        nodes[([9, 10, 11, 13, 14] : List ℕ).length - (2 : ℤ).toNat]? = some (a, x)) :=
  pushAll_getNthToLast [9, 10, 11, 13, 14] .empty 2 (by decide) 5 (by decide)

end OwnForwardList
end CppTricks.Crack
