import Mathlib.Data.Finmap
import Mathlib.Data.Finset.Card
import Mathlib.Logic.Function.Basic
import Mathlib.Tactic.Tauto

/-! Doubly linked lists with stable node addresses: an iterator is the address of a node, and an
operation on an iterator that is no longer in the list is `none`. -/
namespace Foundation

/-- The nodes in list order, each an address and a value; `fresh` is the next address. -/
structure NodeList (α : Type*) where
  nodes : List (ℕ × α)
  fresh : ℕ
  nodup_addresses : (nodes.map Prod.fst).Nodup
  lt_fresh : ∀ it ∈ nodes.map Prod.fst, it < fresh

namespace NodeList

variable {α : Type*}

def empty : NodeList α := ⟨[], 0, List.nodup_nil, by simp⟩

def toList (l : NodeList α) : List α := l.nodes.map Prod.snd

def size (l : NodeList α) : ℕ := l.nodes.length

def get? (l : NodeList α) (it : ℕ) : Option α :=
  (l.nodes.find? (fun node => node.1 = it)).map Prod.snd

/-- `list.begin()`, where `none` is `list.end()`. -/
def begin? (l : NodeList α) : Option ℕ := l.nodes.head?.map Prod.fst

/-- The iterator after `it`, where `none` is `list.end()`. -/
def next? (l : NodeList α) (it : ℕ) : Option ℕ :=
  (l.nodes.dropWhile fun node => node.1 ≠ it).tail.head?.map Prod.fst

def front? (l : NodeList α) : Option α := l.nodes.head?.map Prod.snd

def insertEnd (l : NodeList α) (v : α) : ℕ × NodeList α :=
  (l.fresh,
    { nodes := l.nodes ++ [(l.fresh, v)]
      fresh := l.fresh + 1
      nodup_addresses := by
        rw [List.map_append, List.nodup_append]
        refine ⟨l.nodup_addresses, by simp, fun a ha b hb => ?_⟩
        obtain rfl : b = l.fresh := by simpa using hb
        exact Nat.ne_of_lt (l.lt_fresh a ha)
      lt_fresh := fun it hit => by
        rw [List.map_append, List.mem_append] at hit
        rcases hit with hold | hnew
        · exact Nat.lt_succ_of_lt (l.lt_fresh it hold)
        · obtain rfl : it = l.fresh := by simpa using hnew
          exact Nat.lt_succ_self _ })

def restrict (l : NodeList α) (nodes : List (ℕ × α)) (h : nodes.Sublist l.nodes) :
    NodeList α :=
  { nodes := nodes
    fresh := l.fresh
    nodup_addresses := l.nodup_addresses.sublist (h.map _)
    lt_fresh := fun it hit => l.lt_fresh it ((h.map _).subset hit) }

def popFront? (l : NodeList α) : Option (NodeList α) :=
  match l.front? with
  | none => none
  | some _ => some (l.restrict l.nodes.tail (List.tail_sublist _))

/-- `list.pop_back()`, on a list that is not empty. -/
def popBack (l : NodeList α) : NodeList α := l.restrict l.nodes.dropLast (List.dropLast_sublist _)

def others (l : NodeList α) (it : ℕ) : List (ℕ × α) := l.nodes.filter fun node => node.1 ≠ it

def erase? (l : NodeList α) (it : ℕ) : Option (NodeList α) :=
  match l.get? it with
  | none => none
  | some _ => some (l.restrict (l.others it) List.filter_sublist)

def spliceEnd? (l : NodeList α) (it : ℕ) : Option (NodeList α) :=
  match h : l.get? it with
  | none => none
  | some v => some
    { nodes := l.others it ++ [(it, v)]
      fresh := l.fresh
      nodup_addresses := by
        rw [List.map_append, List.nodup_append]
        refine ⟨l.nodup_addresses.sublist (List.filter_sublist.map _), by simp, fun a ha b hb => ?_⟩
        obtain rfl : b = it := by simpa using hb
        obtain ⟨node, hnode, rfl⟩ := List.mem_map.mp ha
        simpa using (List.mem_filter.mp hnode).2
      lt_fresh := fun a ha => by
        rw [List.map_append, List.mem_append] at ha
        rcases ha with hold | hnew
        · exact l.lt_fresh a ((List.filter_sublist.map _).subset hold)
        · obtain rfl : a = it := by simpa using hnew
          unfold get? at h
          obtain ⟨node, hfind, -⟩ := Option.map_eq_some_iff.mp h
          have haddr : node.1 = a := by simpa using List.find?_some hfind
          exact haddr ▸ l.lt_fresh node.1 (List.mem_map_of_mem (List.mem_of_find?_eq_some hfind)) }

variable {l : NodeList α} {it : ℕ} {v : α}

@[simp] theorem length_toList (l : NodeList α) : l.toList.length = l.size := List.length_map _

@[simp] theorem toList_insertEnd (l : NodeList α) (v : α) :
    (l.insertEnd v).2.toList = l.toList ++ [v] := by
  simp [insertEnd, toList]

theorem nodes_popBack_insertEnd (l : NodeList α) (v : α) :
    (l.insertEnd v).2.popBack.nodes = l.nodes := List.dropLast_concat

theorem front?_eq_head? (l : NodeList α) : l.front? = l.toList.head? := List.head?_map.symm

theorem get?_eq_some : l.get? it = some v ↔ (it, v) ∈ l.nodes := by
  unfold get?
  constructor
  · intro h
    obtain ⟨node, hfind, rfl⟩ := Option.map_eq_some_iff.mp h
    have haddr : node.1 = it := by simpa using List.find?_some hfind
    exact haddr ▸ List.mem_of_find?_eq_some hfind
  · intro h
    have hnodup := l.nodup_addresses
    generalize l.nodes = nodes at h hnodup
    induction nodes with
    | nil => simp at h
    | cons node nodes ih =>
      rw [List.map_cons, List.nodup_cons] at hnodup
      rcases List.mem_cons.mp h with rfl | hmem
      · simp
      · have hne : node.1 ≠ it := fun he => hnodup.1 (he ▸ List.mem_map_of_mem hmem)
        rw [List.find?_cons_of_neg (by simpa using hne)]
        exact ih hmem hnodup.2

private theorem notMem_of_split {pre post : List (ℕ × α)}
    (hsplit : l.nodes = pre ++ (it, v) :: post) :
    it ∉ pre.map Prod.fst ∧ it ∉ post.map Prod.fst := by
  have hnodup := l.nodup_addresses
  rw [hsplit, List.map_append, List.map_cons, List.nodup_append] at hnodup
  obtain ⟨-, hpost, hdisj⟩ := hnodup
  exact ⟨fun hmem => hdisj it hmem it (by simp) rfl, (List.nodup_cons.mp hpost).1⟩

theorem get?_of_split {pre post : List (ℕ × α)} (hsplit : l.nodes = pre ++ (it, v) :: post) :
    l.get? it = some v := by
  rw [get?_eq_some, hsplit]
  exact List.mem_append_right pre List.mem_cons_self

theorem next?_of_split {pre post : List (ℕ × α)} (hsplit : l.nodes = pre ++ (it, v) :: post) :
    l.next? it = post.head?.map Prod.fst := by
  have hpre : ∀ node ∈ pre, decide (node.1 ≠ it) = true := by
    intro node hnode
    apply decide_eq_true
    intro heq
    exact (notMem_of_split hsplit).1 (heq ▸ List.mem_map_of_mem hnode)
  unfold next?
  rw [hsplit, List.dropWhile_append_of_pos hpre, List.dropWhile_cons_of_neg (by simp),
    List.tail_cons]

/-- The other nodes are the two halves around the node. -/
theorem others_of_split {pre post : List (ℕ × α)} (hsplit : l.nodes = pre ++ (it, v) :: post) :
    l.others it = pre ++ post := by
  have hkeep : ∀ half : List (ℕ × α), it ∉ half.map Prod.fst →
      half.filter (fun node => decide (node.1 ≠ it)) = half := by
    intro half hit
    apply List.filter_eq_self.mpr
    intro node hnode
    simpa using fun he : node.1 = it => hit (he ▸ List.mem_map_of_mem hnode)
  obtain ⟨hpre, hpost⟩ := notMem_of_split hsplit
  unfold others
  rw [hsplit, List.filter_append, List.filter_cons_of_neg (by simp), hkeep pre hpre,
    hkeep post hpost]

theorem erase?_of_split {pre post : List (ℕ × α)} (hsplit : l.nodes = pre ++ (it, v) :: post) :
    ∃ l', l.erase? it = some l' ∧ l'.nodes = pre ++ post := by
  refine ⟨l.restrict (l.others it) List.filter_sublist, ?_, others_of_split hsplit⟩
  unfold erase?
  rw [get?_of_split hsplit]

/-- A node splits the list; the other nodes are the two halves. -/
theorem split_of_mem (h : (it, v) ∈ l.nodes) :
    ∃ pre post, l.nodes = pre ++ (it, v) :: post ∧ l.others it = pre ++ post := by
  obtain ⟨pre, post, hsplit⟩ := List.append_of_mem h
  exact ⟨pre, post, hsplit, others_of_split hsplit⟩

/-- The table `at?` sends each value of the list to the address of its one node. -/
def IndexedBy (l : NodeList α) (at? : α → Option ℕ) : Prop :=
  ∀ v it, at? v = some it ↔ (it, v) ∈ l.nodes

namespace IndexedBy

variable {at? at' : α → Option ℕ}

theorem empty (h : ∀ v, at? v = none) : (NodeList.empty : NodeList α).IndexedBy at? := by
  intro v it
  simp [h v, NodeList.empty]

theorem congr (h : l.IndexedBy at?) (he : ∀ v, at' v = at? v) : l.IndexedBy at' := by
  intro v it
  rw [he, h v it]

theorem of_nodes {l' : NodeList α} (h : l.IndexedBy at?) (hnodes : l'.nodes = l.nodes) :
    l'.IndexedBy at? := by
  intro v it
  rw [hnodes, h v it]

theorem get? (h : l.IndexedBy at?) (hv : at? v = some it) : l.get? it = some v :=
  get?_eq_some.mpr ((h v it).mp hv)

theorem mem_toList_iff (h : l.IndexedBy at?) : v ∈ l.toList ↔ (at? v).isSome := by
  rw [Option.isSome_iff_exists, toList, List.mem_map]
  constructor
  · rintro ⟨node, hnode, rfl⟩
    exact ⟨node.1, (h _ _).mpr hnode⟩
  · rintro ⟨it, hit⟩
    exact ⟨(it, v), (h v it).mp hit, rfl⟩

theorem nodup_toList (h : l.IndexedBy at?) : l.toList.Nodup := by
  refine List.Nodup.map_on ?_ (List.Nodup.of_map _ l.nodup_addresses)
  rintro ⟨it, v⟩ hx ⟨it', v'⟩ hy (rfl : v = v')
  have hit := (h v it).mpr hx
  rw [(h v it').mpr hy] at hit
  rw [Option.some.inj hit]

theorem card_keys (h : l.IndexedBy at?) (keys : Finset α) (hkeys : ∀ v, v ∈ keys ↔ (at? v).isSome) :
    keys.card = l.size := by
  classical
  have he : keys = l.toList.toFinset := by
    ext v
    rw [hkeys, List.mem_toFinset, h.mem_toList_iff]
  rw [he, List.toFinset_card_of_nodup h.nodup_toList, length_toList]

variable [DecidableEq α]

theorem insertEnd (h : l.IndexedBy at?) (hv : at? v = none) :
    (l.insertEnd v).2.IndexedBy (Function.update at? v (some (l.insertEnd v).1)) := by
  intro w it
  simp only [NodeList.insertEnd, List.mem_append, List.mem_singleton, Prod.mk.injEq]
  by_cases hw : w = v
  · subst w
    have habsent : (it, v) ∉ l.nodes := fun hmem => by simp [(h v it).mpr hmem] at hv
    simp [habsent, eq_comm]
  · simp [hw, h w it]

private theorem update_none (h : l.IndexedBy at?) {pre post : List (ℕ × α)}
    (hsplit : l.nodes = pre ++ (it, v) :: post) (w : α) (jt : ℕ) :
    Function.update at? v none w = some jt ↔ (jt, w) ∈ pre ++ post := by
  have hnodup := h.nodup_toList
  unfold toList at hnodup
  rw [hsplit, List.map_append, List.map_cons, List.nodup_middle, List.nodup_cons,
    ← List.map_append] at hnodup
  by_cases hw : w = v
  · subst w
    have habsent : (jt, v) ∉ pre ++ post := fun hmem => hnodup.1 (List.mem_map.mpr ⟨_, hmem, rfl⟩)
    simpa using habsent
  · rw [Function.update_of_ne hw, h w jt, hsplit]
    simp [hw]

theorem erase? (h : l.IndexedBy at?) (hv : at? v = some it) :
    ∃ l', l.erase? it = some l' ∧ l'.IndexedBy (Function.update at? v none) ∧
      l'.toList = l.toList.erase v := by
  have hget := h.get? hv
  obtain ⟨pre, post, hsplit, hothers⟩ := split_of_mem ((h v it).mp hv)
  refine ⟨_, by rw [NodeList.erase?, hget], fun w jt => ?_, ?_⟩
  · change _ ↔ (jt, w) ∈ l.others it
    rw [hothers]
    exact h.update_none hsplit w jt
  · have hnodup := h.nodup_toList
    unfold toList at hnodup
    rw [hsplit, List.map_append, List.map_cons, List.nodup_append] at hnodup
    have hpre : v ∉ pre.map Prod.snd := fun hmem => hnodup.2.2 v hmem v (by simp) rfl
    change (l.others it).map Prod.snd = _
    rw [hothers, toList, hsplit, List.map_append, List.map_append, List.map_cons,
      List.erase_append_right _ hpre, List.erase_cons_head]

theorem spliceEnd? (h : l.IndexedBy at?) (hv : at? v = some it) :
    ∃ l', l.spliceEnd? it = some l' ∧ l'.IndexedBy at? ∧ l'.toList = l.toList.erase v ++ [v] := by
  have hget := h.get? hv
  obtain ⟨l', herase, -, hlist⟩ := h.erase? hv
  obtain ⟨pre, post, hsplit, hothers⟩ := split_of_mem ((h v it).mp hv)
  unfold NodeList.erase? at herase
  rw [hget] at herase
  obtain rfl := Option.some.inj herase
  unfold NodeList.spliceEnd?
  split
  · rename_i hnone
    rw [hget] at hnone
    cases hnone
  · rename_i u hu
    obtain rfl : v = u := by simpa [hget] using hu
    refine ⟨_, rfl, fun w jt => ?_, ?_⟩
    · change _ ↔ (jt, w) ∈ l.others it ++ [(it, v)]
      rw [hothers, h w jt, hsplit]
      simp only [List.mem_append, List.mem_cons, List.not_mem_nil, or_false]
      tauto
    · rw [toList, List.map_append, ← hlist]
      rfl

theorem popFront? (h : l.IndexedBy at?) (hv : l.front? = some v) :
    ∃ l', l.popFront? = some l' ∧ l'.IndexedBy (Function.update at? v none) ∧
      l'.toList = l.toList.tail := by
  refine ⟨_, by rw [NodeList.popFront?, hv], ?_, ?_⟩
  · obtain ⟨node, hhead, rfl⟩ := Option.map_eq_some_iff.mp hv
    obtain ⟨rest, hrest⟩ := List.head?_eq_some_iff.mp hhead
    intro w jt
    change _ ↔ (jt, w) ∈ l.nodes.tail
    rw [hrest]
    have hsplit : l.nodes = [] ++ (node.1, node.2) :: rest := hrest
    exact h.update_none hsplit w jt
  · exact List.map_tail

end IndexedBy
end NodeList

/-! ### A table kept in a finite map -/

section Finmap

variable {α β : Type*} [DecidableEq α]

theorem lookup_insert_eq_update (m : Finmap fun _ : α => β) (k : α) (b : β) (x : α) :
    (m.insert k b).lookup x = Function.update (fun y => m.lookup y) k (some b) x := by
  by_cases hx : x = k
  · subst x
    simp
  · rw [Finmap.lookup_insert_of_ne _ hx, Function.update_of_ne hx]

theorem lookup_erase_eq_update (m : Finmap fun _ : α => β) (k x : α) :
    (m.erase k).lookup x = Function.update (fun y => m.lookup y) k none x := by
  by_cases hx : x = k
  · subst x
    simp
  · rw [Finmap.lookup_erase_ne hx, Function.update_of_ne hx]

end Finmap
end Foundation
