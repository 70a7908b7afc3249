import CppTricks.Foundation.Runs
import Mathlib.Data.List.Nodup
import Mathlib.Data.List.Range
import Mathlib.Order.Bounds.Basic

/-! `RecyclableQueue`: two lists over one pool that pass their nodes to each other. -/
namespace CppTricks.Queue
open Foundation

/-- A node is its address in `pool_` and its payload. The pool numbers the nodes it hands out, and
takes none back before it is destroyed: each of the `allocated` nodes is in exactly one list. -/
structure RecyclableQueue (T : Type) where
  list : List (ℕ × T)
  reusableList : List (ℕ × T)
  allocated : ℕ
  addresses : ((list ++ reusableList).map Prod.fst).Perm (List.range allocated)

namespace RecyclableQueue

variable {T : Type}

def create : RecyclableQueue T := ⟨[], [], 0, .nil⟩

def push (s : RecyclableQueue T) (data : T) : RecyclableQueue T :=
  match h : s.reusableList with
  | [] =>
    { list := s.list ++ [(s.allocated, data)]
      reusableList := []
      allocated := s.allocated + 1
      addresses := by
        have haddr := s.addresses
        rw [h, List.append_nil] at haddr
        rw [List.append_nil, List.map_append, List.range_succ]
        exact haddr.append_right _ }
  | (it, _) :: rest =>
    { list := s.list ++ [(it, data)]
      reusableList := rest
      allocated := s.allocated
      addresses := by
        have haddr := s.addresses
        rw [h] at haddr
        simpa using haddr }

def isEmpty (s : RecyclableQueue T) : Bool := s.list.isEmpty

/-- `Pop()`, with what a move leaves in the object moved from; `none` on an empty `list_`. -/
def pop (moved : T → T) (s : RecyclableQueue T) : Option (T × RecyclableQueue T) :=
  match h : s.list with
  | [] => none
  | (it, data) :: rest =>
    some (data,
      { list := rest
        reusableList := s.reusableList ++ [(it, moved data)]
        allocated := s.allocated
        addresses := by
          have haddr := s.addresses
          rw [h] at haddr
          refine List.Perm.trans ?_ haddr
          rw [← List.append_assoc, List.map_append, List.cons_append, List.map_cons]
          exact List.perm_append_singleton _ _ })

inductive Call (T : Type)
  | push (data : T)
  | pop

/-- A sequence of calls answers with the values popped. -/
def call (moved : T → T) (s : RecyclableQueue T) : Call T → Option (Option T × RecyclableQueue T)
  | .push data => some (none, s.push data)
  | .pop => do
    let (data, s) ← s.pop moved
    return (some data, s)

/-- The unbounded FIFO, which only serves `pop` when it holds an element. -/
def fifo (q : List T) : Call T → Option (Option T × List T)
  | .push data => some (none, q ++ [data])
  | .pop =>
    match q with
    | [] => none
    | data :: rest => some (some data, rest)

def queued (s : RecyclableQueue T) : List T := s.list.map Prod.snd

variable {moved : T → T} {s : RecyclableQueue T}

theorem size_eq (s : RecyclableQueue T) : s.list.length + s.reusableList.length = s.allocated := by
  simpa using s.addresses.length_eq

theorem disjoint (s : RecyclableQueue T) :
    (s.list.map Prod.fst).Disjoint (s.reusableList.map Prod.fst) := by
  have hnodup := s.addresses.nodup_iff.mpr List.nodup_range
  rw [List.map_append] at hnodup
  exact hnodup.disjoint

@[simp] theorem queued_push (s : RecyclableQueue T) (data : T) :
    (s.push data).queued = s.queued ++ [data] := by
  unfold push
  split <;> simp [queued]

theorem allocated_push_of_ne_nil (hne : s.reusableList ≠ []) (data : T) :
    (s.push data).allocated = s.allocated := by
  unfold push
  split
  · contradiction
  · rfl

/-- A node is allocated only for an element more than there ever were. -/
theorem allocated_push (s : RecyclableQueue T) (data : T) :
    (s.push data).allocated = max s.allocated (s.push data).queued.length := by
  have hsize := s.size_eq
  rw [queued_push, List.length_append, List.length_singleton, queued, List.length_map]
  unfold push
  split
  · rename_i hnil
    rw [hnil, List.length_nil] at hsize
    simp only
    omega
  · rename_i hcons
    rw [hcons, List.length_cons] at hsize
    simp only
    omega

theorem pop_of_cons (moved : T → T) {data : T} {rest : List T} (h : s.queued = data :: rest) :
    ∃ s', s.pop moved = some (data, s') ∧ s'.queued = rest ∧ s'.allocated = s.allocated := by
  unfold queued at h
  unfold pop
  split
  · simp_all
  · rename_i it data' rest' hlist
    rw [hlist, List.map_cons] at h
    obtain ⟨rfl, rfl⟩ := List.cons.inj h
    exact ⟨_, rfl, rfl, rfl⟩

theorem length_queued_le (s : RecyclableQueue T) : s.queued.length ≤ s.allocated := by
  rw [queued, List.length_map, ← s.size_eq]
  exact Nat.le_add_right _ _

theorem isEmpty_iff : s.isEmpty = true ↔ s.queued = [] := by
  unfold isEmpty queued
  rw [List.isEmpty_iff, List.map_eq_nil_iff]

/-- Each call the FIFO serves is served alike, and allocates only beyond the longest queue. -/
theorem call_of_fifo (moved : T → T) {c : Call T} {r : Option T} {q : List T}
    (h : fifo s.queued c = some (r, q)) :
    ∃ s', s.call moved c = some (r, s') ∧ s'.queued = q ∧
      s'.allocated = max s.allocated q.length := by
  unfold fifo at h
  cases c with
  | push data =>
    obtain ⟨rfl, rfl⟩ := Prod.mk.inj (Option.some.inj h)
    refine ⟨s.push data, rfl, queued_push s data, ?_⟩
    rw [allocated_push, queued_push]
  | pop =>
    cases hq : s.queued with
    | nil => simp [hq] at h
    | cons data rest =>
      obtain ⟨rfl, rfl⟩ : some data = r ∧ rest = q := by simpa [hq] using h
      obtain ⟨s', hpop, hqueued, hallocated⟩ := pop_of_cons moved hq
      have hlen := s.length_queued_le
      rw [hq, List.length_cons] at hlen
      refine ⟨s', by simp [call, hpop], hqueued, ?_⟩
      rw [hallocated, max_eq_left (Nat.le_of_succ_le hlen)]

theorem serve_of_fifo (moved : T → T) (calls : List (Call T)) {answers : List (Option T)}
    {q : List T} (hfifo : serve fifo [] calls = some (answers, q)) :
    ∃ s, serve (call moved) create calls = some (answers, s) ∧ s.queued = q ∧
      Peak fifo [] calls List.length s.allocated := by
  induction calls using List.reverseRecOn generalizing answers q with
  | nil =>
    obtain ⟨rfl, rfl⟩ : [] = answers ∧ [] = q := by simpa using hfifo
    exact ⟨create, rfl, rfl, peak_nil _ _⟩
  | append_singleton calls c ih =>
    obtain ⟨answers', r, q', rfl, hserve, hcall⟩ := serve_concat hfifo
    obtain ⟨s, hs, rfl, hpeak⟩ := ih hserve
    obtain ⟨s', hs', hqueued, hallocated⟩ := call_of_fifo moved hcall
    have hpeak' := hpeak.concat hfifo
    rw [← hallocated] at hpeak'
    exact ⟨s', serve_append_singleton hs hs', hqueued, hpeak'⟩

/-- `RecyclableQueue` is an unbounded FIFO that has as many nodes as it ever had elements. -/
theorem refines_unbounded_fifo (moved : T → T) (calls : List (Call T)) (answers : List (Option T))
    (q : List T) (hfifo : serve fifo [] calls = some (answers, q)) :
    ∃ s, serve (call moved) create calls = some (answers, s) ∧ s.queued = q ∧
      (s.isEmpty = true ↔ q = []) ∧
      (s.list.map Prod.fst).Disjoint (s.reusableList.map Prod.fst) ∧
      Peak fifo [] calls List.length (s.list.length + s.reusableList.length) ∧
      (s.reusableList ≠ [] → ∀ data, (s.push data).allocated = s.allocated) := by
  obtain ⟨s, hserve, rfl, hpeak⟩ := serve_of_fifo moved calls hfifo
  rw [← s.size_eq] at hpeak
  exact ⟨s, hserve, rfl, isEmpty_iff, s.disjoint, hpeak, allocated_push_of_ne_nil⟩

private def creation : List (Call ℕ) :=
  [.push 1, .push 2, .pop, .push 3, .pop, .push 4, .push 5, .pop, .push 6]

theorem refines_unbounded_fifo_creation :
    ∃ s, serve (call id) create creation =
        some ([none, none, some 1, none, some 2, none, none, some 3, none], s) ∧
      s.queued = [4, 5, 6] ∧
      Peak fifo [] creation List.length (s.list.length + s.reusableList.length) := by
  obtain ⟨s, hserve, hqueued, -, -, hpeak, -⟩ := refines_unbounded_fifo id creation _ _ rfl
  exact ⟨s, hserve, hqueued, hpeak⟩

end RecyclableQueue

end CppTricks.Queue
