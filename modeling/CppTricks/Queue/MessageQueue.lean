import CppTricks.Foundation.Fifo
import CppTricks.Foundation.Runs
import Mathlib.Data.Finset.Card

/-! `message_queue`: a blocking queue over one mutex and one condition variable. -/
namespace CppTricks.Queue
open Foundation

/-- The queue and the consumers inside `dequeue`: `parked` in `c.wait`, or `woken` and waiting to
re-acquire `m`. The values put in and handed out are kept for the record. -/
structure MessageQueue (Consumer T : Type) where
  q : List T
  parked : Finset Consumer
  woken : Finset Consumer
  enqueued : List T
  dequeued : List T

inductive MessageQueueAction (Consumer T : Type)
  /-- `enqueue(t)`, with the parked consumer that `notify_one` chooses, if any is parked. -/
  | enqueue (t : T) (chosen : Option Consumer)
  /-- A consumer calls `dequeue` and acquires `m`, before or after those that were woken. -/
  | dequeue (consumer : Consumer)
  /-- A woken consumer re-acquires `m` inside `c.wait`. -/
  | reacquire (consumer : Consumer)
  /-- A parked consumer wakes up although nobody notified it. -/
  | spurious (consumer : Consumer)

namespace MessageQueue

variable {Consumer T : Type}

def create : MessageQueue Consumer T := ⟨[], ∅, ∅, [], []⟩

variable [DecidableEq Consumer]

/-- `c.notify_one()`; `none` when the choice is not one that it can make. -/
def notifyOne (s : MessageQueue Consumer T) : Option Consumer → Option (MessageQueue Consumer T)
  | none => if s.parked = ∅ then some s else none
  | some consumer =>
    if consumer ∈ s.parked then
      some { s with parked := s.parked.erase consumer, woken := insert consumer s.woken }
    else none

/-- The loop of `dequeue` from its test on, by a consumer that holds `m`. -/
def take (s : MessageQueue Consumer T) (consumer : Consumer) : MessageQueue Consumer T :=
  match s.q with
  | [] => { s with parked := insert consumer s.parked }
  | val :: rest => { s with q := rest, dequeued := s.dequeued ++ [val] }

def step (s : MessageQueue Consumer T) :
    MessageQueueAction Consumer T → Option (MessageQueue Consumer T)
  | .enqueue t chosen =>
    notifyOne { s with q := s.q ++ [t], enqueued := s.enqueued ++ [t] } chosen
  | .dequeue consumer =>
    if consumer ∈ s.parked ∪ s.woken then none else some (s.take consumer)
  | .reacquire consumer =>
    if consumer ∈ s.woken then
      some (take { s with woken := s.woken.erase consumer } consumer)
    else none
  | .spurious consumer =>
    if consumer ∈ s.parked then
      some { s with parked := s.parked.erase consumer, woken := insert consumer s.woken }
    else none

/-- While a consumer is parked, every element in `q` has a woken consumer of its own to take it. -/
structure Invariant (s : MessageQueue Consumer T) : Prop where
  balanced : Fifo.Balanced s.enqueued s.dequeued s.q
  disjoint : Disjoint s.parked s.woken
  covered : s.parked.Nonempty → s.q.length ≤ s.woken.card

variable {s s' : MessageQueue Consumer T} {a : MessageQueueAction Consumer T} {consumer : Consumer}

omit [DecidableEq Consumer] in
theorem invariant_create : (create : MessageQueue Consumer T).Invariant :=
  ⟨.nil, Finset.disjoint_empty_left _, fun _ => Nat.zero_le _⟩

/-- A parked consumer that wakes up makes room for one more element. -/
private theorem wake (hdisjoint : Disjoint s.parked s.woken) (hmem : consumer ∈ s.parked) :
    Disjoint (s.parked.erase consumer) (insert consumer s.woken) ∧
      (insert consumer s.woken).card = s.woken.card + 1 := by
  have hnot : consumer ∉ s.woken := Finset.disjoint_left.mp hdisjoint hmem
  constructor
  · rw [Finset.disjoint_insert_right]
    exact ⟨Finset.notMem_erase _ _, hdisjoint.mono_left (Finset.erase_subset _ _)⟩
  · exact Finset.card_insert_of_notMem hnot

/-- One element may be uncovered when a consumer outside `woken` is about to take it. -/
private theorem invariant_take (hbalanced : Fifo.Balanced s.enqueued s.dequeued s.q)
    (hdisjoint : Disjoint s.parked s.woken) (hnot : consumer ∉ s.woken)
    (hcovered : s.parked.Nonempty → s.q.length ≤ s.woken.card + 1) :
    (s.take consumer).Invariant := by
  unfold take
  cases hq : s.q with
  | nil =>
    constructor
    · simpa [hq] using hbalanced
    · simpa using ⟨hnot, hdisjoint⟩
    · simp
  | cons val rest =>
    rw [hq] at hbalanced
    constructor
    · exact hbalanced.leave
    · exact hdisjoint
    · intro hne
      have hle := hcovered hne
      rw [hq, List.length_cons] at hle
      exact Nat.le_of_succ_le_succ hle

private theorem invariant_enqueue (h : s.Invariant) {t : T} {chosen : Option Consumer}
    (hstep : s.step (.enqueue t chosen) = some s') : s'.Invariant := by
  have hbalanced := h.balanced.enter t
  unfold step notifyOne at hstep
  cases chosen with
  | none =>
    by_cases hempty : s.parked = ∅
    · obtain rfl := by simpa [hempty] using hstep
      exact ⟨hbalanced, by simp, by simp⟩
    · simp [hempty] at hstep
  | some consumer =>
    by_cases hmem : consumer ∈ s.parked
    · obtain rfl := by simpa [hmem] using hstep
      obtain ⟨hdisjoint, hcard⟩ := wake h.disjoint hmem
      refine ⟨hbalanced, hdisjoint, ?_⟩
      intro _
      simp only [List.length_append, List.length_singleton, hcard]
      exact Nat.succ_le_succ (h.covered ⟨consumer, hmem⟩)
    · simp [hmem] at hstep

theorem Invariant.step (h : s.Invariant) (hstep : s.step a = some s') : s'.Invariant := by
  cases a with
  | enqueue t chosen => exact invariant_enqueue h hstep
  | dequeue consumer =>
    unfold MessageQueue.step at hstep
    by_cases hmem : consumer ∈ s.parked ∪ s.woken
    · simp [hmem] at hstep
    · obtain rfl : s.take consumer = s' := by simpa [hmem] using hstep
      rw [Finset.mem_union, not_or] at hmem
      apply invariant_take h.balanced h.disjoint hmem.2
      intro hne
      exact Nat.le_succ_of_le (h.covered hne)
  | reacquire consumer =>
    unfold MessageQueue.step at hstep
    by_cases hmem : consumer ∈ s.woken
    · obtain rfl := by simpa [hmem] using hstep
      have hdisjoint := h.disjoint.mono_right (Finset.erase_subset consumer s.woken)
      have hnot := Finset.notMem_erase consumer s.woken
      apply invariant_take (s := { s with woken := s.woken.erase consumer }) h.balanced hdisjoint
        hnot
      intro hne
      rw [Finset.card_erase_add_one hmem]
      exact h.covered hne
    · simp [hmem] at hstep
  | spurious consumer =>
    unfold MessageQueue.step at hstep
    by_cases hmem : consumer ∈ s.parked
    · obtain rfl := by simpa [hmem] using hstep
      obtain ⟨hdisjoint, hcard⟩ := wake h.disjoint hmem
      refine ⟨h.balanced, hdisjoint, ?_⟩
      intro _
      rw [hcard]
      exact Nat.le_succ_of_le (h.covered ⟨consumer, hmem⟩)
    · simp [hmem] at hstep

/-- No wake-up is lost, whatever the consumers and producers do. -/
theorem no_lost_wakeup (as : List (MessageQueueAction Consumer T)) (s : MessageQueue Consumer T)
    (hrun : run step create as = some s) :
    (s.parked.Nonempty → s.q.length ≤ s.woken.card) ∧
      ¬(s.q ≠ [] ∧ s.parked.Nonempty ∧ s.woken = ∅) ∧ s.dequeued <+: s.enqueued := by
  have h := run_invariant (P := Invariant) (fun _ _ _ hs => hs.step) as invariant_create hrun
  refine ⟨h.covered, ?_, h.balanced.isPrefix⟩
  intro hstuck
  obtain ⟨hq, hparked, hwoken⟩ := hstuck
  have hle := h.covered hparked
  rw [hwoken, Finset.card_empty, Nat.le_zero, List.length_eq_zero_iff] at hle
  exact hq hle

/-- Consumer 0 is parked when the producer comes, and consumer 1 overtakes it. -/
private def overtaking : List (MessageQueueAction ℕ ℕ) :=
  [.dequeue 0, .enqueue 7 (some 0), .dequeue 1, .reacquire 0]

theorem no_lost_wakeup_overtaking :
    ∃ s, run step create overtaking = some s ∧ s.parked = {0} ∧ s.dequeued = [7] ∧
      s.q.length ≤ s.woken.card := by
  refine ⟨_, rfl, by decide, rfl, ?_⟩
  exact (no_lost_wakeup overtaking _ rfl).1 (by decide)

end MessageQueue

end CppTricks.Queue
