import CppTricks.Foundation.Fifo
import CppTricks.Foundation.RingBuffer
import CppTricks.Foundation.Runs

/-! `OnQueue`: a queue in a buffer that is read and written around its end. -/
namespace CppTricks.Queue
open Foundation RingBuffer

structure OnQueue (T : Type) where
  buffer : List T
  rdPtr : ℕ
  wrPtr : ℕ
  canWr : Bool
  canRd : Bool

namespace OnQueue

variable {T : Type}

inductive Call (T : Type)
  | push (val : T)
  | pop (rVal : T)

inductive Answer (T : Type)
  | push (ok : Bool)
  | pop (ok : Bool) (rVal : T)

def create (buffer : List T) : OnQueue T := ⟨buffer, 0, 0, true, false⟩

def inc (s : OnQueue T) (val : ℕ) : ℕ := (val + 1) % s.buffer.length

/-- `push(val)`; `none` for a write outside `m_buffer`. -/
def push (s : OnQueue T) (val : T) : Option (Bool × OnQueue T) :=
  if !s.canWr then some (false, s)
  else if s.wrPtr < s.buffer.length then
    let s := { s with buffer := s.buffer.set s.wrPtr val }
    let s := { s with wrPtr := s.inc s.wrPtr }
    let s := { s with canRd := true }
    some (true, if s.rdPtr = s.wrPtr then { s with canWr := false } else s)
  else none

/-- `pop(r_val)`, with what is in `r_val` afterwards; `none` for a read outside `m_buffer`. -/
def pop (s : OnQueue T) (rVal : T) : Option (Bool × T × OnQueue T) :=
  if !s.canRd then some (false, rVal, s)
  else do
    let rVal ← s.buffer[s.rdPtr]?
    let s := { s with rdPtr := s.inc s.rdPtr }
    let s := { s with canWr := true }
    return (true, rVal, if s.rdPtr = s.wrPtr then { s with canRd := false } else s)

def call (s : OnQueue T) : Call T → Option (Answer T × OnQueue T)
  | .push val => do
    let (ok, s) ← s.push val
    return (.push ok, s)
  | .pop rVal => do
    let (ok, rVal, s) ← s.pop rVal
    return (.pop ok rVal, s)

def fifo (c : ℕ) (q : List T) : Call T → Option (Answer T × List T)
  | .push val =>
    let (ok, q) := Fifo.enqueue c q val
    some (.push ok, q)
  | .pop rVal =>
    let (ok, rVal, q) := Fifo.dequeue q rVal
    some (.pop ok rVal, q)

/-- The object stands for the queue `q` of capacity `c`. -/
structure Abstracts (c : ℕ) (s : OnQueue T) (q : List T) : Prop where
  size : s.buffer.length = c
  rdPtr_lt : s.rdPtr < c
  wrPtr_eq : s.wrPtr = (s.rdPtr + q.length) % c
  holds : Holds s.buffer s.rdPtr q
  canRd_iff : s.canRd = false ↔ q = []
  canWr_iff : s.canWr = false ↔ q.length = c

variable {c : ℕ} {s : OnQueue T} {q : List T}

theorem abstracts_create {buffer : List T} (hc : 1 ≤ c) (hsize : buffer.length = c) :
    Abstracts c (create buffer) [] where
  size := hsize
  rdPtr_lt := hc
  wrPtr_eq := by simp [create]
  holds := holds_nil _ _
  canRd_iff := by simp [create]
  canWr_iff := by simp [create]; omega

namespace Abstracts

theorem wrPtr_lt (h : Abstracts c s q) : s.wrPtr < c := by
  rw [h.wrPtr_eq]
  exact Nat.mod_lt _ (Nat.zero_lt_of_lt h.rdPtr_lt)

theorem length_le (h : Abstracts c s q) : q.length ≤ c := h.size ▸ h.holds.length_le

theorem inc_wrPtr (h : Abstracts c s q) : s.inc s.wrPtr = (s.rdPtr + (q.length + 1)) % c := by
  unfold inc
  rw [h.size, h.wrPtr_eq, Nat.mod_add_mod, Nat.add_assoc]

theorem push_full (h : Abstracts c s q) (hfull : q.length = c) (val : T) :
    s.push val = some (false, s) := by
  unfold OnQueue.push
  rw [h.canWr_iff.mpr hfull]
  rfl

theorem push_room (h : Abstracts c s q) (hroom : q.length < c) (val : T) :
    ∃ s', s.push val = some (true, s') ∧ Abstracts c s' (q ++ [val]) := by
  have hwr : s.canWr = true := by simpa using mt h.canWr_iff.mp (Nat.ne_of_lt hroom)
  have hin : s.wrPtr < s.buffer.length := h.size ▸ h.wrPtr_lt
  have hholds := h.holds.write (h.size ▸ hroom) val
  rw [h.size, ← h.wrPtr_eq] at hholds
  have hinc : (s.wrPtr + 1) % s.buffer.length = (s.rdPtr + (q.length + 1)) % c := h.inc_wrPtr
  have hptr : s.rdPtr = (s.rdPtr + (q.length + 1)) % c ↔ q.length + 1 = c := by
    rw [eq_comm, slot_eq_start_iff h.rdPtr_lt hroom]
    simp
  unfold OnQueue.push
  simp only [hwr, Bool.not_true, Bool.false_eq_true, if_false, hin, if_true, inc, List.length_set,
    hinc]
  refine ⟨_, rfl, ?_⟩
  by_cases hfull : q.length + 1 = c
  · rw [if_pos (hptr.mpr hfull)]
    exact ⟨by simpa using h.size, h.rdPtr_lt, by simp, hholds, by simp, by simpa using hfull⟩
  · rw [if_neg (mt hptr.mp hfull)]
    exact ⟨by simpa using h.size, h.rdPtr_lt, by simp, hholds, by simp, by simpa [hwr] using hfull⟩

theorem pop_nil (h : Abstracts c s []) (rVal : T) : s.pop rVal = some (false, rVal, s) := by
  unfold OnQueue.pop
  rw [h.canRd_iff.mpr rfl]
  rfl

theorem pop_cons {x : T} (h : Abstracts c s (x :: q)) (rVal : T) :
    ∃ s', s.pop rVal = some (true, x, s') ∧ Abstracts c s' q := by
  have hrd : s.canRd = true := by simpa using mt h.canRd_iff.mp (List.cons_ne_nil x q)
  have hfront := h.holds.front
  rw [h.size, Nat.mod_eq_of_lt h.rdPtr_lt] at hfront
  have htail := h.holds.tail
  have hlt : (s.rdPtr + 1) % c < c := Nat.mod_lt _ (Nat.zero_lt_of_lt h.rdPtr_lt)
  have hlen : q.length < c := h.length_le
  have hwr : s.wrPtr = ((s.rdPtr + 1) % c + q.length) % c := by
    rw [h.wrPtr_eq, List.length_cons, Nat.mod_add_mod, Nat.add_assoc, Nat.add_comm 1]
  have hptr : (s.rdPtr + 1) % c = s.wrPtr ↔ q = [] := by
    rw [hwr, eq_comm, slot_eq_start_iff hlt (Nat.le_of_lt hlen), List.length_eq_zero_iff,
      or_iff_left (Nat.ne_of_lt hlen)]
  unfold OnQueue.pop
  simp only [hrd, Bool.not_true, Bool.false_eq_true, if_false, hfront, inc, h.size]
  rw [h.size] at htail
  refine ⟨_, rfl, ?_⟩
  by_cases hq : q = []
  · rw [if_pos (hptr.mpr hq)]
    exact ⟨h.size, hlt, hwr, htail, by simpa using hq, by simpa using Nat.ne_of_lt hlen⟩
  · rw [if_neg (mt hptr.mp hq)]
    exact ⟨h.size, hlt, hwr, htail, by simpa [hrd] using hq, by simpa using Nat.ne_of_lt hlen⟩

end Abstracts

theorem simulates (c : ℕ) : Simulates (Abstracts c) (call (T := T)) (fifo c) := by
  intro s q a h
  cases a with
  | push val =>
    unfold call fifo Fifo.enqueue
    by_cases hfull : q.length = c
    · simp only [h.push_full hfull, hfull, if_true]
      exact .some h
    · obtain ⟨s', hpush, hs'⟩ := h.push_room (Nat.lt_of_le_of_ne h.length_le hfull) val
      simp only [hpush, hfull, if_false]
      exact .some hs'
  | pop rVal =>
    unfold call fifo Fifo.dequeue
    cases q with
    | nil =>
      simp only [h.pop_nil]
      exact .some h
    | cons x q =>
      obtain ⟨s', hpop, hs'⟩ := h.pop_cons rVal
      simp only [hpop]
      exact .some hs'

theorem exists_serve_fifo (c : ℕ) (q : List T) (calls : List (Call T)) :
    ∃ answers q', serve (fifo c) q calls = some (answers, q') := by
  induction calls generalizing q with
  | nil => exact ⟨[], q, rfl⟩
  | cons a calls ih =>
    cases a with
    | push val =>
      obtain ⟨answers, q', h⟩ := ih (Fifo.enqueue c q val).2
      exact ⟨_, q', by rw [serve_cons, fifo, Option.bind_some, h]; rfl⟩
    | pop rVal =>
      obtain ⟨answers, q', h⟩ := ih (Fifo.dequeue q rVal).2.2
      exact ⟨_, q', by rw [serve_cons, fifo, Option.bind_some, h]; rfl⟩

/-- After any calls `OnQueue` stands for the queue that a bounded FIFO holds after them. -/
theorem refines_bounded_fifo (hc : 1 ≤ c) (buffer : List T) (hsize : buffer.length = c)
    (calls : List (Call T)) :
    ∃ answers s q, serve call (create buffer) calls = some (answers, s) ∧
      serve (fifo c) [] calls = some (answers, q) ∧
      (∀ val, ∃ ok s', s.push val = some (ok, s') ∧ (ok = false ↔ q.length = c) ∧
        (ok = false → s' = s)) ∧
      (∀ rVal, ∃ ok rVal' s', s.pop rVal = some (ok, rVal', s') ∧ (ok = false ↔ q = []) ∧
        (ok = false → rVal' = rVal ∧ s' = s) ∧ (ok = true → q.head? = some rVal')) ∧
      s.rdPtr < c ∧ s.wrPtr < c ∧ (s.canRd = false ↔ q = []) ∧ (s.canWr = false ↔ q.length = c) ∧
      ¬(s.canRd = false ∧ s.canWr = false) := by
  obtain ⟨answers, q, hfifo⟩ := exists_serve_fifo c [] calls
  have hagree := (simulates c).serve calls _ _ (abstracts_create hc hsize)
  rw [hfifo] at hagree
  obtain ⟨s, hserve, h⟩ := hagree.of_eq_some
  refine ⟨answers, s, q, hserve, hfifo, ?_, ?_, h.rdPtr_lt, h.wrPtr_lt, h.canRd_iff, h.canWr_iff,
    ?_⟩
  · intro val
    by_cases hfull : q.length = c
    · exact ⟨false, s, h.push_full hfull val, by simpa using hfull, fun _ => rfl⟩
    · obtain ⟨s', hpush, -⟩ := h.push_room (Nat.lt_of_le_of_ne h.length_le hfull) val
      exact ⟨true, s', hpush, by simpa using hfull, by simp⟩
  · intro rVal
    cases q with
    | nil => exact ⟨false, rVal, s, h.pop_nil rVal, by simp, by simp, by simp⟩
    | cons x q =>
      obtain ⟨s', hpop, -⟩ := h.pop_cons rVal
      exact ⟨true, x, s', hpop, by simp, by simp, by simp⟩
  · intro hboth
    have hnil := h.canRd_iff.mp hboth.1
    have hfull := h.canWr_iff.mp hboth.2
    rw [hnil, List.length_nil] at hfull
    omega

/-- Three pushes fill the buffer, the fourth is refused, and the fifth goes in after a pop. -/
private def wrapping : List (Call ℕ) :=
  [.push 1, .push 2, .push 3, .push 4, .pop 9, .push 5, .pop 9]

theorem refines_bounded_fifo_wrapping :
    ∃ answers s q, serve call (create [0, 0, 0]) wrapping = some (answers, s) ∧
      serve (fifo 3) [] wrapping = some (answers, q) ∧ s.wrPtr < 3 := by
  obtain ⟨answers, s, q, hserve, hfifo, -, -, -, hwr, -⟩ :=
    refines_bounded_fifo (by decide) [0, 0, 0] rfl wrapping
  exact ⟨answers, s, q, hserve, hfifo, hwr⟩

end OnQueue

end CppTricks.Queue
