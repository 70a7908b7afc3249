import CppTricks.Foundation.Fifo
import CppTricks.Foundation.LockedObject
import Mathlib.Data.Int.Notation
import Mathlib.Data.Nat.Notation

/-! `bounded_try_queue` and its twin `concurent_bounded_try_queue`, which differ in the type of the
mutex only. -/
namespace CppTricks.Queue
open Foundation

variable {T Thread : Type}

structure BoundedTryQueue (T : Type) where
  q : List T
  currentSize : ℤ

namespace BoundedTryQueue

inductive Call (T : Type)
  | tryPush (x : T)
  | tryPop (popped : T)
  | size
  | empty

/-- The value returned and, for `try_pop`, what is in `popped` afterwards. -/
inductive Answer (T : Type)
  | tryPush (ok : Bool)
  | tryPop (ok : Bool) (popped : T)
  | size (n : ℤ)
  | empty (b : Bool)

inductive Locals (T : Type)
  | tryPush (tmp : List T)
  | tryPop (popped : T)
  | size
  | empty

def create : BoundedTryQueue T := ⟨[], 0⟩

def prepare : Call T → Locals T
  | .tryPush x => .tryPush [x]
  | .tryPop popped => .tryPop popped
  | .size => .size
  | .empty => .empty

/-- The part of a call under the lock. -/
def critical (cmSize : ℤ) (b : BoundedTryQueue T) : Locals T → Answer T × BoundedTryQueue T
  | .tryPush tmp =>
    if b.currentSize = cmSize then (.tryPush false, b)
    else (.tryPush true, ⟨b.q ++ tmp, b.currentSize + 1⟩)
  | .tryPop popped =>
    match b.q with
    | [] => (.tryPop false popped, b)
    | front :: rest => (.tryPop true front, ⟨rest, b.currentSize - 1⟩)
  | .size => (.size b.currentSize, b)
  | .empty => (.empty b.q.isEmpty, b)

def locked (cmSize : ℤ) : LockedObject (BoundedTryQueue T) (Call T) (Locals T) (Answer T) :=
  ⟨prepare, critical cmSize⟩

def fifo (cap : ℕ) (q : List T) : Call T → Option (Answer T × List T)
  | .tryPush x =>
    let (ok, q) := Fifo.enqueue cap q x
    some (.tryPush ok, q)
  | .tryPop popped =>
    let (ok, popped, q) := Fifo.dequeue q popped
    some (.tryPop ok popped, q)
  | .size => some (.size q.length, q)
  | .empty => some (.empty q.isEmpty, q)

/-- The counter is the length of the list and does not pass the bound. -/
structure Counts (cmSize : ℤ) (b : BoundedTryQueue T) : Prop where
  currentSize_eq : b.currentSize = b.q.length
  le_cmSize : b.currentSize ≤ cmSize

/-- The queue seen as the list of its elements. -/
def Abstracts (cmSize : ℤ) (b : BoundedTryQueue T) (q : List T) : Prop :=
  b.q = q ∧ Counts cmSize b

/-- Values accepted by successful `try_push`es, in the order of their critical sections. -/
def accepted (ps : List (Call T × Answer T)) : List T :=
  ps.filterMap fun
    | (.tryPush x, .tryPush true) => some x
    | _ => none

/-- Values handed out by successful `try_pop`s, in the order of their critical sections. -/
def popped (ps : List (Call T × Answer T)) : List T :=
  ps.filterMap fun
    | (.tryPop _, .tryPop true v) => some v
    | _ => none

variable {cmSize : ℤ} {b : BoundedTryQueue T}

section Critical

theorem call_eq (c : Call T) :
    (locked cmSize).call b c = some (critical cmSize b (prepare c)) := rfl

theorem critical_tryPush_full (h : b.currentSize = cmSize) (tmp : List T) :
    critical cmSize b (.tryPush tmp) = (.tryPush false, b) := if_pos h

theorem critical_tryPush_room (h : b.currentSize ≠ cmSize) (tmp : List T) :
    critical cmSize b (.tryPush tmp) = (.tryPush true, ⟨b.q ++ tmp, b.currentSize + 1⟩) := if_neg h

theorem critical_tryPop_nil (cmSize : ℤ) (h : b.q = []) (v : T) :
    critical cmSize b (.tryPop v) = (.tryPop false v, b) := by
  unfold critical
  rw [h]

theorem critical_tryPop_cons (cmSize : ℤ) {front : T} {rest : List T} (h : b.q = front :: rest)
    (v : T) :
    critical cmSize b (.tryPop v) = (.tryPop true front, ⟨rest, b.currentSize - 1⟩) := by
  unfold critical
  rw [h]

end Critical

theorem counts_create (h : 0 ≤ cmSize) : Counts cmSize (create : BoundedTryQueue T) := ⟨rfl, h⟩

theorem Counts.length_eq_toNat_iff (h : Counts cmSize b) :
    b.q.length = cmSize.toNat ↔ b.currentSize = cmSize := by
  have heq := h.currentSize_eq
  have hle := h.le_cmSize
  omega

theorem Counts.splice (h : Counts cmSize b) (hroom : b.currentSize ≠ cmSize) (x : T) :
    Counts cmSize ⟨b.q ++ [x], b.currentSize + 1⟩ := by
  have heq := h.currentSize_eq
  have hle := h.le_cmSize
  constructor
  · simpa using heq
  · simp only
    omega

theorem Counts.popFront {front : T} {rest : List T} (h : Counts cmSize b)
    (hq : b.q = front :: rest) : Counts cmSize ⟨rest, b.currentSize - 1⟩ := by
  have heq := h.currentSize_eq
  have hle := h.le_cmSize
  rw [hq, List.length_cons] at heq
  constructor
  · simp only
    omega
  · simp only
    omega

theorem simulates (cmSize : ℤ) :
    Simulates (Abstracts cmSize) (locked (T := T) cmSize).call (fifo cmSize.toNat) := by
  intro b q c h
  obtain ⟨rfl, h⟩ := h
  rw [call_eq]
  cases c with
  | tryPush x =>
    have hiff := h.length_eq_toNat_iff
    by_cases hfull : b.currentSize = cmSize
    · rw [prepare, critical_tryPush_full hfull]
      simp only [fifo, Fifo.enqueue, hiff.mpr hfull, if_true]
      exact .some ⟨rfl, h⟩
    · rw [prepare, critical_tryPush_room hfull]
      simp only [fifo, Fifo.enqueue, mt hiff.mp hfull, if_false]
      exact .some ⟨rfl, h.splice hfull x⟩
  | tryPop v =>
    cases hq : b.q with
    | nil =>
      rw [prepare, critical_tryPop_nil cmSize hq]
      exact .some ⟨hq, h⟩
    | cons front rest =>
      rw [prepare, critical_tryPop_cons cmSize hq]
      exact .some ⟨rfl, h.popFront hq⟩
  | size =>
    simp only [prepare, critical, fifo, h.currentSize_eq]
    exact .some ⟨rfl, h⟩
  | empty => exact .some ⟨rfl, h⟩

theorem balanced_call {ps : List (Call T × Answer T)} {b b' : BoundedTryQueue T} {c : Call T}
    {r : Answer T} (h : Fifo.Balanced (accepted ps) (popped ps) b.q)
    (hcall : (locked cmSize).call b c = some (r, b')) :
    Fifo.Balanced (accepted (ps ++ [(c, r)])) (popped (ps ++ [(c, r)])) b'.q := by
  rw [call_eq] at hcall
  have hr := Option.some.inj hcall
  cases c with
  | tryPush x =>
    by_cases hfull : b.currentSize = cmSize
    · rw [prepare, critical_tryPush_full hfull] at hr
      obtain ⟨rfl, rfl⟩ := Prod.mk.inj hr
      simpa [accepted, popped] using h
    · rw [prepare, critical_tryPush_room hfull] at hr
      obtain ⟨rfl, rfl⟩ := Prod.mk.inj hr
      simpa [accepted, popped] using h.enter x
  | tryPop v =>
    cases hq : b.q with
    | nil =>
      rw [prepare, critical_tryPop_nil cmSize hq] at hr
      obtain ⟨rfl, rfl⟩ := Prod.mk.inj hr
      simpa [accepted, popped] using h
    | cons front rest =>
      rw [prepare, critical_tryPop_cons cmSize hq] at hr
      obtain ⟨rfl, rfl⟩ := Prod.mk.inj hr
      rw [hq] at h
      simpa [accepted, popped] using h.leave
  | size =>
    obtain ⟨rfl, rfl⟩ := Prod.mk.inj hr
    simpa [accepted, popped] using h
  | empty =>
    obtain ⟨rfl, rfl⟩ := Prod.mk.inj hr
    simpa [accepted, popped] using h

section Run

variable [DecidableEq Thread] {as : List (ThreadAction Thread (Call T))}
  {st : Threads Thread (BoundedTryQueue T) (Call T) (Locals T) (Answer T)}

theorem counts_of_run (h : 0 ≤ cmSize)
    (hrun : run (locked cmSize).step (.start create) as = some st) : Counts cmSize st.object := by
  have hserved := (LockedObject.explains_of_run hrun).served
  have hagree := (simulates cmSize).serve (st.history.points.map Prod.fst) create []
    ⟨rfl, counts_create h⟩
  rw [hserved] at hagree
  obtain ⟨q, -, -, hcounts⟩ := hagree.eq_some
  exact hcounts

theorem balanced_of_run (hrun : run (locked cmSize).step (.start create) as = some st) :
    Fifo.Balanced (accepted st.history.points) (popped st.history.points) st.object.q := by
  have hserved := (LockedObject.explains_of_run hrun).served
  have hstart : Fifo.Balanced (accepted ([] : List (Call T × Answer T))) (popped [])
      (create : BoundedTryQueue T).q := .nil
  have h := serve_invariant (P := fun ps b => Fifo.Balanced (accepted ps) (popped ps) b.q)
    _ (fun _ _ _ _ _ hb hc => balanced_call hb hc) hstart hserved
  rwa [← List.zip_of_prod rfl rfl] at h

/-- At its critical section `try_push` fails exactly on a full queue, and then changes nothing. -/
theorem tryPush_atomic {st' : Threads Thread (BoundedTryQueue T) (Call T) (Locals T) (Answer T)}
    {t : Thread} {x : T} {l : Locals T} (hcounts : Counts cmSize st.object)
    (hl : l = prepare (.tryPush x)) (hphase : st.phase t = .prepared (.tryPush x) l)
    (hstep : (locked cmSize).step st (.critical t) = some st') :
    ∃ ok, st'.phase t = .answered (.tryPush ok) ∧
      (ok = false ↔ (st.object.q.length : ℤ) = cmSize) ∧ (ok = false → st'.object = st.object) := by
  subst l
  obtain ⟨hanswer, hobject⟩ := LockedObject.phase_object_critical hstep hphase
  rw [hanswer, hobject, ← hcounts.currentSize_eq]
  by_cases hfull : st.object.currentSize = cmSize
  · have hcritical : (locked cmSize).critical st.object (prepare (.tryPush x)) = _ :=
      critical_tryPush_full hfull [x]
    rw [hcritical]
    exact ⟨false, rfl, by simpa using hfull, by simp⟩
  · have hcritical : (locked cmSize).critical st.object (prepare (.tryPush x)) = _ :=
      critical_tryPush_room hfull [x]
    rw [hcritical]
    exact ⟨true, rfl, by simpa using hfull, by simp⟩

/-- At its critical section `try_pop` fails exactly on an empty queue, and then changes nothing. -/
theorem tryPop_atomic {st' : Threads Thread (BoundedTryQueue T) (Call T) (Locals T) (Answer T)}
    {t : Thread} {v : T} {l : Locals T} (hl : l = prepare (.tryPop v))
    (hphase : st.phase t = .prepared (.tryPop v) l)
    (hstep : (locked cmSize).step st (.critical t) = some st') :
    ∃ ok v', st'.phase t = .answered (.tryPop ok v') ∧ (ok = false ↔ st.object.q = []) ∧
      (ok = false → st'.object = st.object ∧ v' = v) := by
  subst l
  obtain ⟨hanswer, hobject⟩ := LockedObject.phase_object_critical hstep hphase
  rw [hanswer, hobject]
  cases hq : st.object.q with
  | nil =>
    have hcritical : (locked cmSize).critical st.object (prepare (.tryPop v)) = _ :=
      critical_tryPop_nil cmSize hq v
    rw [hcritical]
    exact ⟨false, v, rfl, by simp, by simp⟩
  | cons front rest =>
    have hcritical : (locked cmSize).critical st.object (prepare (.tryPop v)) = _ :=
      critical_tryPop_cons cmSize hq v
    rw [hcritical]
    exact ⟨true, front, rfl, by simp, by simp⟩

end Run

open LockedObject in
/-- Under every interleaving of its operations `bounded_try_queue` is a bounded FIFO. -/
theorem linearizable_fifo [DecidableEq Thread] (hcm : 0 ≤ cmSize)
    (as : List (ThreadAction Thread (Call T)))
    (st : Threads Thread (BoundedTryQueue T) (Call T) (Locals T) (Answer T))
    (hrun : run (locked cmSize).step (.start create) as = some st) :
    st.object.currentSize = st.object.q.length ∧ st.object.currentSize ≤ cmSize ∧
      (∀ t x l st', st.phase t = .prepared (.tryPush x) l →
        (locked cmSize).step st (.critical t) = some st' →
        ∃ ok, st'.phase t = .answered (.tryPush ok) ∧
          (ok = false ↔ (st.object.q.length : ℤ) = cmSize) ∧
          (ok = false → st'.object = st.object)) ∧
      (∀ t v l st', st.phase t = .prepared (.tryPop v) l →
        (locked cmSize).step st (.critical t) = some st' →
        ∃ ok v', st'.phase t = .answered (.tryPop ok v') ∧ (ok = false ↔ st.object.q = []) ∧
          (ok = false → st'.object = st.object ∧ v' = v)) ∧
      popped st.history.points <+: accepted st.history.points ∧
      accepted st.history.points = popped st.history.points ++ st.object.q ∧
      Linearizable (fifo cmSize.toNat) [] st.history.visible := by
  have hexplains := explains_of_run hrun
  have hcounts := counts_of_run hcm hrun
  have hbalanced := balanced_of_run hrun
  refine ⟨hcounts.currentSize_eq, hcounts.le_cmSize, ?_, ?_, hbalanced.isPrefix, hbalanced,
    hexplains.linearizable (simulates cmSize) ⟨rfl, counts_create hcm⟩⟩
  · intro t x l st' hphase hstep
    exact tryPush_atomic hcounts (hexplains.prepared t _ l hphase) hphase hstep
  · intro t v l st' hphase hstep
    exact tryPop_atomic (hexplains.prepared t _ l hphase) hphase hstep

private def race : List (ThreadAction Bool (Call ℕ)) :=
  [.invoke true (.tryPush 5), .invoke false (.tryPop 0), .prepare false, .prepare true,
    .critical true, .critical false, .respond false]

theorem linearizable_fifo_race :
    ∃ st, run (locked 1).step (.start create) race = some st ∧
      accepted st.history.points = [5] ++ st.object.q ∧
      Linearizable (fifo 1) [] st.history.visible := by
  refine ⟨_, rfl, ?_⟩
  have hcm : (0 : ℤ) ≤ 1 := by decide
  exact (linearizable_fifo hcm race _ rfl).2.2.2.2.2

end BoundedTryQueue

end CppTricks.Queue
