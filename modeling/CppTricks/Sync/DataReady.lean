import CppTricks.Foundation.Runs
import Mathlib.Data.Fintype.Basic

/-! The condition variable of `sync_test.cc`: threads that wait for data, and one that prepares
it. -/
namespace CppTricks.Sync
open Foundation

namespace DataReady

/-- Where a thread is in `wait_for_data_to_process`. Woken in `cond.wait`, it has to take the mutex
again. -/
inductive Waiter
  | lock
  | test
  | waiting
  | process
  | done
deriving DecidableEq

/-- Where the other thread is in `prepare_data_for_processing`. -/
inductive Preparer
  | prepare
  | lock
  | set
  | unlock
  | notify
  | done
deriving DecidableEq

inductive Who (T : Type)
  | waiter (t : T)
  | preparer
deriving DecidableEq

structure State (T : Type) where
  mut_ : Option (Who T)
  dataReady : Bool
  waiter : T → Waiter
  preparer : Preparer

inductive Action (T : Type)
  | waiter (t : T)
  | spurious (t : T)
  | preparer (woken : Option T)

variable {T : Type}

def init : State T := ⟨none, false, fun _ => .lock, .prepare⟩

variable [DecidableEq T]

def move (s : State T) (t : T) (mut_ : Option (Who T)) (pc : Waiter) : State T :=
  { s with mut_, waiter := Function.update s.waiter t pc }

variable [Fintype T]

/-- `none`: the thread has to wait, or is done. `notify_one` wakes a thread that waits, if there is
one; a thread may also wake up by itself. -/
def step (s : State T) : Action T → Option (State T)
  | .waiter t =>
    match s.waiter t with
    | .lock => if s.mut_ = none then some (move s t (some (.waiter t)) .test) else none
    | .test => some (if s.dataReady then move s t s.mut_ .process else move s t none .waiting)
    | .waiting => none
    | .process => some (move s t none .done)
    | .done => none
  | .spurious t => if s.waiter t = .waiting then some (move s t s.mut_ .lock) else none
  | .preparer woken =>
    match s.preparer with
    | .prepare => some { s with preparer := .lock }
    | .lock =>
      if s.mut_ = none then some { s with mut_ := some .preparer, preparer := .set } else none
    | .set => some { s with dataReady := true, preparer := .unlock }
    | .unlock => some { s with mut_ := none, preparer := .notify }
    | .notify =>
      match woken with
      | some t =>
        if s.waiter t = .waiting then some { move s t s.mut_ .lock with preparer := .done }
        else none
      | none => if ∀ t, s.waiter t ≠ .waiting then some { s with preparer := .done } else none
    | .done => none

/-- No thread can go on, unless one that waits wakes up by itself. -/
def Stuck (s : State T) : Prop :=
  ∀ a s', step s a = some s' → ∃ t, a = .spurious t

/-! ### What every step preserves -/

def Waiter.holds : Waiter → Bool
  | .test | .process => true
  | _ => false

def Preparer.holds : Preparer → Bool
  | .set | .unlock => true
  | _ => false

def Preparer.hasSet : Preparer → Bool
  | .unlock | .notify | .done => true
  | _ => false

omit [DecidableEq T] [Fintype T] in
structure Inv (s : State T) : Prop where
  waiter_holds : ∀ t, (s.waiter t).holds = true ↔ s.mut_ = some (.waiter t)
  preparer_holds : s.preparer.holds = true ↔ s.mut_ = some .preparer
  dataReady_eq : s.dataReady = s.preparer.hasSet
  processed : ∀ t, s.waiter t = .process ∨ s.waiter t = .done → s.dataReady = true
  notified : s.preparer = .done → (∃ t, s.waiter t = .waiting) → ∃ t, s.waiter t ≠ .waiting

omit [DecidableEq T] [Fintype T] in
theorem inv_init : Inv (init : State T) where
  waiter_holds t := by simp [init, Waiter.holds]
  preparer_holds := by simp [init, Preparer.holds]
  dataReady_eq := rfl
  processed t h := by simp [init] at h
  notified h := by cases h

section Steps

variable {s s' : State T} {t : T} {m : Option (Who T)} {pc : Waiter} {a : Action T}

omit [Fintype T] in
/-- A step of a waiting thread, which touches the mutex only for itself. -/
theorem Inv.move (h : Inv s) (hself : pc.holds = true ↔ m = some (.waiter t))
    (hothers : ∀ who, who ≠ .waiter t → (m = some who ↔ s.mut_ = some who))
    (hprocessed : pc = .process ∨ pc = .done → s.dataReady = true)
    (hwaiting : pc = .waiting → s.preparer ≠ .done) : Inv (move s t m pc) where
  waiter_holds u := by
    by_cases hut : u = t
    · subst hut
      simpa [DataReady.move] using hself
    · have hne : Who.waiter u ≠ .waiter t := fun heq => hut (Who.waiter.inj heq)
      simpa [DataReady.move, hut, hothers _ hne] using h.waiter_holds u
  preparer_holds := h.preparer_holds.trans (hothers .preparer (by simp)).symm
  dataReady_eq := h.dataReady_eq
  processed u hu := by
    by_cases hut : u = t
    · subst hut
      exact hprocessed (by simpa [DataReady.move] using hu)
    · exact h.processed u (by simpa [DataReady.move, hut] using hu)
  notified hdone _ := by
    refine ⟨t, ?_⟩
    simpa [DataReady.move] using fun hpc => hwaiting hpc hdone

omit [DecidableEq T] [Fintype T] in
/-- A step of the thread that prepares, which leaves the other threads alone. -/
theorem Inv.prepare (h : Inv s) {ready : Bool} {pc : Preparer}
    (hself : pc.holds = true ↔ m = some .preparer)
    (hothers : ∀ t, m = some (.waiter t) ↔ s.mut_ = some (.waiter t)) (hready : ready = pc.hasSet)
    (hset : s.dataReady = true → ready = true)
    (hdone : pc = .done → (∃ t, s.waiter t = .waiting) → ∃ t, s.waiter t ≠ .waiting) :
    Inv ⟨m, ready, s.waiter, pc⟩ where
  waiter_holds t := (h.waiter_holds t).trans (hothers t).symm
  preparer_holds := hself
  dataReady_eq := hready
  processed t ht := hset (h.processed t ht)
  notified := hdone

theorem Inv.step (h : Inv s) (hstep : step s a = some s') : Inv s' := by
  cases a with
  | waiter t =>
    simp only [DataReady.step] at hstep
    have hholds := h.waiter_holds t
    split at hstep
    · rename_i hpc
      split_ifs at hstep with hfree
      obtain rfl := Option.some.inj hstep
      refine h.move (by simp [Waiter.holds]) (fun who hwho => ?_) (by simp) (by simp)
      simp [hfree, hwho.symm]
    · rename_i hpc
      rw [hpc] at hholds
      obtain rfl := Option.some.inj hstep
      split_ifs with hready
      · exact h.move hholds (fun _ _ => Iff.rfl) (fun _ => hready) (by simp)
      · refine h.move (by simp [Waiter.holds]) (fun who hwho => ?_) (by simp) (fun _ hdone => ?_)
        · simp [hholds.mp rfl, hwho.symm]
        · rw [h.dataReady_eq, hdone] at hready
          exact hready rfl
    · cases hstep
    · rename_i hpc
      rw [hpc] at hholds
      obtain rfl := Option.some.inj hstep
      refine h.move (by simp [Waiter.holds]) (fun who hwho => ?_)
        (fun _ => h.processed t (Or.inl hpc)) (by simp)
      simp [hholds.mp rfl, hwho.symm]
    · cases hstep
  | spurious t =>
    simp only [DataReady.step] at hstep
    have hholds := h.waiter_holds t
    split_ifs at hstep with hpc
    rw [hpc] at hholds
    obtain rfl := Option.some.inj hstep
    exact h.move hholds (fun _ _ => Iff.rfl) (by simp) (by simp)
  | preparer woken =>
    simp only [DataReady.step] at hstep
    have hholds := h.preparer_holds
    have hready := h.dataReady_eq
    split at hstep
    · rename_i hpc
      rw [hpc] at hholds hready
      obtain rfl := Option.some.inj hstep
      exact h.prepare hholds (fun _ => Iff.rfl) hready id (by simp)
    · rename_i hpc
      rw [hpc] at hready
      split_ifs at hstep with hfree
      obtain rfl := Option.some.inj hstep
      exact h.prepare (by simp [Preparer.holds]) (by simp [hfree]) hready id (by simp)
    · rename_i hpc
      rw [hpc] at hholds
      obtain rfl := Option.some.inj hstep
      exact h.prepare hholds (fun _ => Iff.rfl) rfl (fun _ => rfl) (by simp)
    · rename_i hpc
      rw [hpc] at hholds hready
      obtain rfl := Option.some.inj hstep
      exact h.prepare (by simp [Preparer.holds]) (by simp [hholds.mp rfl]) hready id (by simp)
    · rename_i hpc
      rw [hpc] at hholds hready
      split at hstep
      · rename_i t
        split_ifs at hstep with hwaiting
        obtain rfl := Option.some.inj hstep
        have ht := h.waiter_holds t
        rw [hwaiting] at ht
        have hwoken : Inv (DataReady.move s t s.mut_ .lock) :=
          h.move ht (fun _ _ => Iff.rfl) (by simp) (by simp)
        refine hwoken.prepare hholds (fun _ => Iff.rfl) hready id fun _ _ => ⟨t, ?_⟩
        simp [DataReady.move]
      · split_ifs at hstep with hnone
        obtain rfl := Option.some.inj hstep
        refine h.prepare hholds (fun _ => Iff.rfl) hready id fun _ hwaiting => ?_
        obtain ⟨t, ht⟩ := hwaiting
        exact absurd ht (hnone t)
    · cases hstep

theorem inv_run {as : List (Action T)} (h : run DataReady.step init as = some s) : Inv s :=
  run_invariant (fun _ _ _ h hstep => h.step hstep) as inv_init h

theorem Inv.mut_eq_none (h : Inv s) (hstuck : Stuck s) : s.mut_ = none := by
  cases hmut : s.mut_ with
  | none => rfl
  | some who =>
    cases who with
    | waiter t =>
      have hholds := (h.waiter_holds t).mpr hmut
      cases hpc : s.waiter t with
      | test =>
        have hstep : DataReady.step s (.waiter t) = some (if s.dataReady then
            DataReady.move s t s.mut_ .process else DataReady.move s t none .waiting) := by
          simp only [DataReady.step, hpc]
        obtain ⟨_, ⟨⟩⟩ := hstuck _ _ hstep
      | process =>
        have hstep : DataReady.step s (.waiter t) = some (DataReady.move s t none .done) := by
          simp only [DataReady.step, hpc]
        obtain ⟨_, ⟨⟩⟩ := hstuck _ _ hstep
      | lock | waiting | done =>
        rw [hpc] at hholds
        cases hholds
    | preparer =>
      have hholds := h.preparer_holds.mpr hmut
      cases hpc : s.preparer with
      | set =>
        have hstep : DataReady.step s (.preparer none) =
            some { s with dataReady := true, preparer := .unlock } := by
          simp only [DataReady.step, hpc]
        obtain ⟨_, ⟨⟩⟩ := hstuck _ _ hstep
      | unlock =>
        have hstep : DataReady.step s (.preparer none) =
            some { s with mut_ := none, preparer := .notify } := by
          simp only [DataReady.step, hpc]
        obtain ⟨_, ⟨⟩⟩ := hstuck _ _ hstep
      | prepare | lock | notify | done =>
        rw [hpc] at hholds
        cases hholds

theorem Inv.stuck (h : Inv s) (hstuck : Stuck s) : s.preparer = .done ∧
    ∀ t, s.waiter t = .waiting ∨ s.waiter t = .done := by
  have hmut := h.mut_eq_none hstuck
  constructor
  · have hholds := h.preparer_holds
    cases hpc : s.preparer with
    | done => rfl
    | prepare =>
      have hstep : DataReady.step s (.preparer none) = some { s with preparer := .lock } := by
        simp only [DataReady.step, hpc]
      obtain ⟨_, ⟨⟩⟩ := hstuck _ _ hstep
    | lock =>
      have hstep : DataReady.step s (.preparer none) =
          some { s with mut_ := some .preparer, preparer := .set } := by
        simp only [DataReady.step, hpc, hmut, if_true]
      obtain ⟨_, ⟨⟩⟩ := hstuck _ _ hstep
    | set | unlock =>
      rw [hpc, hmut] at hholds
      cases hholds.mp rfl
    | notify =>
      by_cases hnone : ∀ t, s.waiter t ≠ .waiting
      · have hstep : DataReady.step s (.preparer none) = some { s with preparer := .done } := by
          simp only [DataReady.step, hpc]
          exact if_pos hnone
        obtain ⟨_, ⟨⟩⟩ := hstuck _ _ hstep
      · obtain ⟨t, ht⟩ := not_forall_not.mp hnone
        have hstep : DataReady.step s (.preparer (some t)) =
            some { DataReady.move s t s.mut_ .lock with preparer := .done } := by
          simp only [DataReady.step, hpc, ht, if_true]
        obtain ⟨_, ⟨⟩⟩ := hstuck _ _ hstep
  · intro t
    have hholds := h.waiter_holds t
    cases hpc : s.waiter t with
    | waiting => exact Or.inl rfl
    | done => exact Or.inr rfl
    | lock =>
      have hstep : DataReady.step s (.waiter t) =
          some (DataReady.move s t (some (.waiter t)) .test) := by
        simp only [DataReady.step, hpc, hmut, if_true]
      obtain ⟨_, ⟨⟩⟩ := hstuck _ _ hstep
    | test | process =>
      rw [hpc, hmut] at hholds
      cases hholds.mp rfl

/-- No thread processes data that is not ready. When none can go on the data has been prepared, and
if there are threads at least one of them has processed it; `notify_one` may leave the others
waiting. -/
theorem run_dataReady (as : List (Action T)) (h : run DataReady.step init as = some s) :
    (∀ t, s.waiter t = .process ∨ s.waiter t = .done → s.dataReady = true) ∧
      (Stuck s → s.preparer = .done ∧ (∀ t, s.waiter t = .waiting ∨ s.waiter t = .done) ∧
        (Nonempty T → ∃ t, s.waiter t = .done)) := by
  have hinv := inv_run h
  refine ⟨hinv.processed, fun hstuck => ?_⟩
  obtain ⟨hpreparer, hwaiters⟩ := hinv.stuck hstuck
  refine ⟨hpreparer, hwaiters, ?_⟩
  rintro ⟨t⟩
  rcases hwaiters t with hwaiting | hdone
  · obtain ⟨u, hu⟩ := hinv.notified hpreparer ⟨t, hwaiting⟩
    exact ⟨u, (hwaiters u).resolve_left hu⟩
  · exact ⟨t, hdone⟩

/-- Two threads wait for the data, and one of them is woken. -/
theorem run_dataReady_woken :
    ∃ s : State Bool, run DataReady.step init [.waiter true, .waiter true, .waiter false,
        .waiter false, .preparer none, .preparer none, .preparer none, .preparer none,
        .preparer (some true), .waiter true, .waiter true, .waiter true] = some s ∧
      (∀ t, s.waiter t = .process ∨ s.waiter t = .done → s.dataReady = true) ∧
      s.preparer = .done ∧ (∀ t, s.waiter t = .waiting ∨ s.waiter t = .done) ∧
      ∃ t, s.waiter t = .done := by
  obtain ⟨hprocessed, hstuck⟩ := run_dataReady (T := Bool) [.waiter true, .waiter true,
    .waiter false, .waiter false, .preparer none, .preparer none, .preparer none, .preparer none,
    .preparer (some true), .waiter true, .waiter true, .waiter true] rfl
  obtain ⟨hpreparer, hwaiters, hdone⟩ := hstuck (by
    rintro (t | t | woken) s' hstep
    · cases t <;> cases hstep
    · exact ⟨t, rfl⟩
    · cases hstep)
  exact ⟨_, rfl, hprocessed, hpreparer, hwaiters, hdone ⟨true⟩⟩

end Steps

/-! ### One is woken -/

/-- Some threads wait, and the others have not come to the mutex yet. -/
def waitingFor (ts : List T) : State T :=
  ⟨none, false, fun t => if t ∈ ts then .waiting else .lock, .prepare⟩

theorem run_wait {ts : List T} (hts : ts.Nodup) :
    run step init (ts.flatMap fun t => [.waiter t, .waiter t]) = some (waitingFor ts) := by
  induction ts using List.reverseRecOn with
  | nil => rfl
  | append_singleton ts t ih =>
    rw [List.nodup_append'] at hts
    obtain ⟨hts, -, hdisjoint⟩ := hts
    have ht : t ∉ ts := fun hmem => hdisjoint hmem (List.mem_singleton.mpr rfl)
    rw [List.flatMap_append, run_append, ih hts]
    have hwait : move (waitingFor ts) t none .waiting = waitingFor (ts ++ [t]) := by
      simp only [move, waitingFor, State.mk.injEq, true_and, and_true]
      funext u
      by_cases hut : u = t
      · simp [hut]
      · simp [hut]
    rw [← hwait]
    simp [step, waitingFor, move, ht]

/-- It is possible that all but one of the threads wait for ever. -/
theorem exists_run_stuck (t : T) : ∃ as s, run step init as = some s ∧ Stuck s ∧
    ∀ u, s.waiter u = if u = t then .done else .waiting := by
  have hwait : run step init _ = some (waitingFor (Finset.univ : Finset T).toList) :=
    run_wait (Finset.nodup_toList _)
  refine ⟨(Finset.univ : Finset T).toList.flatMap (fun t => [.waiter t, .waiter t]) ++
    [.preparer none, .preparer none, .preparer none, .preparer none,
      .preparer (some t), .waiter t, .waiter t, .waiter t],
    ⟨none, true, fun u => if u = t then .done else .waiting, .done⟩, ?_, ?_, fun _ => rfl⟩
  · have hnotified : Function.update (fun _ : T => Waiter.waiting) t .done =
        fun u => if u = t then .done else .waiting := by
      funext u
      simp [Function.update_apply]
    rw [run_append, hwait]
    simp [step, waitingFor, move, hnotified]
  · rintro (u | u | _) s' hstep
    · by_cases hut : u = t
      · simp [step, hut] at hstep
      · simp [step, hut] at hstep
    · exact ⟨u, rfl⟩
    · cases hstep

end DataReady

end CppTricks.Sync
