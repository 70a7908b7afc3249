import CppTricks.Foundation.Runs
import Mathlib.Data.Fintype.Basic

/-! The class `B` of `ds_safe_assign_test.cc`: its assignment wants the mutex of `this` both
exclusive and shared, the latter in place of that of `rhs`. -/
namespace CppTricks.Sync
open Foundation

namespace SharedAssign

inductive Call (O : Type)
  /-- `*lhs = *rhs` -/
  | assign (lhs rhs : O)
  /-- `B copy(*rhs)` -/
  | construct (rhs : O)
deriving DecidableEq

/-- Where a thread is in a call. `boost::lock` waits for one lock and tries the other one; if that
fails it gives the first one back, to wait for the other. -/
inductive Pc
  | outside
  | wait (exclusive : Bool)
  | tryOther (exclusive : Bool)
  | giveBack (exclusive : Bool)
  | assign
  | unlockShared
  | unlockExclusive
  | construct
  | unlockRhs
deriving DecidableEq

/-- The mutexes, by the threads that hold them, and for each thread the data of the objects it has
constructed. -/
structure State (T O D : Type) where
  exclusive : O → Option T
  sharing : O → T → Bool
  data : O → D
  copies : T → List D
  pc : T → Pc
  todo : T → List (Call O)

variable {T O D : Type}

def init (data : O → D) (program : T → List (Call O)) : State T O D :=
  ⟨fun _ => none, fun _ _ => false, data, fun _ => [], fun _ => .outside, program⟩

variable [DecidableEq T] [DecidableEq O] [Fintype T]

/-- Whether a thread gets the mutex, exclusive or shared. -/
def State.Free (st : State T O D) (exclusive : Bool) (o : O) : Prop :=
  st.exclusive o = none ∧ (exclusive = true → ∀ t, st.sharing o t = false)

instance (st : State T O D) (exclusive : Bool) (o : O) : Decidable (st.Free exclusive o) :=
  inferInstanceAs (Decidable (_ ∧ _))

def State.lock (st : State T O D) (t : T) (exclusive : Bool) (o : O) : State T O D :=
  if exclusive then { st with exclusive := Function.update st.exclusive o (some t) }
  else { st with sharing := Function.update st.sharing o (Function.update (st.sharing o) t true) }

def State.unlock (st : State T O D) (t : T) (exclusive : Bool) (o : O) : State T O D :=
  if exclusive then { st with exclusive := Function.update st.exclusive o none }
  else { st with sharing := Function.update st.sharing o (Function.update (st.sharing o) t false) }

def State.goto (st : State T O D) (t : T) (pc : Pc) : State T O D :=
  { st with pc := Function.update st.pc t pc }

def State.leave (st : State T O D) (t : T) : State T O D :=
  { st with pc := Function.update st.pc t .outside
            todo := Function.update st.todo t (st.todo t).tail }

/-- `none`: the thread waits for a mutex, or is done. -/
def step (st : State T O D) (t : T) : Option (State T O D) :=
  match st.todo t, st.pc t with
  | [], _ => none
  | .assign lhs rhs :: _, .outside =>
    some (if lhs = rhs then st.leave t else st.goto t (.wait true))
  | .assign lhs _ :: _, .wait exclusive =>
    if st.Free exclusive lhs then some ((st.lock t exclusive lhs).goto t (.tryOther exclusive))
    else none
  | .assign lhs _ :: _, .tryOther exclusive =>
    some (if st.Free (!exclusive) lhs then (st.lock t (!exclusive) lhs).goto t .assign
      else st.goto t (.giveBack exclusive))
  | .assign lhs _ :: _, .giveBack exclusive =>
    some ((st.unlock t exclusive lhs).goto t (.wait (!exclusive)))
  | .assign lhs rhs :: _, .assign =>
    some ({ st with data := Function.update st.data lhs (st.data rhs) }.goto t .unlockShared)
  | .assign lhs _ :: _, .unlockShared => some ((st.unlock t false lhs).goto t .unlockExclusive)
  | .assign lhs _ :: _, .unlockExclusive => some ((st.unlock t true lhs).leave t)
  | .assign _ _ :: _, _ => none
  | .construct rhs :: _, .outside =>
    if st.Free false rhs then some ((st.lock t false rhs).goto t .construct) else none
  | .construct rhs :: _, .construct =>
    some ({ st with copies := Function.update st.copies t (st.copies t ++ [st.data rhs]) }.goto t
      .unlockRhs)
  | .construct rhs :: _, .unlockRhs => some ((st.unlock t false rhs).leave t)
  | .construct _ :: _, _ => none

section Fields

variable (st : State T O D) (t : T) (e : Bool) (o : O) (pc : Pc)

omit [Fintype T]

@[simp] theorem lock_pc : (st.lock t e o).pc = st.pc := by cases e <;> rfl
@[simp] theorem lock_todo : (st.lock t e o).todo = st.todo := by cases e <;> rfl
@[simp] theorem lock_copies : (st.lock t e o).copies = st.copies := by cases e <;> rfl
@[simp] theorem lock_data : (st.lock t e o).data = st.data := by cases e <;> rfl
@[simp] theorem unlock_pc : (st.unlock t e o).pc = st.pc := by cases e <;> rfl
@[simp] theorem unlock_todo : (st.unlock t e o).todo = st.todo := by cases e <;> rfl
@[simp] theorem unlock_copies : (st.unlock t e o).copies = st.copies := by cases e <;> rfl
@[simp] theorem unlock_data : (st.unlock t e o).data = st.data := by cases e <;> rfl

omit [DecidableEq O]

@[simp] theorem goto_pc : (st.goto t pc).pc t = pc := Function.update_self ..
@[simp] theorem goto_todo : (st.goto t pc).todo = st.todo := rfl
@[simp] theorem goto_copies : (st.goto t pc).copies = st.copies := rfl
@[simp] theorem leave_pc : (st.leave t).pc t = .outside := Function.update_self ..
@[simp] theorem leave_todo : (st.leave t).todo t = (st.todo t).tail := Function.update_self ..
@[simp] theorem leave_copies : (st.leave t).copies = st.copies := rfl

end Fields

/-! ### What a thread holds -/

def State.Holds (st : State T O D) (t : T) (exclusive : Bool) (o : O) : Prop :=
  if exclusive then st.exclusive o = some t else st.sharing o t = true

omit [DecidableEq O] [Fintype T] in
@[simp] theorem goto_holds (st : State T O D) (t u : T) (pc : Pc) (e : Bool) (o : O) :
    (st.goto t pc).Holds u e o ↔ st.Holds u e o := Iff.rfl

section Steps

variable {st st' : State T O D} {t u : T} {e e' : Bool} {o o' : O}

omit [Fintype T] in
theorem holds_lock (st : State T O D) (t : T) (e : Bool) (o : O) :
    (st.lock t e o).Holds t e o := by
  cases e
  · simp [State.Holds, State.lock]
  · simp [State.Holds, State.lock]

omit [DecidableEq O] [DecidableEq T] [Fintype T] in
/-- A thread that has the mutex one way cannot have it the other way. -/
theorem State.Holds.not_free (h : st.Holds t e o) : ¬st.Free (!e) o := by
  cases e
  · intro hfree
    rw [State.Holds, hfree.2 rfl t] at h
    exact nomatch h
  · intro hfree
    rw [State.Holds, hfree.1] at h
    exact nomatch h

omit [Fintype T] in
theorem State.Holds.lock (h : st.Holds u e' o') (hut : u ≠ t) (hfree : st.Free e o) :
    (st.lock t e o).Holds u e' o' := by
  by_cases ho : o' = o
  · subst ho
    cases e' <;> cases e
    · simpa [State.Holds, State.lock, hut] using h
    · simpa [State.Holds, State.lock] using h
    · simpa [State.Holds, State.lock] using h
    · rw [State.Holds, if_pos rfl, hfree.1] at h
      exact nomatch h
  · cases e' <;> cases e <;> simpa [State.Holds, State.lock, ho] using h

omit [Fintype T] in
theorem State.Holds.unlock (h : st.Holds u e' o') (hut : u ≠ t) (hself : st.Holds t e o) :
    (st.unlock t e o).Holds u e' o' := by
  by_cases ho : o' = o
  · subst ho
    cases e' <;> cases e
    · simpa [State.Holds, State.unlock, hut] using h
    · simpa [State.Holds, State.unlock] using h
    · simpa [State.Holds, State.unlock] using h
    · rw [State.Holds, if_pos rfl] at h hself
      exact absurd (Option.some.inj (h.symm.trans hself)) hut
  · cases e' <;> cases e <;> simpa [State.Holds, State.unlock, ho] using h

/-- The calls to come. A constructor that has copied is through. -/
def remaining : Pc → List (Call O) → List (Call O)
  | .unlockRhs, todo => todo.tail
  | _, todo => todo

def Call.copied (data : O → D) : Call O → Option D
  | assign _ _ => none
  | construct rhs => some (data rhs)

/-- The calls that are through are constructors, and assignments of objects to themselves. -/
structure Made (data : O → D) (done : List (Call O)) (copies : List D) : Prop where
  assign_self : ∀ lhs rhs, .assign lhs rhs ∈ done → lhs = rhs
  copies_eq : copies = done.filterMap (Call.copied data)

/-- A thread in an assignment holds one of its locks, and never gets the other one. -/
structure Good (data : O → D) (program : T → List (Call O)) (st : State T O D) (t : T) : Prop where
  holds : ∀ e, st.pc t = .tryOther e ∨ st.pc t = .giveBack e →
    ∀ lhs rhs todo, st.todo t = .assign lhs rhs :: todo → st.Holds t e lhs
  shares : st.pc t = .construct ∨ st.pc t = .unlockRhs →
    ∀ rhs todo, st.todo t = .construct rhs :: todo → st.Holds t false rhs
  never : st.pc t ≠ .assign ∧ st.pc t ≠ .unlockShared ∧ st.pc t ≠ .unlockExclusive
  made : ∃ done, program t = done ++ remaining (st.pc t) (st.todo t) ∧ Made data done (st.copies t)

structure Inv (data : O → D) (program : T → List (Call O)) (st : State T O D) : Prop where
  data_eq : st.data = data
  good : ∀ t, Good data program st t

variable {data : O → D} {program : T → List (Call O)}

omit [DecidableEq T] [DecidableEq O] [Fintype T] in
theorem inv_init (data : O → D) (program : T → List (Call O)) :
    Inv data program (init data program) where
  data_eq := rfl
  good t :=
    { holds := fun e h => by simp [init] at h
      shares := fun h => by simp [init] at h
      never := by simp [init]
      made := ⟨[], rfl, ⟨fun _ _ h => absurd h List.not_mem_nil, rfl⟩⟩ }

structure Frame (t : T) (st st' : State T O D) : Prop where
  data_eq : st'.data = st.data
  other : ∀ u, u ≠ t → st'.pc u = st.pc u ∧ st'.todo u = st.todo u ∧ st'.copies u = st.copies u ∧
    ∀ e o, st.Holds u e o → st'.Holds u e o

namespace Frame

omit [DecidableEq T] [DecidableEq O] [Fintype T] in
theorem trans {st₁ : State T O D} (h : Frame t st st₁) (h' : Frame t st₁ st') : Frame t st st' where
  data_eq := h'.data_eq.trans h.data_eq
  other u hu := by
    obtain ⟨hpc, htodo, hcopies, hholds⟩ := h.other u hu
    obtain ⟨hpc', htodo', hcopies', hholds'⟩ := h'.other u hu
    exact ⟨hpc'.trans hpc, htodo'.trans htodo, hcopies'.trans hcopies,
      fun e o hold => hholds' e o (hholds e o hold)⟩

omit [Fintype T] in
theorem lock (hfree : st.Free e o) : Frame t st (st.lock t e o) where
  data_eq := lock_data ..
  other u hu := ⟨by simp, by simp, by simp, fun _ _ h => h.lock hu hfree⟩

omit [Fintype T] in
theorem unlock (hself : st.Holds t e o) : Frame t st (st.unlock t e o) where
  data_eq := unlock_data ..
  other u hu := ⟨by simp, by simp, by simp, fun _ _ h => h.unlock hu hself⟩

omit [DecidableEq O] [Fintype T] in
theorem goto (st : State T O D) (t : T) (pc : Pc) : Frame t st (st.goto t pc) where
  data_eq := rfl
  other _ hu := ⟨Function.update_of_ne hu .., rfl, rfl, fun _ _ h => h⟩

omit [DecidableEq O] [Fintype T] in
theorem leave (st : State T O D) (t : T) : Frame t st (st.leave t) where
  data_eq := rfl
  other _ hu :=
    ⟨Function.update_of_ne hu .., Function.update_of_ne hu .., rfl, fun _ _ h => h⟩

omit [DecidableEq O] [Fintype T] in
theorem copy (st : State T O D) (t : T) (copies : List D) :
    Frame t st { st with copies := Function.update st.copies t copies } where
  data_eq := rfl
  other _ hu := ⟨rfl, rfl, Function.update_of_ne hu .., fun _ _ h => h⟩

end Frame

omit [DecidableEq T] [DecidableEq O] [Fintype T] in
theorem Inv.of_frame (h : Inv data program st) (hframe : Frame t st st')
    (hself : Good data program st' t) : Inv data program st' where
  data_eq := hframe.data_eq.trans h.data_eq
  good u := by
    by_cases hut : u = t
    · exact hut ▸ hself
    · obtain ⟨hpc, htodo, hcopies, hholds⟩ := hframe.other u hut
      have hgood := h.good u
      constructor
      · rw [hpc, htodo]
        exact fun e he lhs rhs todo htodo => hholds e lhs (hgood.holds e he lhs rhs todo htodo)
      · rw [hpc, htodo]
        exact fun he rhs todo htodo => hholds false rhs (hgood.shares he rhs todo htodo)
      · rw [hpc]
        exact hgood.never
      · rw [hpc, htodo, hcopies]
        exact hgood.made

theorem Inv.step (h : Inv data program st) (hstep : step st t = some st') :
    Inv data program st' := by
  have hgood := h.good t
  obtain ⟨done, hprogram, hmade⟩ := hgood.made
  unfold SharedAssign.step at hstep
  split at hstep
  · cases hstep
  · -- assign outside
    rename_i lhs rhs todo htodo hpc
    rw [hpc, htodo] at hprogram
    obtain rfl := Option.some.inj hstep
    split_ifs with hself
    · refine h.of_frame (.leave st t) ⟨?_, ?_, ?_, ?_⟩
      · simp
      · simp
      · simp
      · refine ⟨done ++ [.assign lhs rhs], ?_, ?_, ?_⟩
        · simpa [htodo, remaining] using hprogram
        · simpa [or_imp, forall_and, hself] using hmade.assign_self
        · rw [List.filterMap_append, leave_copies, hmade.copies_eq]
          simp [Call.copied]
    · refine h.of_frame (.goto st t _) ⟨?_, ?_, ?_, ?_⟩
      · simp
      · simp
      · simp
      · exact ⟨done, by simpa [htodo, remaining] using hprogram, hmade⟩
  · -- wait
    rename_i lhs rhs todo e htodo hpc
    rw [hpc, htodo] at hprogram
    split_ifs at hstep with hfree
    obtain rfl := Option.some.inj hstep
    refine h.of_frame ((Frame.lock hfree).trans (.goto _ t _)) ⟨?_, ?_, ?_, ?_⟩
    · simpa [htodo] using holds_lock st t e lhs
    · simp
    · simp
    · exact ⟨done, by simpa [htodo, remaining] using hprogram, by simpa using hmade⟩
  · -- tryOther
    rename_i lhs rhs todo e htodo hpc
    rw [hpc, htodo] at hprogram
    obtain rfl := Option.some.inj hstep
    have hhold : st.Holds t e lhs := hgood.holds e (Or.inl hpc) lhs rhs todo htodo
    rw [if_neg hhold.not_free]
    refine h.of_frame (.goto st t _) ⟨?_, ?_, ?_, ?_⟩
    · simpa [htodo] using hhold
    · simp
    · simp
    · exact ⟨done, by simpa [htodo, remaining] using hprogram, hmade⟩
  · -- giveBack
    rename_i lhs rhs todo e htodo hpc
    rw [hpc, htodo] at hprogram
    obtain rfl := Option.some.inj hstep
    have hhold : st.Holds t e lhs := hgood.holds e (Or.inr hpc) lhs rhs todo htodo
    refine h.of_frame ((Frame.unlock hhold).trans (.goto _ t _)) ⟨?_, ?_, ?_, ?_⟩
    · simp
    · simp
    · simp
    · exact ⟨done, by simpa [htodo, remaining] using hprogram, by simpa using hmade⟩
  · exact absurd ‹_› hgood.never.1
  · exact absurd ‹_› hgood.never.2.1
  · exact absurd ‹_› hgood.never.2.2
  · cases hstep
  · -- construct outside
    rename_i rhs todo htodo hpc
    rw [hpc, htodo] at hprogram
    split_ifs at hstep with hfree
    obtain rfl := Option.some.inj hstep
    refine h.of_frame ((Frame.lock hfree).trans (.goto _ t _)) ⟨?_, ?_, ?_, ?_⟩
    · simp
    · simpa [htodo] using holds_lock st t false rhs
    · simp
    · exact ⟨done, by simpa [htodo, remaining] using hprogram, by simpa using hmade⟩
  · -- construct
    rename_i rhs todo htodo hpc
    rw [hpc, htodo] at hprogram
    obtain rfl := Option.some.inj hstep
    have hhold : st.Holds t false rhs := hgood.shares (Or.inl hpc) rhs todo htodo
    refine h.of_frame ((Frame.copy st t _).trans (.goto _ t _)) ⟨?_, ?_, ?_, ?_⟩
    · simp
    · simp only [goto_todo, htodo, List.cons.injEq, Call.construct.injEq]
      rintro - _ _ ⟨rfl, -⟩
      exact hhold
    · simp
    · refine ⟨done ++ [.construct rhs], ?_, ?_, ?_⟩
      · simpa [htodo, remaining] using hprogram
      · simpa using hmade.assign_self
      · rw [List.filterMap_append, ← hmade.copies_eq, h.data_eq]
        simp [Call.copied]
  · -- unlockRhs
    rename_i rhs todo htodo hpc
    rw [hpc, htodo] at hprogram
    obtain rfl := Option.some.inj hstep
    have hhold : st.Holds t false rhs := hgood.shares (Or.inr hpc) rhs todo htodo
    refine h.of_frame ((Frame.unlock hhold).trans (.leave _ t)) ⟨?_, ?_, ?_, ?_⟩
    · simp
    · simp
    · simp
    · exact ⟨done, by simpa [htodo, remaining] using hprogram, by simpa using hmade⟩
  · cases hstep

/-- Nothing is ever assigned: whatever the interleaving, the calls of a thread that are through are
constructors, which copy what was there at the start, and assignments of objects to themselves. -/
theorem run_never_assigns (ts : List T)
    (h : run SharedAssign.step (init data program) ts = some st) :
    st.data = data ∧ ∀ t, ∃ done, program t = done ++ remaining (st.pc t) (st.todo t) ∧
      (∀ lhs rhs, .assign lhs rhs ∈ done → lhs = rhs) ∧
      st.copies t = done.filterMap (Call.copied data) := by
  have hinv : Inv data program st :=
    run_invariant (fun _ _ _ h hstep => h.step hstep) ts (inv_init data program) h
  refine ⟨hinv.data_eq, fun t => ?_⟩
  obtain ⟨done, hprogram, hmade⟩ := (hinv.good t).made
  exact ⟨done, hprogram, hmade.assign_self, hmade.copies_eq⟩

end Steps

/-- An assignment that has tried both locks, beside a constructor that is through. -/
theorem run_never_assigns_two :
    ∃ st, run step (init (fun o : Bool => if o then 1 else 2) fun t : Bool =>
        if t then [.assign true false] else [.construct true])
        [true, true, true, true, false, false, false, true, true] = some st ∧
      st.data = (fun o : Bool => if o then 1 else 2) ∧ ∀ t, ∃ done,
        (if t then [.assign true false] else [.construct true]) =
          done ++ remaining (st.pc t) (st.todo t) ∧
        (∀ lhs rhs, .assign lhs rhs ∈ done → lhs = rhs) ∧
        st.copies t = done.filterMap (Call.copied fun o : Bool => if o then 1 else 2) :=
  ⟨_, rfl, run_never_assigns [true, true, true, true, false, false, false, true, true] rfl⟩

end SharedAssign

end CppTricks.Sync
