import CppTricks.Foundation.CriticalSections
import Mathlib.Algebra.Order.BigOperators.Group.Finset

/-! The copy assignments of `ds_safe_assign_test.cc`, which lock both objects at once. -/
namespace CppTricks.Sync
open Foundation Workers

namespace SafeAssign

/-- Where a thread is in `operator=`. `boost::lock` waits for one mutex (`own`: that of `this`) and
tries the other one; if that is taken it gives the first one back, to wait for the other. -/
inductive Pc (D : Type)
  | outside
  | wait (own : Bool)
  | tryOther (own : Bool)
  | giveBack (own : Bool)
  | copy
  | assign (data : D)
  | unlockRhs
  | unlockLhs
deriving DecidableEq

/-- The calls `*lhs = *rhs` to come, the one that a thread is in included. -/
structure State (T O D : Type) where
  mut_ : O → Option T
  data : O → D
  pc : T → Pc D
  todo : T → List (O × O)

variable {T O D : Type}

def init (data : O → D) (program : T → List (O × O)) : State T O D :=
  ⟨fun _ => none, data, fun _ => .outside, program⟩

def side (own : Bool) (call : O × O) : O := if own then call.1 else call.2

variable [DecidableEq T] [DecidableEq O]

/-- The state after a step of a thread, which changes what it holds and its own place. -/
def move (st : State T O D) (t : T) (mut_ : O → Option T) (pc : Pc D) : State T O D :=
  { st with mut_, pc := Function.update st.pc t pc }

/-- `none`: the thread waits for a mutex, or is done. -/
def step (st : State T O D) (t : T) : Option (State T O D) :=
  match st.todo t with
  | [] => none
  | call :: todo =>
    match st.pc t with
    | .outside =>
      if call.1 = call.2 then some { st with todo := Function.update st.todo t todo }
      else some (move st t st.mut_ (.wait true))
    | .wait own =>
      if st.mut_ (side own call) = none then
        some (move st t (Function.update st.mut_ (side own call) (some t)) (.tryOther own))
      else none
    | .tryOther own =>
      if st.mut_ (side (!own) call) = none then
        some (move st t (Function.update st.mut_ (side (!own) call) (some t)) .copy)
      else some (move st t st.mut_ (.giveBack own))
    | .giveBack own =>
      some (move st t (Function.update st.mut_ (side own call) none) (.wait (!own)))
    | .copy => some (move st t st.mut_ (.assign (st.data call.2)))
    | .assign data =>
      some { move st t st.mut_ .unlockRhs with data := Function.update st.data call.1 data }
    | .unlockRhs => some (move st t (Function.update st.mut_ call.2 none) .unlockLhs)
    | .unlockLhs =>
      some { move st t (Function.update st.mut_ call.1 none) .outside with
        todo := Function.update st.todo t todo }

/-! ### What every step preserves -/

/-- The objects whose mutex a thread has. -/
def Pc.held : Pc D → O × O → List O
  | .outside, _ | .wait _, _ => []
  | .tryOther own, call | .giveBack own, call => [side own call]
  | .copy, call | .assign _, call | .unlockRhs, call => [call.1, call.2]
  | .unlockLhs, call => [call.1]

def held (pc : Pc D) (todo : List (O × O)) : List O := todo.head?.elim [] pc.held

omit [DecidableEq T] [DecidableEq O] in
structure Inv (st : State T O D) : Prop where
  holds : ∀ t o, st.mut_ o = some t ↔ o ∈ held (st.pc t) (st.todo t)
  ne : ∀ t, st.pc t ≠ .outside → ∃ call todo, st.todo t = call :: todo ∧ call.1 ≠ call.2
  copied : ∀ t data call todo, st.pc t = .assign data → st.todo t = call :: todo →
    data = st.data call.2

omit [DecidableEq T] [DecidableEq O] in
theorem inv_init (data : O → D) (program : T → List (O × O)) : Inv (init data program) where
  holds t o := by
    cases h : program t <;> simp [init, held, Pc.held, h]
  ne t h := absurd rfl h
  copied t data call todo h := by cases h

section Steps

variable {st st' : State T O D} {t : T} {call : O × O} {todo : List (O × O)}

omit [DecidableEq O] in
/-- A step of one thread that writes only to what it holds. -/
theorem Inv.update (h : Inv st) {mut_ : O → Option T} {data : O → D} {pc : Pc D}
    {todo : List (O × O)} (hself : ∀ o, mut_ o = some t ↔ o ∈ held pc todo)
    (hothers : ∀ o u, u ≠ t → (mut_ o = some u ↔ st.mut_ o = some u))
    (hne : pc ≠ .outside → ∃ call rest, todo = call :: rest ∧ call.1 ≠ call.2)
    (hcopied : ∀ d call rest, pc = .assign d → todo = call :: rest → d = data call.2)
    (hdata : ∀ o, st.mut_ o ≠ some t → data o = st.data o) :
    Inv ⟨mut_, data, Function.update st.pc t pc, Function.update st.todo t todo⟩ where
  holds u o := by
    by_cases hut : u = t
    · subst hut
      simpa using hself o
    · simpa [hut] using (hothers o u hut).trans (h.holds u o)
  ne u hu := by
    by_cases hut : u = t
    · subst hut
      simpa using hne (by simpa using hu)
    · simpa [hut] using h.ne u (by simpa [hut] using hu)
  copied u d call rest hpc htodo := by
    by_cases hut : u = t
    · subst hut
      exact hcopied d call rest (by simpa using hpc) (by simpa using htodo)
    · have hpc : st.pc u = .assign d := by simpa [hut] using hpc
      have htodo : st.todo u = call :: rest := by simpa [hut] using htodo
      have howner : st.mut_ call.2 = some u := by
        rw [h.holds, hpc, htodo]
        simp [held, Pc.held]
      refine (h.copied u d call rest hpc htodo).trans (hdata call.2 ?_).symm
      rw [howner]
      exact fun heq => hut (Option.some.inj heq)

omit [DecidableEq O] in
theorem Inv.move (h : Inv st) (htodo : st.todo t = call :: todo) (hne : call.1 ≠ call.2)
    {mut_ : O → Option T} {data : O → D} {pc : Pc D}
    (hself : ∀ o, mut_ o = some t ↔ o ∈ pc.held call)
    (hothers : ∀ o u, u ≠ t → (mut_ o = some u ↔ st.mut_ o = some u))
    (hcopied : ∀ d, pc = .assign d → d = data call.2)
    (hdata : ∀ o, st.mut_ o ≠ some t → data o = st.data o) :
    Inv ⟨mut_, data, Function.update st.pc t pc, st.todo⟩ := by
  have hsame : Function.update st.todo t (call :: todo) = st.todo := by
    rw [← htodo, Function.update_eq_self]
  rw [← hsame]
  refine h.update hself hothers (fun _ => ⟨call, todo, rfl, hne⟩) ?_ hdata
  rintro d call' rest hpc ⟨⟩
  exact hcopied d hpc

omit [DecidableEq T] in
theorem acquire_others {mut_ : O → Option T} {o : O} (hfree : mut_ o = none) (o' : O) (u : T)
    (hut : u ≠ t) : Function.update mut_ o (some t) o' = some u ↔ mut_ o' = some u := by
  by_cases ho : o' = o
  · subst ho
    simp [hfree, hut.symm]
  · simp [ho]

omit [DecidableEq T] in
theorem release_others {mut_ : O → Option T} {o : O} (howner : mut_ o = some t) (o' : O) (u : T)
    (hut : u ≠ t) : Function.update mut_ o none o' = some u ↔ mut_ o' = some u := by
  by_cases ho : o' = o
  · subst ho
    simp [howner, hut.symm]
  · simp [ho]

/-- What a step does to the place of its thread, the mutexes and the data. -/
theorem step_cases (h : step st t = some st') : ∃ call todo, st.todo t = call :: todo ∧
    ((st.pc t = .outside ∧ call.1 = call.2 ∧
        st' = { st with todo := Function.update st.todo t todo }) ∨
      (st.pc t = .outside ∧ call.1 ≠ call.2 ∧ st' = move st t st.mut_ (.wait true)) ∨
      (∃ own, st.pc t = .wait own ∧ st.mut_ (side own call) = none ∧ st' =
        move st t (Function.update st.mut_ (side own call) (some t)) (.tryOther own)) ∨
      (∃ own, st.pc t = .tryOther own ∧ st.mut_ (side (!own) call) = none ∧ st' =
        move st t (Function.update st.mut_ (side (!own) call) (some t)) .copy) ∨
      (∃ own, st.pc t = .tryOther own ∧ st' = move st t st.mut_ (.giveBack own)) ∨
      (∃ own, st.pc t = .giveBack own ∧ st' =
        move st t (Function.update st.mut_ (side own call) none) (.wait (!own))) ∨
      (st.pc t = .copy ∧ st' = move st t st.mut_ (.assign (st.data call.2))) ∨
      (∃ data, st.pc t = .assign data ∧ st' =
        { move st t st.mut_ .unlockRhs with data := Function.update st.data call.1 data }) ∨
      (st.pc t = .unlockRhs ∧
        st' = move st t (Function.update st.mut_ call.2 none) .unlockLhs) ∨
      (st.pc t = .unlockLhs ∧
        st' = { move st t (Function.update st.mut_ call.1 none) .outside with
          todo := Function.update st.todo t todo })) := by
  unfold step at h
  cases htodo : st.todo t with
  | nil =>
    rw [htodo] at h
    cases h
  | cons call todo =>
    rw [htodo] at h
    refine ⟨call, todo, rfl, ?_⟩
    cases hpc : st.pc t with
    | outside =>
      simp only [hpc] at h
      split_ifs at h with heq
      · simp [heq, ← Option.some.inj h]
      · simp [heq, ← Option.some.inj h]
    | wait own =>
      simp only [hpc] at h
      split_ifs at h with hfree
      simp [hfree, ← Option.some.inj h]
    | tryOther own =>
      simp only [hpc] at h
      split_ifs at h with hfree
      · simp [hfree, ← Option.some.inj h]
      · simp [← Option.some.inj h]
    | giveBack own | copy | assign data | unlockRhs | unlockLhs =>
      simp only [hpc] at h
      simp [← Option.some.inj h]

omit [DecidableEq T] [DecidableEq O] in
theorem Inv.mem_held (h : Inv st) (htodo : st.todo t = call :: todo) (o : O) :
    st.mut_ o = some t ↔ o ∈ (st.pc t).held call := by
  rw [h.holds, htodo]
  rfl

omit [DecidableEq T] in
theorem acquire_self {mut_ : O → Option T} (o o' : O) :
    Function.update mut_ o (some t) o' = some t ↔ o' = o ∨ mut_ o' = some t := by
  by_cases ho : o' = o
  · simp [ho]
  · simp [ho]

omit [DecidableEq T] in
theorem release_self {mut_ : O → Option T} (o o' : O) :
    Function.update mut_ o none o' = some t ↔ o' ≠ o ∧ mut_ o' = some t := by
  by_cases ho : o' = o
  · simp [ho]
  · simp [ho]

theorem Inv.step (h : Inv st) (hstep : step st t = some st') : Inv st' := by
  obtain ⟨call, todo, htodo, hcases⟩ := step_cases hstep
  have hheld := h.mem_held htodo
  have hcall : st.pc t ≠ .outside → call.1 ≠ call.2 := by
    intro hpc
    obtain ⟨call', todo', htodo', hne⟩ := h.ne t hpc
    rw [htodo] at htodo'
    exact (List.cons.inj htodo').1 ▸ hne
  have hothers : ∀ o u, u ≠ t → (st.mut_ o = some u ↔ st.mut_ o = some u) :=
    fun _ _ _ => Iff.rfl
  have hdata : ∀ o, st.mut_ o ≠ some t → st.data o = st.data o := fun _ _ => rfl
  obtain ⟨hpc, heq, rfl⟩ | ⟨hpc, hne, rfl⟩ | ⟨own, hpc, hfree, rfl⟩ | ⟨own, hpc, hfree, rfl⟩ |
    ⟨own, hpc, rfl⟩ | ⟨own, hpc, rfl⟩ | ⟨hpc, rfl⟩ | ⟨data, hpc, rfl⟩ | ⟨hpc, rfl⟩ | ⟨hpc, rfl⟩ :=
    hcases
  · have hsame : Function.update st.pc t .outside = st.pc := by
      rw [← hpc, Function.update_eq_self]
    have hskip : Inv ⟨st.mut_, st.data, Function.update st.pc t .outside,
        Function.update st.todo t todo⟩ := by
      refine h.update (fun o => ?_) hothers (fun h => absurd rfl h) (fun _ _ _ h => nomatch h) hdata
      rw [hheld, hpc]
      cases todo <;> simp [Pc.held, held]
    rwa [hsame] at hskip
  · refine h.move htodo hne (fun o => ?_) hothers (fun _ h => nomatch h) hdata
    rw [hheld, hpc]
    rfl
  · refine h.move htodo (hcall (by simp [hpc])) (fun o => ?_) (acquire_others hfree)
      (fun _ h => nomatch h) hdata
    rw [acquire_self, hheld, hpc]
    simp [Pc.held]
  · refine h.move htodo (hcall (by simp [hpc])) (fun o => ?_) (acquire_others hfree)
      (fun _ h => nomatch h) hdata
    rw [acquire_self, hheld, hpc]
    cases own
    · simp [Pc.held, side]
    · simp [Pc.held, side, or_comm]
  · refine h.move htodo (hcall (by simp [hpc])) (fun o => ?_) hothers (fun _ h => nomatch h) hdata
    rw [hheld, hpc]
    rfl
  · have howner : st.mut_ (side own call) = some t := by
      rw [hheld, hpc]
      exact List.mem_singleton.mpr rfl
    refine h.move htodo (hcall (by simp [hpc])) (fun o => ?_) (release_others howner)
      (fun _ h => nomatch h) hdata
    rw [release_self, hheld, hpc]
    simp [Pc.held]
  · refine h.move htodo (hcall (by simp [hpc])) (fun o => ?_) hothers ?_ hdata
    · rw [hheld, hpc]
      rfl
    · rintro _ ⟨⟩
      rfl
  · have howner : st.mut_ call.1 = some t := by
      rw [hheld, hpc]
      exact List.mem_cons_self
    refine h.move htodo (hcall (by simp [hpc])) (fun o => ?_) hothers (fun _ h => nomatch h)
      (fun o ho => ?_)
    · refine (hheld o).trans ?_
      rw [hpc]
      rfl
    · refine Function.update_of_ne ?_ _ _
      rintro rfl
      exact ho howner
  · have hne := hcall (by simp [hpc])
    have howner : st.mut_ call.2 = some t := by
      rw [hheld, hpc]
      simp [Pc.held]
    refine h.move htodo hne (fun o => ?_) (release_others howner) (fun _ h => nomatch h) hdata
    rw [release_self, hheld, hpc]
    constructor
    · rintro ⟨ho, hmem⟩
      simpa [Pc.held, ho] using hmem
    · intro hmem
      obtain rfl := List.mem_singleton.mp hmem
      exact ⟨hne, List.mem_cons_self⟩
  · have howner : st.mut_ call.1 = some t := by
      rw [hheld, hpc]
      exact List.mem_singleton.mpr rfl
    refine h.update (fun o => ?_) (release_others howner) (fun h => absurd rfl h)
      (fun _ _ _ h => nomatch h) hdata
    refine (release_self call.1 o).trans ?_
    rw [hheld, hpc]
    cases todo <;> simp [Pc.held, held]

theorem step_others (hstep : SafeAssign.step st t = some st') (u : T) (hu : u ≠ t) :
    st'.pc u = st.pc u ∧ st'.todo u = st.todo u := by
  obtain ⟨call, todo, -, ⟨-, -, rfl⟩ | ⟨-, -, rfl⟩ | ⟨own, -, -, rfl⟩ | ⟨own, -, -, rfl⟩ |
    ⟨own, -, rfl⟩ | ⟨own, -, rfl⟩ | ⟨-, rfl⟩ | ⟨data, -, rfl⟩ | ⟨-, rfl⟩ | ⟨-, rfl⟩⟩ :=
    step_cases hstep
  all_goals simp [move, hu]

/-! ### The serial order -/

omit [DecidableEq T] in
def serial (data : O → D) (made : List (T × (O × O))) : O → D :=
  made.foldl (fun data e => Function.update data e.2.1 (data e.2.2)) data

/-- The calls to come. One that has assigned is made. -/
def remaining : Pc D → List (O × O) → List (O × O)
  | .unlockRhs, todo | .unlockLhs, todo => todo.tail
  | _, todo => todo

structure Explains (data : O → D) (program : T → List (O × O)) (st : State T O D)
    (made : List (T × (O × O))) : Prop where
  data_eq : st.data = serial data made
  program_eq : ∀ t, program t = callsOf made t ++ remaining (st.pc t) (st.todo t)

namespace Explains

variable {data : O → D} {program : T → List (O × O)} {made : List (T × (O × O))}

theorem same (h : Explains data program st made) (hstep : SafeAssign.step st t = some st')
    (hdata : st'.data = st.data)
    (hself : remaining (st'.pc t) (st'.todo t) = remaining (st.pc t) (st.todo t)) :
    Explains data program st' made where
  data_eq := hdata.trans h.data_eq
  program_eq u := by
    by_cases hut : u = t
    · rw [hut, hself, h.program_eq]
    · rw [(step_others hstep u hut).1, (step_others hstep u hut).2, h.program_eq]

theorem assigned (h : Explains data program st made) (hstep : SafeAssign.step st t = some st')
    (hdata : st'.data = Function.update st.data call.1 (st.data call.2))
    (hself : call :: remaining (st'.pc t) (st'.todo t) = remaining (st.pc t) (st.todo t)) :
    Explains data program st' (made ++ [(t, call)]) where
  data_eq := by
    rw [hdata, h.data_eq, serial, serial, List.foldl_concat]
  program_eq u := by
    by_cases hut : u = t
    · rw [hut, callsOf_concat_self, List.append_assoc, List.singleton_append, hself, h.program_eq]
    · rw [callsOf_concat_of_ne hut, (step_others hstep u hut).1, (step_others hstep u hut).2,
        h.program_eq]

theorem step (h : Explains data program st made) (hinv : Inv st)
    (hstep : SafeAssign.step st t = some st') : ∃ made', Explains data program st' made' := by
  obtain ⟨call, todo, htodo, hcases⟩ := step_cases hstep
  obtain ⟨hpc, heq, rfl⟩ | ⟨hpc, hne, rfl⟩ | ⟨own, hpc, hfree, rfl⟩ | ⟨own, hpc, hfree, rfl⟩ |
    ⟨own, hpc, rfl⟩ | ⟨own, hpc, rfl⟩ | ⟨hpc, rfl⟩ | ⟨d, hpc, rfl⟩ | ⟨hpc, rfl⟩ | ⟨hpc, rfl⟩ :=
    hcases
  · -- an object assigned to itself is left as it is
    have hself : st.data = Function.update st.data call.1 (st.data call.2) := by
      rw [← heq, Function.update_eq_self]
    exact ⟨made ++ [(t, call)], h.assigned hstep hself (by simp [hpc, htodo, remaining])⟩
  · exact ⟨made, h.same hstep rfl (by simp [move, hpc, remaining])⟩
  · exact ⟨made, h.same hstep rfl (by simp [move, hpc, remaining])⟩
  · exact ⟨made, h.same hstep rfl (by simp [move, hpc, remaining])⟩
  · exact ⟨made, h.same hstep rfl (by simp [move, hpc, remaining])⟩
  · exact ⟨made, h.same hstep rfl (by simp [move, hpc, remaining])⟩
  · exact ⟨made, h.same hstep rfl (by simp [move, hpc, remaining])⟩
  · obtain rfl := hinv.copied t d call todo hpc htodo
    exact ⟨made ++ [(t, call)], h.assigned hstep rfl (by simp [move, hpc, htodo, remaining])⟩
  · exact ⟨made, h.same hstep rfl (by simp [move, hpc, remaining])⟩
  · exact ⟨made, h.same hstep rfl (by simp [move, hpc, htodo, remaining])⟩

end Explains

theorem explains_run {data : O → D} {program : T → List (O × O)} {ts : List T}
    (h : run SafeAssign.step (init data program) ts = some st) :
    Inv st ∧ ∃ made, Explains data program st made :=
  run_invariant (P := fun st : State T O D => Inv st ∧ ∃ made, Explains data program st made)
    (fun _ _ _ h hstep => ⟨h.1.step hstep, h.2.elim fun _ hmade => hmade.step h.1 hstep⟩) ts
    ⟨inv_init data program, [], rfl, fun _ => rfl⟩ h

/-- Whatever the interleaving, the data are those of some order of the assignments, one after
another, in which each thread makes its own in the order of its program. -/
theorem run_serial {data : O → D} {program : T → List (O × O)} (ts : List T)
    (h : run SafeAssign.step (init data program) ts = some st) :
    ∃ made, st.data = serial data made ∧
      ∀ t, program t = callsOf made t ++ remaining (st.pc t) (st.todo t) := by
  obtain ⟨-, made, hmade⟩ := explains_run h
  exact ⟨made, hmade.data_eq, hmade.program_eq⟩

/-! ### No deadlock -/

/-- It falls in every step but that from `wait` to `tryOther`. -/
def Pc.weight : Pc D → ℕ
  | .outside => 9
  | .wait _ => 6
  | .tryOther _ => 8
  | .giveBack _ => 7
  | .copy => 4
  | .assign _ => 3
  | .unlockRhs => 2
  | .unlockLhs => 1

def weight (st : State T O D) (t : T) : ℕ := 10 * (st.todo t).length + (st.pc t).weight

/-- A thread that does not wait in front of its first mutex can go on. -/
theorem exists_step_of_ne_wait (hne : st.todo t ≠ []) (hwait : ∀ own, st.pc t ≠ .wait own) :
    ∃ st', SafeAssign.step st t = some st' ∧ weight st' t < weight st t := by
  obtain ⟨call, todo, htodo⟩ := List.exists_cons_of_ne_nil hne
  unfold SafeAssign.step weight
  rw [htodo]
  cases hpc : st.pc t with
  | outside =>
    by_cases hself : call.1 = call.2
    · simp [hpc, hself, Pc.weight]
    · simp [hself, htodo, move, Pc.weight]
  | wait own => exact absurd hpc (hwait own)
  | tryOther own =>
    by_cases hfree : st.mut_ (side (!own) call) = none
    · simp [hfree, htodo, move, Pc.weight]
    · simp [hfree, htodo, move, Pc.weight]
  | giveBack own | copy | assign d | unlockRhs => simp [htodo, move, Pc.weight]
  | unlockLhs =>
    refine ⟨_, rfl, ?_⟩
    simp only [move, Function.update_self, Pc.weight, List.length_cons]
    omega

/-- Where no mutex is taken, a thread that waits gets both. -/
theorem exists_run_of_wait (h : Inv st) {own : Bool} (hpc : st.pc t = .wait own)
    (hfree : ∀ o, st.mut_ o = none) :
    ∃ st', run SafeAssign.step st [t, t] = some st' ∧ weight st' t < weight st t := by
  obtain ⟨call, todo, htodo, hne⟩ := h.ne t (by simp [hpc])
  have hside : side (!own) call ≠ side own call := by
    cases own
    · exact hne
    · exact hne.symm
  have hwait : SafeAssign.step st t = some (move st t
      (Function.update st.mut_ (side own call) (some t)) (.tryOther own)) := by
    simp only [SafeAssign.step, htodo, hpc]
    exact if_pos (hfree _)
  have htry : SafeAssign.step (move st t (Function.update st.mut_ (side own call) (some t))
      (.tryOther own)) t = some (move (move st t (Function.update st.mut_ (side own call) (some t))
        (.tryOther own)) t (Function.update (Function.update st.mut_ (side own call) (some t))
          (side (!own) call) (some t)) .copy) := by
    simp [SafeAssign.step, move, htodo, hside, hfree]
  refine ⟨_, by rw [run_cons, hwait, Option.bind_some, run_cons, htry]; rfl, ?_⟩
  simp [weight, move, hpc, Pc.weight]

/-- Some thread can go on by itself, as long as a thread has calls to make. -/
theorem Inv.exists_run (h : Inv st) (hne : st.todo t ≠ []) : ∃ u n st',
    run SafeAssign.step st (List.replicate n u) = some st' ∧ weight st' u < weight st u := by
  by_cases hbusy : ∃ u, st.todo u ≠ [] ∧ ∀ own, st.pc u ≠ .wait own
  · obtain ⟨u, htodo, hwait⟩ := hbusy
    obtain ⟨st', hstep, hlt⟩ := exists_step_of_ne_wait htodo hwait
    exact ⟨u, 1, st', by rw [List.replicate_one, run_cons, hstep]; rfl, hlt⟩
  · have hwait : ∀ u, st.todo u ≠ [] → ∃ own, st.pc u = .wait own := by
      intro u htodo
      by_contra hnone
      exact hbusy ⟨u, htodo, fun own hown => hnone ⟨own, hown⟩⟩
    have hfree : ∀ o, st.mut_ o = none := by
      intro o
      by_contra howner
      obtain ⟨u, hu⟩ := Option.ne_none_iff_exists'.mp howner
      rw [h.holds] at hu
      cases htodo : st.todo u with
      | nil =>
        rw [htodo] at hu
        exact nomatch hu
      | cons call todo =>
        obtain ⟨own, hown⟩ := hwait u (by simp [htodo])
        rw [htodo, hown] at hu
        exact nomatch hu
    obtain ⟨own, hown⟩ := hwait t hne
    obtain ⟨st', hrun, hlt⟩ := exists_run_of_wait h hown hfree
    exact ⟨t, 2, st', hrun, hlt⟩

theorem weight_others {n : ℕ} (h : run SafeAssign.step st (List.replicate n t) = some st') (u : T)
    (hu : u ≠ t) : weight st' u = weight st u := by
  induction n generalizing st with
  | zero =>
    obtain rfl := Option.some.inj h
    rfl
  | succ n ih =>
    rw [List.replicate_succ, run_cons, Option.bind_eq_some_iff] at h
    obtain ⟨st₁, hstep, hrest⟩ := h
    rw [ih hrest, weight, (step_others hstep u hu).1, (step_others hstep u hu).2, weight]

variable [Fintype T]

/-- From wherever a run has come, all calls can still be made. -/
theorem Inv.exists_run_done (h : Inv st) : ∃ ts st', run SafeAssign.step st ts = some st' ∧
    ∀ t, st'.todo t = [] := by
  induction hm : ∑ t, weight st t using Nat.strong_induction_on generalizing st with
  | _ m ih =>
    by_cases hdone : ∀ t, st.todo t = []
    · exact ⟨[], st, rfl, hdone⟩
    · obtain ⟨t, ht⟩ := not_forall.mp hdone
      obtain ⟨u, n, st₁, hrun, hlt⟩ := h.exists_run ht
      have hsum : ∑ t, weight st₁ t < ∑ t, weight st t := by
        refine Finset.sum_lt_sum (fun v _ => ?_) ⟨u, Finset.mem_univ u, hlt⟩
        by_cases hvu : v = u
        · exact hvu ▸ hlt.le
        · exact (weight_others hrun v hvu).le
      have hinv : Inv st₁ := run_invariant (fun _ _ _ h hstep => h.step hstep) _ h hrun
      obtain ⟨ts, st', hrest, hdone'⟩ := ih _ (hm ▸ hsum) hinv rfl
      exact ⟨List.replicate n u ++ ts, st', by rw [run_append, hrun]; exact hrest, hdone'⟩

/-- There is no deadlock: every run can be carried on until all assignments have been made. -/
theorem run_exists_done {data : O → D} {program : T → List (O × O)} (ts : List T)
    (h : run SafeAssign.step (init data program) ts = some st) :
    ∃ ts' st', run SafeAssign.step (init data program) (ts ++ ts') = some st' ∧
      (∀ t, st'.todo t = []) ∧ ∃ made, st'.data = serial data made ∧
        ∀ t, program t = callsOf made t := by
  obtain ⟨ts', st', hrest, hdone⟩ := (explains_run h).1.exists_run_done
  have hrun : run SafeAssign.step (init data program) (ts ++ ts') = some st' := by
    rw [run_append, h]
    exact hrest
  obtain ⟨-, made, hmade⟩ := explains_run hrun
  refine ⟨ts', st', hrun, hdone, made, hmade.data_eq, fun t => ?_⟩
  have hremaining : remaining (st'.pc t) ([] : List (O × O)) = [] := by
    cases st'.pc t <;> rfl
  rw [hmade.program_eq, hdone, hremaining, List.append_nil]

end Steps

/-- Two objects assigned to each other, each thread with a mutex that the other one wants: one gives
its mutex back, and both assignments are made. -/
theorem run_serial_crossed :
    ∃ st, run step (init (fun o : Bool => if o then 1 else 2) fun t : Bool => [(t, !t)])
        ([true, false, true, false, true, true] ++ .replicate 5 false ++ .replicate 6 true) =
          some st ∧
      (∀ t, st.todo t = []) ∧ st.data false = 1 ∧
      ∃ made, st.data = serial (fun o : Bool => if o then 1 else 2) made ∧
        ∀ t, [(t, !t)] = callsOf made t ++ remaining (st.pc t) (st.todo t) :=
  ⟨_, rfl, by decide, rfl, run_serial
    ([true, false, true, false, true, true] ++ .replicate 5 false ++ .replicate 6 true) rfl⟩

theorem run_exists_done_crossed :
    ∃ ts' st', run step (init (fun o : Bool => if o then 1 else 2) fun t : Bool => [(t, !t)])
        ([true, false, true, false, true] ++ ts') = some st' ∧
      (∀ t, st'.todo t = []) ∧ ∃ made, st'.data = serial (fun o : Bool => if o then 1 else 2) made ∧
        ∀ t, [(t, !t)] = callsOf made t :=
  run_exists_done [true, false, true, false, true] rfl

end SafeAssign

end CppTricks.Sync
