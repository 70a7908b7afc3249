import CppTricks.Foundation.Runs
import Mathlib.Data.List.Basic
import Mathlib.Logic.Function.Basic

/-! Objects whose calls do some work of their own and then one critical section, and the
linearizability of every interleaving of them. -/
namespace Foundation

variable {Thread C L R S Q : Type}

/-- What a thread does to an object; `atomic` is the point at which its call takes effect. -/
inductive Stage (C R : Type)
  | invoke (c : C)
  | atomic (c : C) (r : R)
  | respond (r : R)

inductive Pending (C R : Type)
  | idle
  | invoked (c : C)
  | answered (r : R)

/-- The stages of one thread: whole calls one after another, then perhaps an unfinished one. -/
inductive Follows : List (Stage C R) → Pending C R → Prop
  | start : Follows [] .idle
  | invoke {es} (c : C) : Follows es .idle → Follows (es ++ [.invoke c]) (.invoked c)
  | atomic {es c} (r : R) : Follows es (.invoked c) → Follows (es ++ [.atomic c r]) (.answered r)
  | respond {es r} : Follows es (.answered r) → Follows (es ++ [.respond r]) .idle

/-- The stages of all threads in the order in which they happened. -/
abbrev History (Thread C R : Type) := List (Thread × Stage C R)

namespace Stage

/-- Only the invocation and the response of a call can be seen from outside. -/
def visible : Stage C R → Bool
  | atomic _ _ => false
  | _ => true

def point? : Stage C R → Option (C × R)
  | atomic c r => some (c, r)
  | _ => none

end Stage

namespace History

def ofThread [DecidableEq Thread] (h : History Thread C R) (t : Thread) : List (Stage C R) :=
  (h.filter fun e => e.1 = t).map Prod.snd

def visible (h : History Thread C R) : History Thread C R := h.filter fun e => e.2.visible

/-- The calls in the order in which they took effect, with their answers. -/
def points (h : History Thread C R) : List (C × R) := h.filterMap fun e => e.2.point?

variable (h : History Thread C R) (t u : Thread) (e : Stage C R)

theorem ofThread_append_self [DecidableEq Thread] :
    ofThread (h ++ [(t, e)]) t = h.ofThread t ++ [e] := by
  simp [ofThread]

theorem ofThread_append_of_ne [DecidableEq Thread] (htu : t ≠ u) :
    ofThread (h ++ [(t, e)]) u = h.ofThread u := by
  simp [ofThread, htu]

theorem points_append_of_none (he : e.point? = none) :
    points (h ++ [(t, e)]) = h.points := by
  simp [points, he]

theorem points_append_atomic (c : C) (r : R) :
    points (h ++ [(t, .atomic c r)]) = h.points ++ [(c, r)] := by
  simp [points, Stage.point?]

end History

/-- Every call can be given a point between its invocation and its response such that the object,
serving the calls in the order of their points, gives the answers the threads got. -/
def Linearizable [DecidableEq Thread] (call : Q → C → Option (R × Q)) (q : Q)
    (h : History Thread C R) : Prop :=
  ∃ h' : History Thread C R, h'.visible = h ∧ (∀ t, ∃ p, Follows (h'.ofThread t) p) ∧
    ∃ q', serve call q (h'.points.map Prod.fst) = some (h'.points.map Prod.snd, q')

/-- An object with a lock: `prepare` is what a call does before it takes the lock, `critical` its
critical section. -/
structure LockedObject (S C L R : Type) where
  prepare : C → L
  critical : S → L → R × S

/-- Where a thread is in its call. -/
inductive Phase (C L R : Type)
  | idle
  | invoked (c : C)
  | prepared (c : C) (l : L)
  | answered (r : R)

@[simp] def Phase.pending : Phase C L R → Pending C R
  | idle => .idle
  | invoked c => .invoked c
  | prepared c _ => .invoked c
  | answered r => .answered r

/-- The object, the phase of every thread and, for the record, what has happened. -/
structure Threads (Thread S C L R : Type) where
  object : S
  phase : Thread → Phase C L R
  history : History Thread C R

def Threads.start (s : S) : Threads Thread S C L R := ⟨s, fun _ => .idle, []⟩

inductive ThreadAction (Thread C : Type)
  | invoke (t : Thread) (c : C)
  | prepare (t : Thread)
  | critical (t : Thread)
  | respond (t : Thread)

namespace LockedObject

variable [DecidableEq Thread] (o : LockedObject S C L R)

/-- The call without the threads: its local work and its critical section at one go. -/
def call (s : S) (c : C) : Option (R × S) := some (o.critical s (o.prepare c))

def step (st : Threads Thread S C L R) : ThreadAction Thread C → Option (Threads Thread S C L R)
  | .invoke t c =>
    match st.phase t with
    | .idle => some
      { st with
        phase := Function.update st.phase t (.invoked c)
        history := st.history ++ [(t, .invoke c)] }
    | _ => none
  | .prepare t =>
    match st.phase t with
    | .invoked c => some
      { st with phase := Function.update st.phase t (.prepared c (o.prepare c)) }
    | _ => none
  | .critical t =>
    match st.phase t with
    | .prepared c l =>
      let (r, object) := o.critical st.object l
      some
        { object := object
          phase := Function.update st.phase t (.answered r)
          history := st.history ++ [(t, .atomic c r)] }
    | _ => none
  | .respond t =>
    match st.phase t with
    | .answered r => some
      { st with
        phase := Function.update st.phase t .idle
        history := st.history ++ [(t, .respond r)] }
    | _ => none

section Inversion

variable {o} {st st' : Threads Thread S C L R} {t : Thread} {c : C}

theorem step_invoke : o.step st (.invoke t c) = some st' ↔
    st.phase t = .idle ∧ st' = { st with
      phase := Function.update st.phase t (.invoked c)
      history := st.history ++ [(t, .invoke c)] } := by
  cases h : st.phase t <;> simp [step, h, eq_comm]

theorem step_prepare : o.step st (.prepare t) = some st' ↔
    ∃ c, st.phase t = .invoked c ∧ st' = { st with
      phase := Function.update st.phase t (.prepared c (o.prepare c)) } := by
  cases h : st.phase t <;> simp [step, h, eq_comm]

theorem step_critical : o.step st (.critical t) = some st' ↔
    ∃ c l, st.phase t = .prepared c l ∧ st' =
      { object := (o.critical st.object l).2
        phase := Function.update st.phase t (.answered (o.critical st.object l).1)
        history := st.history ++ [(t, .atomic c (o.critical st.object l).1)] } := by
  cases h : st.phase t <;> simp [step, h, eq_comm]

/-- The critical section of a thread's call decides its answer and the object. -/
theorem phase_object_critical {l : L} (h : o.step st (.critical t) = some st')
    (hp : st.phase t = .prepared c l) :
    st'.phase t = .answered (o.critical st.object l).1 ∧
      st'.object = (o.critical st.object l).2 := by
  obtain ⟨c', l', hp', rfl⟩ := step_critical.mp h
  obtain ⟨rfl, rfl⟩ := Phase.prepared.inj (hp.symm.trans hp')
  simp

theorem step_respond : o.step st (.respond t) = some st' ↔
    ∃ r, st.phase t = .answered r ∧ st' = { st with
      phase := Function.update st.phase t .idle
      history := st.history ++ [(t, .respond r)] } := by
  cases h : st.phase t <;> simp [step, h, eq_comm]

end Inversion

/-- The record explains the object and the phases. -/
structure Explains (s : S) (st : Threads Thread S C L R) : Prop where
  served : serve o.call s (st.history.points.map Prod.fst) =
    some (st.history.points.map Prod.snd, st.object)
  follows : ∀ t, Follows (st.history.ofThread t) (st.phase t).pending
  prepared : ∀ t c l, st.phase t = .prepared c l → l = o.prepare c

variable {o} {s : S} {st st' : Threads Thread S C L R} {a : ThreadAction Thread C}

theorem explains_start (s : S) : o.Explains s (.start s : Threads Thread S C L R) where
  served := rfl
  follows := fun _ => .start
  prepared := fun _ _ _ h => by cases h

private theorem follows_update {h : History Thread C R} {phase : Thread → Phase C L R} {t : Thread}
    {e : Stage C R} {p : Phase C L R} (hall : ∀ u, Follows (h.ofThread u) (phase u).pending)
    (hnew : Follows (h.ofThread t ++ [e]) p.pending) (u : Thread) :
    Follows (History.ofThread (h ++ [(t, e)]) u) (Function.update phase t p u).pending := by
  by_cases hu : t = u
  · subst u
    rw [History.ofThread_append_self, Function.update_self]
    exact hnew
  · rw [History.ofThread_append_of_ne h t u e hu, Function.update_of_ne (Ne.symm hu)]
    exact hall u

private theorem prepared_update {phase : Thread → Phase C L R} {t : Thread} {p : Phase C L R}
    (hall : ∀ u c l, phase u = .prepared c l → l = o.prepare c)
    (hnew : ∀ c l, p = .prepared c l → l = o.prepare c) (u : Thread) (c : C) (l : L)
    (h : Function.update phase t p u = .prepared c l) : l = o.prepare c := by
  by_cases hu : u = t
  · subst u
    rw [Function.update_self] at h
    exact hnew c l h
  · rw [Function.update_of_ne hu] at h
    exact hall u c l h

theorem Explains.step (h : o.Explains s st) (hstep : o.step st a = some st') :
    o.Explains s st' := by
  cases a with
  | invoke t c =>
    obtain ⟨hp, rfl⟩ := step_invoke.mp hstep
    have hidle : Follows (st.history.ofThread t) .idle := by simpa [hp] using h.follows t
    constructor
    · rw [History.points_append_of_none _ _ _ rfl]
      exact h.served
    · exact follows_update h.follows (.invoke c hidle)
    · exact prepared_update h.prepared fun _ _ hc => by cases hc
  | prepare t =>
    obtain ⟨c, hp, rfl⟩ := step_prepare.mp hstep
    constructor
    · exact h.served
    · intro u
      by_cases hu : u = t
      · subst u
        simpa [hp] using h.follows t
      · simpa [hu] using h.follows u
    · apply prepared_update h.prepared
      intro c' l hc
      obtain ⟨rfl, rfl⟩ := Phase.prepared.inj hc
      rfl
  | critical t =>
    obtain ⟨c, l, hp, rfl⟩ := step_critical.mp hstep
    have hinvoked : Follows (st.history.ofThread t) (.invoked c) := by
      simpa [hp] using h.follows t
    obtain rfl := h.prepared t c l hp
    constructor
    · rw [History.points_append_atomic, List.map_append, List.map_append]
      exact serve_append_singleton h.served rfl
    · exact follows_update h.follows (.atomic _ hinvoked)
    · exact prepared_update h.prepared fun _ _ hc => by cases hc
  | respond t =>
    obtain ⟨r, hp, rfl⟩ := step_respond.mp hstep
    have hanswered : Follows (st.history.ofThread t) (.answered r) := by
      simpa [hp] using h.follows t
    constructor
    · rw [History.points_append_of_none _ _ _ rfl]
      exact h.served
    · exact follows_update h.follows (.respond hanswered)
    · exact prepared_update h.prepared fun _ _ hc => by cases hc

theorem explains_of_run {as : List (ThreadAction Thread C)}
    (h : run o.step (.start s) as = some st) : o.Explains s st :=
  run_invariant (fun _ _ _ hs => hs.step) as (explains_start s) h

/-- An object whose calls, each at one go, simulate an object `call` is linearizable as that. -/
theorem Explains.linearizable {call : Q → C → Option (R × Q)} {rel : S → Q → Prop}
    (h : o.Explains s st) (hsim : Simulates rel o.call call) {q : Q} (hq : rel s q) :
    Linearizable call q st.history.visible := by
  have hrun := hsim.serve (st.history.points.map Prod.fst) s q hq
  rw [h.served] at hrun
  obtain ⟨q', hserved, -⟩ := hrun.eq_some
  exact ⟨st.history, rfl, fun t => ⟨_, h.follows t⟩, q', hserved⟩

end LockedObject

end Foundation
