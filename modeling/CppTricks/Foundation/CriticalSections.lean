import CppTricks.Foundation.Runs
import Mathlib.Algebra.BigOperators.Group.Finset.Piecewise
import Mathlib.Algebra.Order.BigOperators.Group.Finset
import Mathlib.Algebra.Ring.Nat
import Mathlib.Data.Fintype.Basic

/-! Threads whose calls are critical sections of several accesses under one lock: their runs are
serial. -/
namespace Foundation

variable {T S L C : Type}

/-- One access to the shared state and the variables of the thread. -/
abbrev Access (S L : Type) := S × L → S × L

/-- A thread: its variables, what is left of the section that it is in, and the calls to come. -/
structure Worker (S L C : Type) where
  vars : L
  inside : Option (List (Access S L))
  todo : List C

structure Workers (T S L C : Type) where
  shared : S
  owner : Option T
  worker : T → Worker S L C

namespace Workers

def start (s : S) (vars : T → L) (program : T → List C) : Workers T S L C :=
  ⟨s, none, fun t => ⟨vars t, none, program t⟩⟩

def Done (st : Workers T S L C) : Prop :=
  ∀ t, (st.worker t).inside = none ∧ (st.worker t).todo = []

def memory (st : Workers T S L C) : S × (T → L) := (st.shared, fun t => (st.worker t).vars)

variable [DecidableEq T] (code : C → List (Access S L))

/-- A thread takes the lock for its next call, makes an access, or gives the lock back. `none`: it
waits for the lock, or it is done. -/
def step (st : Workers T S L C) (t : T) : Option (Workers T S L C) :=
  match st.worker t with
  | ⟨_, none, []⟩ => none
  | ⟨vars, none, call :: todo⟩ =>
    if st.owner = none then
      some ⟨st.shared, some t, Function.update st.worker t ⟨vars, some (code call), todo⟩⟩
    else none
  | ⟨vars, some (access :: rest), todo⟩ =>
    let (shared, vars) := access (st.shared, vars)
    some ⟨shared, st.owner, Function.update st.worker t ⟨vars, some rest, todo⟩⟩
  | ⟨vars, some [], todo⟩ =>
    some ⟨st.shared, none, Function.update st.worker t ⟨vars, none, todo⟩⟩

/-! ### Serial runs -/

/-- The accesses of one thread, one after another. -/
def perform (t : T) (accesses : List (Access S L)) (p : S × (T → L)) : S × (T → L) :=
  let (s, l) := accesses.foldl (fun q access => access q) (p.1, p.2 t)
  (s, Function.update p.2 t l)

def serial (s : S) (vars : T → L) (made : List (T × C)) : S × (T → L) :=
  made.foldl (fun p e => perform e.1 (code e.2) p) (s, vars)

def callsOf (made : List (T × C)) (t : T) : List C := (made.filter fun e => e.1 = t).map Prod.snd

theorem perform_nil (t : T) (p : S × (T → L)) : perform t [] p = p :=
  Prod.ext rfl (Function.update_eq_self t p.2)

theorem perform_concat (t : T) (accesses : List (Access S L)) (access : Access S L)
    (p : S × (T → L)) : perform t (accesses ++ [access]) p =
      let q := perform t accesses p
      let r := access (q.1, q.2 t)
      (r.1, Function.update q.2 t r.2) := by
  simp [perform]

theorem callsOf_concat_self (made : List (T × C)) (t : T) (call : C) :
    callsOf (made ++ [(t, call)]) t = callsOf made t ++ [call] := by
  simp [callsOf]

theorem callsOf_concat_of_ne {t u : T} (hut : u ≠ t) (made : List (T × C)) (call : C) :
    callsOf (made ++ [(t, call)]) u = callsOf made u := by
  simp [callsOf, hut.symm]

/-- The calls that have been made, in their order, explain the state: the memory is that of the
serial run, after which the owner of the lock has made the first accesses of its own call. -/
structure Explains (s : S) (vars : T → L) (program : T → List C) (st : Workers T S L C)
    (made : List (T × C)) : Prop where
  free : st.owner = none → (∀ t, (st.worker t).inside = none) ∧
    st.memory = serial code s vars made ∧ ∀ t, program t = callsOf made t ++ (st.worker t).todo
  held : ∀ t, st.owner = some t → ∃ call accesses rest, code call = accesses ++ rest ∧
    (st.worker t).inside = some rest ∧ (∀ u, u ≠ t → (st.worker u).inside = none) ∧
    st.memory = perform t accesses (serial code s vars made) ∧
    program t = callsOf made t ++ call :: (st.worker t).todo ∧
    ∀ u, u ≠ t → program u = callsOf made u ++ (st.worker u).todo

variable {code} {st st' : Workers T S L C} {program : T → List C} {s : S} {vars : T → L} {t : T}

theorem step_cases (h : st.step code t = some st') :
    (∃ vars call todo, st.worker t = ⟨vars, none, call :: todo⟩ ∧ st.owner = none ∧
      st' = ⟨st.shared, some t, Function.update st.worker t ⟨vars, some (code call), todo⟩⟩) ∨
    (∃ vars access rest todo, st.worker t = ⟨vars, some (access :: rest), todo⟩ ∧
      st' = ⟨(access (st.shared, vars)).1, st.owner,
        Function.update st.worker t ⟨(access (st.shared, vars)).2, some rest, todo⟩⟩) ∨
    ∃ vars todo, st.worker t = ⟨vars, some [], todo⟩ ∧
      st' = ⟨st.shared, none, Function.update st.worker t ⟨vars, none, todo⟩⟩ := by
  unfold step at h
  split at h
  · cases h
  · rename_i vars call todo hworker
    split_ifs at h with howner
    exact Or.inl ⟨vars, call, todo, hworker, howner, (Option.some.inj h).symm⟩
  · rename_i vars access rest todo hworker
    exact Or.inr (Or.inl ⟨vars, access, rest, todo, hworker, (Option.some.inj h).symm⟩)
  · rename_i vars todo hworker
    exact Or.inr (Or.inr ⟨vars, todo, hworker, (Option.some.inj h).symm⟩)

theorem memory_update {w : Worker S L C} {shared : S} {owner : Option T} :
    memory ⟨shared, owner, Function.update st.worker t w⟩ =
      (shared, Function.update st.memory.2 t w.vars) := by
  refine Prod.ext rfl (funext fun u => ?_)
  by_cases hut : u = t
  · subst hut
    simp [memory]
  · simp [memory, hut]

theorem serial_concat (made : List (T × C)) (e : T × C) :
    serial code s vars (made ++ [e]) = perform e.1 (code e.2) (serial code s vars made) := by
  unfold serial
  rw [List.foldl_concat]

namespace Explains

variable {made : List (T × C)}

theorem start (s : S) (vars : T → L) (program : T → List C) :
    Explains code s vars program (.start s vars program) [] where
  free _ := ⟨fun _ => rfl, rfl, fun _ => rfl⟩
  held t h := by cases h

theorem owner_of_inside (h : Explains code s vars program st made) {rest : List (Access S L)}
    (hinside : (st.worker t).inside = some rest) : st.owner = some t := by
  cases howner : st.owner with
  | none =>
    rw [(h.free howner).1 t] at hinside
    cases hinside
  | some u =>
    obtain ⟨-, -, -, -, -, hothers, -⟩ := h.held u howner
    by_contra hne
    rw [hothers t fun htu => hne (congrArg some htu.symm)] at hinside
    cases hinside

theorem acquire (h : Explains code s vars program st made) {v : L} {call : C} {todo : List C}
    (hworker : st.worker t = ⟨v, none, call :: todo⟩) (howner : st.owner = none) :
    Explains code s vars program
      ⟨st.shared, some t, Function.update st.worker t ⟨v, some (code call), todo⟩⟩ made where
  free h := by cases h
  held u hu := by
    obtain rfl := Option.some.inj hu
    obtain ⟨hinside, hmemory, hprogram⟩ := h.free howner
    refine ⟨call, [], code call, rfl, by simp, fun u hu => by simp [hu, hinside u], ?_, ?_,
      fun u hu => ?_⟩
    · have hv : st.memory.2 t = v := congrArg Worker.vars hworker
      rw [memory_update, perform_nil, ← hmemory, ← hv, Function.update_eq_self]
      rfl
    · rw [hprogram t, hworker]
      simp
    · rw [hprogram u]
      simp [hu]

theorem access (h : Explains code s vars program st made) {v : L} {access : Access S L}
    {rest : List (Access S L)} {todo : List C}
    (hworker : st.worker t = ⟨v, some (access :: rest), todo⟩) :
    Explains code s vars program ⟨(access (st.shared, v)).1, st.owner,
      Function.update st.worker t ⟨(access (st.shared, v)).2, some rest, todo⟩⟩ made := by
  have howner : st.owner = some t := h.owner_of_inside (congrArg Worker.inside hworker)
  constructor
  · intro hfree
    rw [howner] at hfree
    cases hfree
  · intro u hu
    obtain rfl := Option.some.inj (howner.symm.trans hu)
    obtain ⟨call, accesses, rest', hcode, hinside, hothers, hmemory, hprogram, hprograms⟩ :=
      h.held t howner
    rw [hworker] at hinside hprogram
    obtain rfl := Option.some.inj hinside
    refine ⟨call, accesses ++ [access], rest, by rw [hcode, List.append_assoc]; rfl, by simp,
      fun u hu => by simp [hu, hothers u hu], ?_, ?_, fun u hu => by simp [hu, hprograms u hu]⟩
    · have hshared : st.shared = st.memory.1 := rfl
      have hv : v = st.memory.2 t := (congrArg Worker.vars hworker).symm
      rw [memory_update, perform_concat, ← hmemory, hshared, hv]
    · rw [hprogram]
      simp

theorem release (h : Explains code s vars program st made) {v : L} {todo : List C}
    (hworker : st.worker t = ⟨v, some [], todo⟩) :
    ∃ call, Explains code s vars program
      ⟨st.shared, none, Function.update st.worker t ⟨v, none, todo⟩⟩ (made ++ [(t, call)]) := by
  have howner : st.owner = some t := h.owner_of_inside (congrArg Worker.inside hworker)
  obtain ⟨call, accesses, rest, hcode, hinside, hothers, hmemory, hprogram, hprograms⟩ :=
    h.held t howner
  rw [hworker] at hinside hprogram
  obtain rfl := Option.some.inj hinside
  rw [List.append_nil] at hcode
  refine ⟨call, ⟨fun _ => ⟨fun u => ?_, ?_, fun u => ?_⟩, fun u hu => by cases hu⟩⟩
  · by_cases hut : u = t
    · simp [hut]
    · simp [hut, hothers u hut]
  · have hv : v = st.memory.2 t := (congrArg Worker.vars hworker).symm
    rw [memory_update, serial_concat, hcode, ← hmemory, hv, Function.update_eq_self]
    rfl
  · by_cases hut : u = t
    · subst hut
      rw [callsOf_concat_self, hprogram]
      simp
    · rw [callsOf_concat_of_ne hut, hprograms u hut]
      simp [hut]

theorem step (h : Explains code s vars program st made) (hstep : st.step code t = some st') :
    ∃ made', Explains code s vars program st' made' := by
  obtain ⟨v, call, todo, hworker, howner, rfl⟩ | ⟨v, access, rest, todo, hworker, rfl⟩ |
    ⟨v, todo, hworker, rfl⟩ := step_cases hstep
  · exact ⟨made, h.acquire hworker howner⟩
  · exact ⟨made, h.access hworker⟩
  · obtain ⟨call, h'⟩ := h.release hworker
    exact ⟨_, h'⟩

/-- There is no deadlock: as long as a thread has something left to do, a thread can go on. -/
theorem exists_step (h : Explains code s vars program st made) (hdone : ¬st.Done) :
    ∃ t st', st.step code t = some st' := by
  cases howner : st.owner with
  | none =>
    obtain ⟨hinside, -, -⟩ := h.free howner
    simp only [Done, not_forall, hinside, true_and] at hdone
    obtain ⟨t, ht⟩ := hdone
    obtain ⟨call, todo, htodo⟩ := List.exists_cons_of_ne_nil ht
    have hworker : st.worker t = ⟨(st.worker t).vars, none, call :: todo⟩ := by
      rw [← hinside t, ← htodo]
    refine ⟨t, ?_⟩
    unfold Workers.step
    rw [hworker]
    exact ⟨_, if_pos howner⟩
  | some t =>
    obtain ⟨-, -, rest, -, hinside, -⟩ := h.held t howner
    have hworker : st.worker t = ⟨(st.worker t).vars, some rest, (st.worker t).todo⟩ := by
      rw [← hinside]
    refine ⟨t, ?_⟩
    unfold Workers.step
    rw [hworker]
    cases rest with
    | nil => exact ⟨_, rfl⟩
    | cons access rest => exact ⟨_, rfl⟩

/-- When all calls have been made the memory is that of a serial run of the whole program. -/
theorem done (h : Explains code s vars program st made) (hdone : st.Done) :
    st.memory = serial code s vars made ∧ ∀ t, program t = callsOf made t := by
  have howner : st.owner = none := by
    cases howner : st.owner with
    | none => rfl
    | some t =>
      obtain ⟨-, -, rest, -, hinside, -⟩ := h.held t howner
      rw [(hdone t).1] at hinside
      cases hinside
  obtain ⟨-, hmemory, hprogram⟩ := h.free howner
  refine ⟨hmemory, fun t => ?_⟩
  rw [hprogram t, (hdone t).2, List.append_nil]

end Explains

/-- Every run has its serial order. -/
theorem explains_of_run {ts : List T} (h : run (step code) (start s vars program) ts = some st) :
    ∃ made, Explains code s vars program st made :=
  run_invariant (P := fun st => ∃ made, Explains code s vars program st made)
    (fun _ _ _ hex hstep => hex.elim fun _ hex => hex.step hstep) ts
    ⟨[], .start s vars program⟩ h

/-! ### The number of steps -/

def steps (code : C → List (Access S L)) (w : Worker S L C) : ℕ :=
  (w.inside.elim 0 fun rest => rest.length + 1) +
    (w.todo.map fun call => (code call).length + 2).sum

omit [DecidableEq T] in
theorem steps_eq_zero_iff {w : Worker S L C} :
    steps code w = 0 ↔ w.inside = none ∧ w.todo = [] := by
  obtain ⟨vars, inside, todo⟩ := w
  cases inside <;> cases todo <;> simp [steps]

variable [Fintype T]

theorem sum_steps_step (hstep : st.step code t = some st') :
    ∑ u, steps code (st'.worker u) + 1 = ∑ u, steps code (st.worker u) := by
  have hupdate : ∀ w, steps code w + 1 = steps code (st.worker t) →
      ∑ u, steps code (Function.update st.worker t w u) + 1 = ∑ u, steps code (st.worker u) := by
    intro w hw
    have hothers : ∀ u ∈ Finset.univ.erase t,
        steps code (Function.update st.worker t w u) = steps code (st.worker u) := by
      intro u hu
      rw [Function.update_of_ne (Finset.ne_of_mem_erase hu)]
    rw [← Finset.add_sum_erase _ _ (Finset.mem_univ t), ← Finset.add_sum_erase _ _
      (Finset.mem_univ t), Function.update_self, ← hw, Finset.sum_congr rfl hothers]
    omega
  obtain ⟨v, call, todo, hworker, howner, rfl⟩ | ⟨v, access, rest, todo, hworker, rfl⟩ |
    ⟨v, todo, hworker, rfl⟩ := step_cases hstep
  · apply hupdate
    rw [hworker]
    simp only [steps, Option.elim, List.map_cons, List.sum_cons]
    omega
  · apply hupdate
    rw [hworker]
    simp only [steps, Option.elim, List.length_cons]
    omega
  · apply hupdate
    rw [hworker]
    simp only [steps, Option.elim, List.length_nil]
    omega

theorem length_add_sum_steps {ts : List T} {st₀ : Workers T S L C}
    (h : run (step code) st₀ ts = some st) :
    ts.length + ∑ t, steps code (st.worker t) = ∑ t, steps code (st₀.worker t) := by
  induction ts generalizing st₀ with
  | nil =>
    obtain rfl := Option.some.inj h
    exact Nat.zero_add _
  | cons t ts ih =>
    rw [run_cons, Option.bind_eq_some_iff] at h
    obtain ⟨st₁, hstep, hrest⟩ := h
    rw [List.length_cons, Nat.add_right_comm, ih hrest, sum_steps_step hstep]

theorem sum_map_snd {M : Type*} [AddCommMonoid M] (f : C → M) (made : List (T × C)) :
    (made.map fun e => f e.2).sum = ∑ t, ((callsOf made t).map f).sum := by
  induction made with
  | nil => exact (Finset.sum_const_zero).symm
  | cons e made ih =>
    have hcons : ∀ t, ((callsOf (e :: made) t).map f).sum =
        (if t = e.1 then f e.2 else 0) + ((callsOf made t).map f).sum := by
      intro t
      by_cases het : e.1 = t
      · simp [callsOf, het]
      · simp [callsOf, het, Ne.symm het]
    rw [List.map_cons, List.sum_cons, ih, Finset.sum_congr rfl fun t _ => hcons t,
      Finset.sum_add_distrib, Finset.sum_ite_eq' Finset.univ e.1, if_pos (Finset.mem_univ _)]

/-! ### How far a value goes -/

theorem sum_map_snd_le (size : C → ℕ) {made : List (T × C)}
    (h : ∀ t, callsOf made t <+: program t) :
    (made.map fun e => size e.2).sum ≤ ∑ t, ((program t).map size).sum := by
  rw [sum_map_snd]
  refine Finset.sum_le_sum fun t _ => ?_
  obtain ⟨rest, hrest⟩ := h t
  rw [← hrest, List.map_append, List.sum_append]
  exact Nat.le_add_right _ _

omit [Fintype T] in
theorem natAbs_serial_sub_le {value : S → ℤ} {size : C → ℕ}
    (hsize : ∀ (t : T) (call : C) (p : S × (T → L)),
      (value (perform t (code call) p).1 - value p.1).natAbs ≤ size call)
    (made : List (T × C)) :
    (value (serial code s vars made).1 - value s).natAbs ≤ (made.map fun e => size e.2).sum := by
  induction made using List.reverseRecOn with
  | nil =>
    rw [List.map_nil, List.sum_nil, Nat.le_zero, Int.natAbs_eq_zero]
    exact sub_self _
  | append_singleton made e ih =>
    have hcall := hsize e.1 e.2 (serial code s vars made)
    rw [serial_concat, List.map_append, List.sum_append, List.map_singleton, List.sum_singleton]
    omega

/-- In no state of a run, also in the middle of a call, a value is farther from its beginning than
all calls together can bring it. -/
theorem natAbs_sub_le_of_run (value : S → ℤ) {size : C → ℕ}
    (hsize : ∀ (t : T) (call : C) (accesses : List (Access S L)) (p : S × (T → L)),
      accesses <+: code call →
        (value (perform t accesses p).1 - value p.1).natAbs ≤ size call)
    {ts : List T} (h : run (step code) (start s vars program) ts = some st) :
    (value st.shared - value s).natAbs ≤ ∑ t, ((program t).map size).sum := by
  obtain ⟨made, hexplains⟩ := explains_of_run h
  have hserial : (value (serial code s vars made).1 - value s).natAbs ≤
      (made.map fun e => size e.2).sum :=
    natAbs_serial_sub_le (fun t call p => hsize t call _ p List.prefix_rfl) made
  cases howner : st.owner with
  | none =>
    obtain ⟨-, hmemory, hcalls⟩ := hexplains.free howner
    have hshared : st.shared = (serial code s vars made).1 := congrArg Prod.fst hmemory
    rw [hshared]
    exact hserial.trans (sum_map_snd_le size fun t => ⟨_, (hcalls t).symm⟩)
  | some t =>
    obtain ⟨call, accesses, rest, hcode, -, -, hmemory, hprogram, hprograms⟩ :=
      hexplains.held t howner
    have hshared : st.shared = (perform t accesses (serial code s vars made)).1 :=
      congrArg Prod.fst hmemory
    have hcall := hsize t call accesses (serial code s vars made) ⟨rest, hcode.symm⟩
    have hprefix : ∀ u, callsOf (made ++ [(t, call)]) u <+: program u := by
      intro u
      by_cases hut : u = t
      · rw [hut, callsOf_concat_self, hprogram]
        exact ⟨_, List.append_assoc _ _ _⟩
      · rw [callsOf_concat_of_ne hut, hprograms u hut]
        exact List.prefix_append _ _
    have hle := sum_map_snd_le size hprefix
    rw [List.map_append, List.sum_append, List.map_singleton, List.sum_singleton] at hle
    dsimp only at hle
    rw [hshared]
    omega

/-- A run is over after as many steps as the calls have, and not before. -/
theorem done_iff_length {ts : List T} (h : run (step code) (start s vars program) ts = some st) :
    ts.length ≤ ∑ t, ((program t).map fun call => (code call).length + 2).sum ∧
      (st.Done ↔ ts.length = ∑ t, ((program t).map fun call => (code call).length + 2).sum) := by
  have hlen := length_add_sum_steps h
  have hstart : ∀ t, steps code ((start s vars program).worker t) =
      ((program t).map fun call => (code call).length + 2).sum := fun t => Nat.zero_add _
  simp only [hstart] at hlen
  have hdone : st.Done ↔ ∑ t, steps code (st.worker t) = 0 := by
    rw [Finset.sum_eq_zero_iff]
    exact forall_congr' fun t => by rw [steps_eq_zero_iff]; simp
  rw [hdone]
  omega

end Workers

end Foundation
