import CppTricks.Foundation.Counting
import CppTricks.Foundation.Runs
import CppTricks.Knapsack.Hashtable

/-! The parallel knapsack tasks, and a scheduler that may run them in any order. -/
namespace CppTricks.Knapsack
open Foundation

/-- `KnapsackTaskFuture` with its continuation `Future`, or `KnapsackTaskSerial`. What the latter
does after its children is an object of its own here, as `Future` is. -/
inductive Kind
  | future
  | serial

namespace Kind

def refCount : Kind → ℕ
  | future => 2
  | serial => 3

/-- The reference count at which the object that waits for the children may run. -/
def ready : Kind → ℕ
  | future => 0
  | serial => 1

/-- `x` and `y` before the children run; `Future` does not initialise them. -/
def initial : Kind → Option ℤ
  | future => none
  | serial => some 0

theorem refCount_eq (kind : Kind) : kind.refCount = kind.ready + 2 := by
  cases kind with
  | future => rfl
  | serial => rfl

end Kind

inductive Side
  | x
  | y
deriving DecidableEq

/-- What `r_` points to: the result of the root, or `x` or `y` of the object at an address. -/
inductive Slot
  | result
  | field (address : ℕ) (side : Side)
deriving DecidableEq

/-- How far `execute` has come. The value written to `*r_` is kept for the record. -/
inductive Phase
  | spawned
  /-- The table holds an answer. -/
  | found (value : ℤ)
  | missed
  /-- The children and the object that waits for them have been allocated. -/
  | replaced
  | waiting
  /-- The sum is in `*r_`, but not in the table. -/
  | summed
  | written (value : ℤ)
  /-- The parent's reference count has been decremented. -/
  | finished (value : ℤ)

/-- The object may still write to `*r_`, or has not yet told its parent that it did. -/
def Phase.active : Phase → Bool
  | replaced => false
  | finished _ => false
  | _ => true

structure Object where
  id : TaskId
  r : Slot
  phase : Phase

/-- The fields of an object that waits for two children; `none` is not initialised. -/
structure Frame where
  delta : ℤ
  field : Side → Option ℤ
  refCount : ℕ

/-- The objects by address, with the fields of those that wait. -/
structure State where
  objects : List Object
  frames : ℕ → Frame
  taskTable : Store
  result : ℤ
  rootDone : Bool

structure Prepared where
  delta : ℤ
  workId : TaskId
  oldTask : TaskId

def Prepared.child (p : Prepared) : Side → TaskId
  | .x => p.workId
  | .y => p.oldTask

/-- `none` is a read outside `items`. -/
def prepare (items : List Item) (id : TaskId) : Option Prepared := do
  let item ← items[id.idx - 1]?
  let oldTask := ⟨id.wBound, id.idx - 1⟩
  if item.w > id.wBound then return ⟨0, oldTask, oldTask⟩
  else return ⟨item.v, ⟨id.wBound - item.w, id.idx - 1⟩, oldTask⟩

namespace State

def enter (s : State) (k : ℕ) (o : Object) (phase : Phase) : State :=
  { s with objects := s.objects.set k { o with phase := phase } }

def read (s : State) : Slot → Option ℤ
  | .result => some s.result
  | .field f side => (s.frames f).field side

def write (s : State) (slot : Slot) (v : ℤ) : State :=
  match slot with
  | .result => { s with result := v }
  | .field f side =>
    let frame := s.frames f
    let frame := { frame with field := Function.update frame.field side (some v) }
    { s with frames := Function.update s.frames f frame }

/-- The parent of an object is the one that `r_` points into; the root's completes the root. -/
def release (s : State) : Slot → State
  | .result => { s with rootDone := true }
  | .field f _ =>
    let frame := s.frames f
    { s with frames := Function.update s.frames f { frame with refCount := frame.refCount - 1 } }

/-- The object that waits and the two children, which are spawned after `set_ref_count`. -/
def expand (s : State) (kind : Kind) (k : ℕ) (o : Object) (p : Prepared) : State :=
  let c := s.objects.length
  { s with
    objects := s.objects.set k { o with phase := .replaced } ++
      [⟨o.id, o.r, .waiting⟩, ⟨p.workId, .field c .x, .spawned⟩, ⟨p.oldTask, .field c .y, .spawned⟩]
    frames := Function.update s.frames c ⟨p.delta, fun _ => kind.initial, kind.refCount⟩ }

/-- The root task before it runs, with an empty table. -/
def start (root : TaskId) : State :=
  ⟨[⟨root, .result, .spawned⟩], fun _ => ⟨0, fun _ => none, 0⟩, ∅, 0, false⟩

def step (kind : Kind) (items : List Item) (s : State) (k : ℕ) : Option State := do
  let o ← s.objects[k]?
  match o.phase with
  | .spawned =>
    match table.find s.taskTable o.id with
    | some value => return s.enter k o (.found value)
    | none => return s.enter k o .missed
  | .found value => return (s.write o.r value).enter k o (.written value)
  | .missed =>
    if o.id.idx = 0 ∨ o.id.wBound = 0 then return (s.write o.r 0).enter k o (.written 0)
    else
      let p ← prepare items o.id
      return s.expand kind k o p
  | .waiting =>
    if (s.frames k).refCount = kind.ready then
      let x ← (s.frames k).field .x
      let y ← (s.frames k).field .y
      let x := x + (s.frames k).delta
      return ((s.write (.field k .x) x).write o.r (max x y)).enter k o .summed
    else none
  | .summed =>
    let value ← s.read o.r
    let s := { s with taskTable := table.add s.taskTable o.id value }
    return s.enter k o (.written value)
  | .written value => return (s.release o.r).enter k o (.finished value)
  | .replaced => none
  | .finished _ => none

end State

/-! ### The two children -/

variable {items : List Item} {id : TaskId} {p : Prepared} {x y : ℤ}

/-- What an id has two children for. -/
def Inner (id : TaskId) : Prop := ¬ (id.idx = 0 ∨ id.wBound = 0)

theorem correct_of_not_inner (h : ¬ Inner id) : Correct items id 0 := by
  unfold Correct
  cases not_not.mp h with
  | inl hidx => rw [hidx, knapSackExp_idx_zero]
  | inr hw => rw [hw, knapSackExp_wBound_zero]

theorem exists_prepare (hid : Inner id) (hidx : id.idx ≤ items.length) :
    ∃ p, prepare items id = some p := by
  unfold Inner at hid
  have hlt : id.idx - 1 < items.length := by omega
  unfold prepare
  rw [List.getElem?_eq_getElem hlt]
  by_cases h : items[id.idx - 1].w > id.wBound
  · exact ⟨_, if_pos h⟩
  · exact ⟨_, if_neg h⟩

/-- An item that is too heavy makes two equal children. -/
theorem prepare_cases (hid : Inner id) (hp : prepare items id = some p) :
    ∃ n item, id.idx = n + 1 ∧ items[n]? = some item ∧
      (item.w > id.wBound ∧ p = ⟨0, ⟨id.wBound, n⟩, ⟨id.wBound, n⟩⟩ ∨
        item.w ≤ id.wBound ∧ p = ⟨item.v, ⟨id.wBound - item.w, n⟩, ⟨id.wBound, n⟩⟩) := by
  have hidx : id.idx = id.idx - 1 + 1 := by
    unfold Inner at hid
    omega
  obtain ⟨item, hitem, hp⟩ := Option.bind_eq_some_iff.mp hp
  refine ⟨id.idx - 1, item, hidx, hitem, ?_⟩
  by_cases h : item.w > id.wBound
  · exact .inl ⟨h, (Option.some.inj ((if_pos h).symm.trans hp)).symm⟩
  · exact .inr ⟨not_lt.mp h, (Option.some.inj ((if_neg h).symm.trans hp)).symm⟩

theorem child_idx (hid : Inner id) (hp : prepare items id = some p) (side : Side) :
    (p.child side).idx + 1 = id.idx := by
  obtain ⟨n, item, hidx, -, hcases⟩ := prepare_cases hid hp
  rw [hidx]
  cases hcases with
  | inl h =>
    obtain ⟨-, rfl⟩ := h
    cases side with
    | x => rfl
    | y => rfl
  | inr h =>
    obtain ⟨-, rfl⟩ := h
    cases side with
    | x => rfl
    | y => rfl

/-- The answers for the children give the answer for the id. -/
theorem prepare_correct (hid : Inner id) (hp : prepare items id = some p)
    (hx : Correct items (p.child .x) x) (hy : Correct items (p.child .y) y) :
    Correct items id (max (x + p.delta) y) := by
  have hw : id.wBound ≠ 0 := fun h => hid (.inr h)
  obtain ⟨n, item, hidx, hitem, hcases⟩ := prepare_cases hid hp
  unfold Correct at *
  rw [hidx]
  cases hcases with
  | inl h =>
    obtain ⟨hlt, rfl⟩ := h
    obtain rfl : x = y := Option.some.inj (hx.symm.trans hy)
    rw [knapSackExp_of_lt hw hitem hlt, add_zero, max_self]
    exact hx
  | inr h =>
    obtain ⟨hle, rfl⟩ := h
    exact knapSackExp_of_le hw hitem hle hx hy

/-! ### Reading and writing -/

namespace State

variable {s : State} {slot slot' : Slot} {v w : ℤ} {k : ℕ} {o : Object} {phase : Phase}

/-- How many objects are still to write through a pointer to `slot`. -/
def writers (s : State) (slot : Slot) : ℕ :=
  s.objects.countP fun o => o.phase.active && decide (o.r = slot)

@[simp] theorem objects_write (s : State) (slot : Slot) (v : ℤ) :
    (s.write slot v).objects = s.objects := by
  cases slot with
  | result => rfl
  | field f side => rfl

@[simp] theorem taskTable_write (s : State) (slot : Slot) (v : ℤ) :
    (s.write slot v).taskTable = s.taskTable := by
  cases slot with
  | result => rfl
  | field f side => rfl

@[simp] theorem rootDone_write (s : State) (slot : Slot) (v : ℤ) :
    (s.write slot v).rootDone = s.rootDone := by
  cases slot with
  | result => rfl
  | field f side => rfl

@[simp] theorem delta_write (s : State) (slot : Slot) (v : ℤ) (k : ℕ) :
    ((s.write slot v).frames k).delta = (s.frames k).delta := by
  cases slot with
  | result => rfl
  | field f side =>
    by_cases hk : k = f
    · simp [write, hk]
    · simp [write, Function.update_of_ne hk]

@[simp] theorem refCount_write (s : State) (slot : Slot) (v : ℤ) (k : ℕ) :
    ((s.write slot v).frames k).refCount = (s.frames k).refCount := by
  cases slot with
  | result => rfl
  | field f side =>
    by_cases hk : k = f
    · simp [write, hk]
    · simp [write, Function.update_of_ne hk]

@[simp] theorem writers_write (s : State) (slot slot' : Slot) (v : ℤ) :
    (s.write slot v).writers slot' = s.writers slot' := by
  unfold writers
  rw [objects_write]

@[simp] theorem read_write_self (s : State) (slot : Slot) (v : ℤ) :
    (s.write slot v).read slot = some v := by
  cases slot with
  | result => rfl
  | field f side => simp [write, read]

theorem read_write_of_ne (h : slot' ≠ slot) (s : State) (v : ℤ) :
    (s.write slot v).read slot' = s.read slot' := by
  cases slot with
  | result =>
    cases slot' with
    | result => exact absurd rfl h
    | field f side => rfl
  | field f side =>
    cases slot' with
    | result => rfl
    | field f' side' =>
      by_cases hf : f' = f
      · subst hf
        have hside : side' ≠ side := fun hside => h (by rw [hside])
        simp [write, read, Function.update_of_ne hside]
      · simp [write, read, Function.update_of_ne hf]

theorem write_comm (h : slot ≠ slot') (s : State) (v w : ℤ) :
    (s.write slot v).write slot' w = (s.write slot' w).write slot v := by
  cases slot with
  | result =>
    cases slot' with
    | result => exact absurd rfl h
    | field f' side' => rfl
  | field f side =>
    cases slot' with
    | result => rfl
    | field f' side' =>
      by_cases hf : f = f'
      · subst hf
        have hside : side ≠ side' := fun hside => h (by rw [hside])
        simp [write, Function.update_comm hside]
      · simp [write, Function.update_of_ne hf, Function.update_of_ne (Ne.symm hf),
          Function.update_comm hf]

@[simp] theorem read_release (s : State) (slot slot' : Slot) :
    (s.release slot).read slot' = s.read slot' := by
  cases slot with
  | result =>
    cases slot' with
    | result => rfl
    | field f side => rfl
  | field f side =>
    cases slot' with
    | result => rfl
    | field f' side' =>
      by_cases hf : f' = f
      · simp [release, read, hf]
      · simp [release, read, Function.update_of_ne hf]

@[simp] theorem objects_release (s : State) (slot : Slot) :
    (s.release slot).objects = s.objects := by
  cases slot with
  | result => rfl
  | field f side => rfl

@[simp] theorem taskTable_release (s : State) (slot : Slot) :
    (s.release slot).taskTable = s.taskTable := by
  cases slot with
  | result => rfl
  | field f side => rfl

@[simp] theorem writers_release (s : State) (slot slot' : Slot) :
    (s.release slot).writers slot' = s.writers slot' := by
  unfold writers
  rw [objects_release]

@[simp] theorem delta_release (s : State) (slot : Slot) (k : ℕ) :
    ((s.release slot).frames k).delta = (s.frames k).delta := by
  cases slot with
  | result => rfl
  | field f side =>
    by_cases hk : k = f
    · simp [release, hk]
    · simp [release, Function.update_of_ne hk]

theorem refCount_release (s : State) (slot : Slot) (k : ℕ) :
    ((s.release slot).frames k).refCount =
      (s.frames k).refCount - (if slot = .field k .x ∨ slot = .field k .y then 1 else 0) := by
  cases slot with
  | result => rfl
  | field f side =>
    by_cases hk : k = f
    · subst hk
      cases side with
      | x => simp [release]
      | y => simp [release]
    · simp [release, Function.update_of_ne hk, Ne.symm hk]

/-- The count of a frame goes down with the number of those that write to its fields. -/
theorem refCount_release_of_count {n x y x' y' : ℕ} (hcount : (s.frames k).refCount = n + x + y)
    (hx : x' + (if slot = .field k .x then 1 else 0) = x)
    (hy : y' + (if slot = .field k .y then 1 else 0) = y) :
    ((s.release slot).frames k).refCount = n + x' + y' := by
  rw [refCount_release]
  by_cases hrx : slot = .field k .x
  · have hry : slot ≠ .field k .y := by rw [hrx]; simp
    rw [if_pos hrx] at hx
    rw [if_neg hry] at hy
    rw [if_pos (.inl hrx)]
    omega
  · rw [if_neg hrx] at hx
    by_cases hry : slot = .field k .y
    · rw [if_pos hry] at hy
      rw [if_pos (.inr hry)]
      omega
    · rw [if_neg hry] at hy
      rw [if_neg (not_or.mpr ⟨hrx, hry⟩)]
      omega

@[simp] theorem read_enter (s : State) (k : ℕ) (o : Object) (phase : Phase) (slot : Slot) :
    (s.enter k o phase).read slot = s.read slot := by
  cases slot with
  | result => rfl
  | field f side => rfl

theorem enter_write (s : State) (k : ℕ) (o : Object) (phase : Phase) (slot : Slot) (v : ℤ) :
    (s.write slot v).enter k o phase = (s.enter k o phase).write slot v := by
  cases slot with
  | result => rfl
  | field f side => rfl

/-- A change of phase leaves the writers alone while the object stays active. -/
theorem writers_enter (hk : s.objects[k]? = some o) (hactive : o.phase.active = phase.active)
    (slot : Slot) : (s.enter k o phase).writers slot = s.writers slot :=
  countP_set_of_eq hk (by rw [hactive])

theorem writers_finish (hk : s.objects[k]? = some o) (hactive : o.phase.active = true)
    (hphase : phase.active = false) (slot : Slot) :
    (s.enter k o phase).writers slot + (if o.r = slot then 1 else 0) = s.writers slot := by
  have hcount := countP_set_of_false (p := fun o => o.phase.active && decide (o.r = slot))
    (a := { o with phase := phase }) hk (by simp [hphase])
  unfold writers enter
  rw [← hcount]
  simp [hactive]

theorem exists_writer (h : 0 < s.writers slot) :
    ∃ (k : ℕ) (o : Object), s.objects[k]? = some o ∧ o.phase.active = true ∧ o.r = slot := by
  obtain ⟨o, hmem, hr⟩ := List.countP_pos_iff.mp h
  obtain ⟨k, hk⟩ := List.mem_iff_getElem?.mp hmem
  rw [Bool.and_eq_true, decide_eq_true_eq] at hr
  exact ⟨k, o, hk, hr⟩

theorem writers_pos (hk : s.objects[k]? = some o) (hactive : o.phase.active = true) :
    0 < s.writers o.r :=
  List.countP_pos_iff.mpr ⟨o, List.mem_of_getElem? hk, by simp [hactive]⟩

end State

end CppTricks.Knapsack
