import CppTricks.Knapsack.Parallel

/-! Under every schedule the parallel tasks store and return the answers of the recursion. -/
namespace CppTricks.Knapsack
open Foundation

namespace State

variable {kind : Kind} {items : List Item} {root id id' : TaskId} {s s' : State} {slot : Slot}
  {v value : ℤ} {j k : ℕ} {o o' : Object} {phase : Phase} {p : Prepared}

/-- The answer for `id` is to be written to `slot`: by the root, or by a child of an object that
waits. -/
def Awaits (items : List Item) (root : TaskId) (s : State) : Slot → TaskId → Prop
  | .result, id => id = root
  | .field f side, id => ∃ o p, s.objects[f]? = some o ∧ o.phase = .waiting ∧
      prepare items o.id = some p ∧ p.child side = id

/-- What the phase of an object says about the values it has seen. -/
def Holds (items : List Item) (s : State) (o : Object) : Prop :=
  match o.phase with
  | .found value => Correct items o.id value
  | .summed => ∃ value, s.read o.r = some value ∧ Correct items o.id value
  | .written value => s.read o.r = some value ∧ Correct items o.id value
  | .finished value => Correct items o.id value
  | _ => True

structure Good (kind : Kind) (items : List Item) (root : TaskId) (s : State) (k : ℕ)
    (o : Object) : Prop where
  bounded : o.id.idx ≤ items.length
  awaited : o.phase.active = true → s.Awaits items root o.r o.id
  holds : s.Holds items o
  inner : o.phase = .waiting → Inner o.id ∧
    ∃ p, prepare items o.id = some p ∧ (s.frames k).delta = p.delta
  counted : o.phase = .waiting →
    (s.frames k).refCount = kind.ready + s.writers (.field k .x) + s.writers (.field k .y)

structure Invariant (kind : Kind) (items : List Item) (root : TaskId) (s : State) : Prop where
  sound : table.Sound (Correct items) s.taskTable
  single : ∀ slot, s.writers slot ≤ 1
  good : ∀ (k : ℕ) (o : Object), s.objects[k]? = some o → s.Good kind items root k o
  settled : ∀ slot id, s.Awaits items root slot id → s.writers slot = 0 →
    ∃ v, s.read slot = some v ∧ Correct items id v
  completes : s.rootDone = true ↔ s.writers .result = 0

/-! ### Slots -/

theorem Awaits.unique (h : s.Awaits items root slot id) (h' : s.Awaits items root slot id') :
    id = id' := by
  cases slot with
  | result => exact h.trans h'.symm
  | field f side =>
    obtain ⟨o, p, ho, -, hp, rfl⟩ := h
    obtain ⟨o', p', ho', -, hp', rfl⟩ := h'
    obtain rfl : o = o' := Option.some.inj (ho.symm.trans ho')
    obtain rfl : p = p' := Option.some.inj (hp.symm.trans hp')
    rfl

/-- Only an object that waits awaits anything in its fields. -/
theorem Awaits.waiting {side : Side} (h : s.Awaits items root (.field k side) id)
    (hk : s.objects[k]? = some o) : o.phase = .waiting := by
  obtain ⟨o', p, ho', hwaits, -⟩ := h
  obtain rfl : o = o' := Option.some.inj (hk.symm.trans ho')
  exact hwaits

theorem Awaits.of_objects_eq (h : s.Awaits items root slot id) (hobj : s'.objects = s.objects) :
    s'.Awaits items root slot id := by
  cases slot with
  | result => exact h
  | field f side =>
    unfold Awaits at h ⊢
    rw [hobj]
    exact h

theorem Holds.of_read_eq (h : s.Holds items o)
    (hread : o.phase.active = true → s'.read o.r = s.read o.r) : s'.Holds items o := by
  unfold Holds at *
  cases hphase : o.phase with
  | summed =>
    rw [hphase] at h hread
    rwa [hread rfl]
  | written value =>
    rw [hphase] at h hread
    rwa [hread rfl]
  | found value => rwa [hphase] at h
  | finished value => rwa [hphase] at h
  | spawned => trivial
  | missed => trivial
  | replaced => trivial
  | waiting => trivial

theorem Good.of_not_waiting (hphase : o.phase ≠ .waiting) (hbounded : o.id.idx ≤ items.length)
    (hawaited : o.phase.active = true → s.Awaits items root o.r o.id) (hholds : s.Holds items o) :
    s.Good kind items root k o where
  bounded := hbounded
  awaited := hawaited
  holds := hholds
  inner hwaits := absurd hwaits hphase
  counted hwaits := absurd hwaits hphase

/-- Nobody writes to the fields of an object that has no children left. -/
theorem r_ne_field (hj : s.objects[j]? = some o') (hj' : o'.phase.active = true)
    (hdead : ∀ side, s.writers (.field k side) = 0) (side : Side) : o'.r ≠ .field k side := by
  intro hr
  have hpos := writers_pos hj hj'
  rw [hr, hdead side] at hpos
  exact Nat.lt_irrefl 0 hpos

theorem getElem?_enter (hj : (s.enter k o phase).objects[j]? = some o') :
    j = k ∧ o' = { o with phase := phase } ∨ j ≠ k ∧ s.objects[j]? = some o' := by
  unfold enter at hj
  by_cases hjk : j = k
  · subst hjk
    obtain ⟨hlt, hset⟩ := List.getElem?_eq_some_iff.mp hj
    rw [List.getElem_set_self] at hset
    exact .inl ⟨rfl, hset.symm⟩
  · rw [List.getElem?_set_ne (Ne.symm hjk)] at hj
    exact .inr ⟨hjk, hj⟩

theorem getElem?_enter_of_ne (hjk : j ≠ k) :
    (s.enter k o phase).objects[j]? = s.objects[j]? := List.getElem?_set_ne (Ne.symm hjk)

/-- What an object that does not wait awaits, it awaited before. -/
theorem Awaits.of_enter (hphase : phase ≠ .waiting)
    (h : (s.enter k o phase).Awaits items root slot id) : s.Awaits items root slot id := by
  cases slot with
  | result => exact h
  | field f side =>
    obtain ⟨o', p, ho', hwaits, hp⟩ := h
    cases getElem?_enter ho' with
    | inl hself =>
      obtain ⟨-, rfl⟩ := hself
      exact absurd hwaits hphase
    | inr hother => exact ⟨o', p, hother.2, hwaits, hp⟩

theorem Awaits.enter (h : s.Awaits items root slot id) (hne : ∀ side, slot ≠ .field k side) :
    (s.enter k o phase).Awaits items root slot id := by
  cases slot with
  | result => exact h
  | field f side =>
    obtain ⟨o', p, ho', hwaits, hp⟩ := h
    have hfk : f ≠ k := fun hfk => hne side (by rw [hfk])
    exact ⟨o', p, (getElem?_enter_of_ne hfk).trans ho', hwaits, hp⟩

theorem getElem?_expand (hj : (s.expand kind k o p).objects[j]? = some o') :
    j ≠ k ∧ s.objects[j]? = some o' ∨ o' = { o with phase := .replaced } ∨
      j = s.objects.length ∧ o' = { o with phase := .waiting } ∨
      ∃ side, o' = ⟨p.child side, .field s.objects.length side, .spawned⟩ := by
  unfold expand at hj
  by_cases hlt : j < s.objects.length
  · rw [List.getElem?_append_left (by simpa using hlt)] at hj
    have hset : (s.enter k o .replaced).objects[j]? = some o' := hj
    cases getElem?_enter hset with
    | inl hself => exact .inr (.inl hself.2)
    | inr hother => exact .inl hother
  · obtain ⟨m, rfl⟩ : ∃ m, j = s.objects.length + m := ⟨j - s.objects.length, by omega⟩
    rw [List.getElem?_append_right (by simp), List.length_set, Nat.add_sub_cancel_left] at hj
    cases m with
    | zero => exact .inr (.inr (.inl ⟨rfl, (Option.some.inj hj).symm⟩))
    | succ m =>
      cases m with
      | zero => exact .inr (.inr (.inr ⟨.x, (Option.some.inj hj).symm⟩))
      | succ m =>
        cases m with
        | zero => exact .inr (.inr (.inr ⟨.y, (Option.some.inj hj).symm⟩))
        | succ m => cases hj

theorem getElem?_expand_of_ne (hjk : j ≠ k) (hj : s.objects[j]? = some o') :
    (s.expand kind k o p).objects[j]? = some o' := by
  obtain ⟨hlt, -⟩ := List.getElem?_eq_some_iff.mp hj
  unfold expand
  rw [List.getElem?_append_left (by simpa using hlt), List.getElem?_set_ne (Ne.symm hjk), hj]

theorem getElem?_expand_frame :
    (s.expand kind k o p).objects[s.objects.length]? = some { o with phase := .waiting } := by
  unfold expand
  rw [List.getElem?_append_right (by simp)]
  simp

/-- The object that waits takes over the slot, and each child has a fresh one. -/
theorem writers_expand (hk : s.objects[k]? = some o) (hactive : o.phase.active = true)
    (slot : Slot) :
    (s.expand kind k o p).writers slot = s.writers slot +
      ((if slot = .field s.objects.length .x then 1 else 0) +
        (if slot = .field s.objects.length .y then 1 else 0)) := by
  have hfinish : (s.enter k o .replaced).writers slot + (if o.r = slot then 1 else 0) =
      s.writers slot := writers_finish hk hactive rfl slot
  have hcount : (s.expand kind k o p).writers slot =
      (s.enter k o .replaced).writers slot + ((if o.r = slot then 1 else 0) +
        ((if slot = .field s.objects.length .x then 1 else 0) +
          (if slot = .field s.objects.length .y then 1 else 0))) := by
    unfold writers expand enter
    simp [List.countP_cons, Phase.active, eq_comm]
    omega
  omega

theorem read_expand (hslot : ∀ side, slot ≠ .field s.objects.length side) :
    (s.expand kind k o p).read slot = s.read slot := by
  cases slot with
  | result => rfl
  | field f side =>
    have hf : f ≠ s.objects.length := fun hf => hslot side (by rw [hf])
    simp [expand, read, Function.update_of_ne hf]

/-- Nobody awaits anything at an address that is not allocated. -/
theorem Awaits.ne_fresh (h : s.Awaits items root slot id) (side : Side) :
    slot ≠ .field s.objects.length side := by
  intro hslot
  subst hslot
  obtain ⟨o, p, ho, -⟩ := h
  obtain ⟨hlt, -⟩ := List.getElem?_eq_some_iff.mp ho
  exact Nat.lt_irrefl _ hlt

theorem Awaits.expand (h : s.Awaits items root slot id) (hk : s.objects[k]? = some o)
    (hphase : o.phase ≠ .waiting) : (s.expand kind k o p).Awaits items root slot id := by
  cases slot with
  | result => exact h
  | field f side =>
    have hfk : f ≠ k := by
      intro hfk
      subst hfk
      exact hphase (h.waiting hk)
    obtain ⟨o', p', ho', hwaits, hp'⟩ := h
    exact ⟨o', p', getElem?_expand_of_ne hfk ho', hwaits, hp'⟩

theorem Awaits.of_expand (hp : prepare items o.id = some p)
    (h : (s.expand kind k o p).Awaits items root slot id) :
    s.Awaits items root slot id ∨
      ∃ side, slot = .field s.objects.length side ∧ id = p.child side := by
  cases slot with
  | result => exact .inl h
  | field f side =>
    obtain ⟨o', p', ho', hwaits, hp', rfl⟩ := h
    rcases getElem?_expand ho' with hold | hreplaced | hframe | hchild
    · exact .inl ⟨o', p', hold.2, hwaits, hp', rfl⟩
    · rw [hreplaced] at hwaits
      cases hwaits
    · obtain ⟨rfl, rfl⟩ := hframe
      obtain rfl : p = p' := Option.some.inj (hp.symm.trans hp')
      exact .inr ⟨side, rfl, rfl⟩
    · obtain ⟨side', rfl⟩ := hchild
      cases hwaits

namespace Invariant

variable (h : Invariant kind items root s)
include h

/-- No two objects write to one slot. -/
theorem eq_of_r_eq (hj : s.objects[j]? = some o') (hj' : o'.phase.active = true)
    (hk : s.objects[k]? = some o) (hk' : o.phase.active = true) (hr : o'.r = o.r) : j = k := by
  apply eq_of_countP_le_one (h.single o.r) hj _ hk
  · simp [hk']
  · simp [hj', hr]

theorem writers_fresh (side : Side) : s.writers (.field s.objects.length side) = 0 := by
  apply Nat.eq_zero_of_not_pos
  intro hpos
  obtain ⟨j, o, hj, hj', hr⟩ := exists_writer hpos
  exact ((h.good j o hj).awaited hj').ne_fresh side hr

/-! ### What the parts of a step preserve -/

theorem addAnswer (hv : Correct items id v) :
    Invariant kind items root { s with taskTable := table.add s.taskTable id v } where
  sound := table_lawful.sound_add h.sound hv
  single := h.single
  good k o hk :=
    have hgood := h.good k o hk
    ⟨hgood.bounded, hgood.awaited, hgood.holds, hgood.inner, hgood.counted⟩
  settled := h.settled
  completes := h.completes

/-- A write to a slot that somebody is still to write to, or that nobody awaits. -/
theorem write (hslot : ∀ id, s.Awaits items root slot id → s.writers slot ≠ 0)
    (hholds : ∀ (j : ℕ) (o : Object), s.objects[j]? = some o → o.phase.active = true →
      o.r = slot → (s.write slot v).Holds items o) :
    Invariant kind items root (s.write slot v) := by
  constructor
  · rw [taskTable_write]
    exact h.sound
  · intro slot'
    rw [writers_write]
    exact h.single slot'
  · intro j o hj
    rw [objects_write] at hj
    have hgood := h.good j o hj
    constructor
    · exact hgood.bounded
    · intro hj'
      exact (hgood.awaited hj').of_objects_eq (objects_write s slot v)
    · by_cases hr : o.phase.active = true ∧ o.r = slot
      · exact hholds j o hj hr.1 hr.2
      · apply hgood.holds.of_read_eq
        intro hj'
        exact read_write_of_ne (fun hslot => hr ⟨hj', hslot⟩) s v
    · rw [delta_write]
      exact hgood.inner
    · rw [refCount_write, writers_write, writers_write]
      exact hgood.counted
  · intro slot' id hawaits hzero
    rw [writers_write] at hzero
    have hawaits' := hawaits.of_objects_eq (objects_write s slot v).symm
    have hne : slot' ≠ slot := by
      intro heq
      subst heq
      exact hslot id hawaits' hzero
    rw [read_write_of_ne hne]
    exact h.settled slot' id hawaits' hzero
  · rw [rootDone_write, writers_write]
    exact h.completes

/-- An object goes on to another phase in which it does not wait. -/
theorem enter (hk : s.objects[k]? = some o) (hactive : o.phase.active = true)
    (hactive' : phase.active = true) (hphase : phase ≠ .waiting)
    (hdead : o.phase = .waiting → ∀ side, s.writers (.field k side) = 0)
    (hholds : s.Holds items { o with phase := phase }) :
    Invariant kind items root (s.enter k o phase) := by
  have hwriters : ∀ slot, (s.enter k o phase).writers slot = s.writers slot :=
    writers_enter hk (hactive.trans hactive'.symm)
  have hawaits : ∀ (j : ℕ) (o' : Object), s.objects[j]? = some o' → o'.phase.active = true →
      (s.enter k o phase).Awaits items root o'.r o'.id := by
    intro j o' hj hj'
    have hold := (h.good j o' hj).awaited hj'
    apply hold.enter
    intro side hr
    rw [hr] at hold
    exact r_ne_field hj hj' (hdead (hold.waiting hk)) side hr
  constructor
  · exact h.sound
  · intro slot
    rw [hwriters]
    exact h.single slot
  · intro j o' hj
    cases getElem?_enter hj with
    | inl hself =>
      obtain ⟨-, rfl⟩ := hself
      apply Good.of_not_waiting hphase
      · exact (h.good k o hk).bounded
      · intro _
        exact hawaits k o hk hactive
      · exact hholds.of_read_eq fun _ => read_enter s k o phase _
    | inr hother =>
      have hgood := h.good j o' hother.2
      constructor
      · exact hgood.bounded
      · exact hawaits j o' hother.2
      · exact hgood.holds.of_read_eq fun _ => read_enter s k o phase _
      · exact hgood.inner
      · rw [hwriters, hwriters]
        exact hgood.counted
  · intro slot id hid hzero
    rw [hwriters] at hzero
    rw [read_enter]
    exact h.settled slot id (hid.of_enter hphase) hzero
  · rw [hwriters]
    exact h.completes

/-- The root is done when the one writer of the result releases it, and only then. -/
theorem completes_release {n : ℕ}
    (hwriters : n + (if slot = .result then 1 else 0) = s.writers .result) :
    (s.release slot).rootDone = true ↔ n = 0 := by
  cases slot with
  | result =>
    have hsingle := h.single .result
    rw [if_pos rfl] at hwriters
    constructor
    · intro _
      omega
    · intro _
      rfl
  | field f side =>
    rw [if_neg (by simp), Nat.add_zero] at hwriters
    rw [hwriters]
    exact h.completes

/-- An object tells its parent that the answer is in place. -/
theorem finish (hk : s.objects[k]? = some o) (hphase : o.phase = .written value) :
    Invariant kind items root ((s.release o.r).enter k o (.finished value)) := by
  have hobj : (s.release o.r).objects = s.objects := objects_release s o.r
  have hk' : (s.release o.r).objects[k]? = some o := by rwa [hobj]
  have hactive : o.phase.active = true := by rw [hphase]; rfl
  have hheld : s.read o.r = some value ∧ Correct items o.id value := by
    have hholds := (h.good k o hk).holds
    unfold Holds at hholds
    rwa [hphase] at hholds
  have hwriters : ∀ slot, ((s.release o.r).enter k o (.finished value)).writers slot +
      (if o.r = slot then 1 else 0) = s.writers slot := by
    intro slot
    rw [writers_finish hk' hactive rfl, writers_release]
  have hawaits : ∀ {slot id}, s.Awaits items root slot id →
      ((s.release o.r).enter k o (.finished value)).Awaits items root slot id := by
    intro slot id hid
    apply (hid.of_objects_eq hobj).enter
    intro side hslot
    rw [hslot] at hid
    have hwaits := hid.waiting hk
    rw [hphase] at hwaits
    cases hwaits
  constructor
  · have htable := h.sound
    rwa [← taskTable_release s o.r] at htable
  · intro slot
    have hle := h.single slot
    rw [← hwriters] at hle
    omega
  · intro j o' hj
    cases getElem?_enter hj with
    | inl hself =>
      obtain ⟨-, rfl⟩ := hself
      exact .of_not_waiting nofun (h.good k o hk).bounded nofun hheld.2
    | inr hother =>
      rw [hobj] at hother
      have hgood := h.good j o' hother.2
      constructor
      · exact hgood.bounded
      · intro hj'
        exact hawaits (hgood.awaited hj')
      · apply hgood.holds.of_read_eq
        intro _
        rw [read_enter, read_release]
      · intro hwaits
        obtain ⟨hinner, p, hp, hdelta⟩ := hgood.inner hwaits
        exact ⟨hinner, p, hp, (delta_release s o.r j).trans hdelta⟩
      · intro hwaits
        exact refCount_release_of_count (hgood.counted hwaits) (hwriters (.field j .x))
          (hwriters (.field j .y))
  · intro slot id hid hzero
    have hid' : s.Awaits items root slot id :=
      (hid.of_enter (by simp)).of_objects_eq hobj.symm
    rw [read_enter, read_release]
    by_cases hslot : o.r = slot
    · subst hslot
      obtain rfl := ((h.good k o hk).awaited hactive).unique hid'
      exact ⟨value, hheld⟩
    · apply h.settled slot id hid'
      rw [← hwriters, hzero, if_neg hslot]
  · exact h.completes_release (hwriters .result)

/-- A task is replaced by an object that waits for two children. -/
theorem expand (hk : s.objects[k]? = some o) (hphase : o.phase = .missed) (hinner : Inner o.id)
    (hp : prepare items o.id = some p) :
    Invariant kind items root (s.expand kind k o p) := by
  have hactive : o.phase.active = true := by rw [hphase]; rfl
  have hnot : o.phase ≠ .waiting := by rw [hphase]; simp
  have hwriters : ∀ slot, (s.expand kind k o p).writers slot = s.writers slot +
      ((if slot = .field s.objects.length .x then 1 else 0) +
        (if slot = .field s.objects.length .y then 1 else 0)) := writers_expand hk hactive
  have hfresh := h.writers_fresh
  have hbounded := (h.good k o hk).bounded
  constructor
  · exact h.sound
  · intro slot
    have hle := h.single slot
    rw [hwriters]
    by_cases hx : slot = .field s.objects.length .x
    · simp [hx, hfresh]
    · by_cases hy : slot = .field s.objects.length .y
      · simp [hy, hfresh]
      · simpa [hx, hy] using hle
  · intro j o' hj
    rcases getElem?_expand hj with hold | hreplaced | hwait | hchild
    · obtain ⟨hlt, -⟩ := List.getElem?_eq_some_iff.mp hold.2
      have hne : j ≠ s.objects.length := by omega
      have hframe : (s.expand kind k o p).frames j = s.frames j := Function.update_of_ne hne _ _
      have hgood := h.good j o' hold.2
      constructor
      · exact hgood.bounded
      · intro hj'
        exact (hgood.awaited hj').expand hk hnot
      · apply hgood.holds.of_read_eq
        intro hj'
        exact read_expand (hgood.awaited hj').ne_fresh
      · rw [hframe]
        exact hgood.inner
      · rw [hframe, hwriters, hwriters]
        simpa [hne] using hgood.counted
    · subst hreplaced
      exact .of_not_waiting nofun hbounded nofun trivial
    · obtain ⟨rfl, rfl⟩ := hwait
      constructor
      · exact hbounded
      · intro _
        exact ((h.good k o hk).awaited hactive).expand hk hnot
      · trivial
      · intro _
        exact ⟨hinner, p, hp, by simp [State.expand]⟩
      · intro _
        rw [hwriters, hwriters, hfresh, hfresh]
        simp [State.expand, kind.refCount_eq]
    · obtain ⟨side, rfl⟩ := hchild
      have hidx := child_idx hinner hp side
      apply Good.of_not_waiting
      · exact nofun
      · simp only
        omega
      · intro _
        exact ⟨_, p, getElem?_expand_frame, rfl, hp, rfl⟩
      · trivial
  · intro slot id hid hzero
    rw [hwriters] at hzero
    cases hid.of_expand hp with
    | inl hold =>
      rw [read_expand hold.ne_fresh]
      exact h.settled slot id hold (by omega)
    | inr hnew =>
      obtain ⟨side, rfl, -⟩ := hnew
      cases side with
      | x => simp at hzero
      | y => simp at hzero
  · rw [hwriters]
    exact h.completes

theorem put (hk : s.objects[k]? = some o) (hactive : o.phase.active = true)
    (hactive' : phase.active = true) (hphase : phase ≠ .waiting)
    (hdead : o.phase = .waiting → ∀ side, s.writers (.field k side) = 0)
    (hholds : (s.write o.r v).Holds items o)
    (hholds' : (s.write o.r v).Holds items { o with phase := phase }) :
    Invariant kind items root ((s.write o.r v).enter k o phase) := by
  have hwritten : Invariant kind items root (s.write o.r v) := by
    apply h.write
    · intro _ _
      exact Nat.ne_of_gt (writers_pos hk hactive)
    · intro j o' hj hj' hr
      obtain rfl := h.eq_of_r_eq hj hj' hk hactive hr
      obtain rfl : o = o' := Option.some.inj (hk.symm.trans hj)
      exact hholds
  apply hwritten.enter _ hactive hactive' hphase _ hholds'
  · rwa [objects_write]
  · intro hwaits side
    rw [writers_write]
    exact hdead hwaits side

/-- When nobody is left to write to `x` and `y` of an object, they hold the children's answers. -/
theorem children (hk : s.objects[k]? = some o) (hphase : o.phase = .waiting)
    (hready : (s.frames k).refCount = kind.ready) :
    (∀ side, s.writers (.field k side) = 0) ∧
      ∃ x y, (s.frames k).field .x = some x ∧ (s.frames k).field .y = some y ∧
        Correct items o.id (max (x + (s.frames k).delta) y) := by
  have hgood := h.good k o hk
  have hcount := hgood.counted hphase
  have hzero : ∀ side, s.writers (.field k side) = 0 := by
    intro side
    cases side with
    | x => omega
    | y => omega
  obtain ⟨hinner, p, hp, hdelta⟩ := hgood.inner hphase
  obtain ⟨x, hx, hcx⟩ := h.settled (.field k .x) _ ⟨o, p, hk, hphase, hp, rfl⟩ (hzero .x)
  obtain ⟨y, hy, hcy⟩ := h.settled (.field k .y) _ ⟨o, p, hk, hphase, hp, rfl⟩ (hzero .y)
  refine ⟨hzero, x, y, hx, hy, ?_⟩
  rw [hdelta]
  exact prepare_correct hinner hp hcx hcy

/-- The object that waited puts the sum of its children's answers to `*r_`. -/
theorem sum (hk : s.objects[k]? = some o) (hphase : o.phase = .waiting)
    (hzero : ∀ side, s.writers (.field k side) = 0) (hv : Correct items o.id v) (x : ℤ) :
    Invariant kind items root (((s.write (.field k .x) x).write o.r v).enter k o .summed) := by
  have hactive : o.phase.active = true := by rw [hphase]; rfl
  have hne : Slot.field k .x ≠ o.r := (r_ne_field hk hactive hzero .x).symm
  have hput : Invariant kind items root ((s.write o.r v).enter k o .summed) := by
    apply h.put hk hactive rfl (by simp) (fun _ => hzero)
    · unfold Holds
      rw [hphase]
      trivial
    · exact ⟨v, read_write_self s o.r v, hv⟩
  have hdead : ∀ id, ¬ ((s.write o.r v).enter k o .summed).Awaits items root (.field k .x) id := by
    intro id hawaits
    obtain ⟨o', p, ho', hwaits, -⟩ := hawaits
    cases getElem?_enter ho' with
    | inl hself =>
      rw [hself.2] at hwaits
      cases hwaits
    | inr hother => exact hother.1 rfl
  rw [write_comm hne, enter_write]
  apply hput.write
  · intro id hawaits
    exact absurd hawaits (hdead id)
  · intro j o' hj hj' hr
    have hawaits := (hput.good j o' hj).awaited hj'
    rw [hr] at hawaits
    exact absurd hawaits (hdead o'.id)

theorem step (hstep : s.step kind items k = some s') : Invariant kind items root s' := by
  obtain ⟨o, hk, hstep⟩ := Option.bind_eq_some_iff.mp hstep
  have hholds := (h.good k o hk).holds
  have hnever : ∀ {phase : Phase}, o.phase = phase → phase ≠ .waiting → o.phase = .waiting →
      ∀ side, s.writers (.field k side) = 0 :=
    fun hphase hne hwaits => absurd (hphase.symm.trans hwaits) hne
  unfold Holds at hholds
  cases hphase : o.phase with
  | spawned =>
    have hactive : o.phase.active = true := by rw [hphase]; rfl
    simp only [hphase] at hstep
    cases hfind : table.find s.taskTable o.id with
    | some value =>
      rw [hfind] at hstep
      obtain rfl := Option.some.inj hstep
      exact h.enter hk hactive rfl (by simp) (hnever hphase (by simp)) (h.sound _ _ hfind)
    | none =>
      rw [hfind] at hstep
      obtain rfl := Option.some.inj hstep
      exact h.enter hk hactive rfl (by simp) (hnever hphase (by simp)) trivial
  | found value =>
    have hactive : o.phase.active = true := by rw [hphase]; rfl
    simp only [hphase] at hstep hholds
    obtain rfl := Option.some.inj hstep
    apply h.put hk hactive rfl (by simp) (hnever hphase (by simp))
    · unfold Holds
      rwa [hphase]
    · exact ⟨read_write_self s o.r value, hholds⟩
  | missed =>
    have hactive : o.phase.active = true := by rw [hphase]; rfl
    simp only [hphase] at hstep
    by_cases hbase : o.id.idx = 0 ∨ o.id.wBound = 0
    · rw [if_pos hbase] at hstep
      obtain rfl := Option.some.inj hstep
      apply h.put hk hactive rfl (by simp) (hnever hphase (by simp))
      · unfold Holds
        rw [hphase]
        trivial
      · exact ⟨read_write_self s o.r 0, correct_of_not_inner (not_not.mpr hbase)⟩
    · rw [if_neg hbase] at hstep
      obtain ⟨p, hp, hstep⟩ := Option.bind_eq_some_iff.mp hstep
      obtain rfl := Option.some.inj hstep
      exact h.expand hk hphase hbase hp
  | replaced =>
    simp only [hphase] at hstep
    cases hstep
  | waiting =>
    simp only [hphase] at hstep
    by_cases hready : (s.frames k).refCount = kind.ready
    · rw [if_pos hready] at hstep
      obtain ⟨hzero, x, y, hx, hy, hv⟩ := h.children hk hphase hready
      rw [hx, hy] at hstep
      obtain rfl := Option.some.inj hstep
      exact h.sum hk hphase hzero hv _
    · rw [if_neg hready] at hstep
      cases hstep
  | summed =>
    have hactive : o.phase.active = true := by rw [hphase]; rfl
    simp only [hphase] at hstep hholds
    obtain ⟨value, hread, hv⟩ := hholds
    rw [hread] at hstep
    obtain rfl := Option.some.inj hstep
    exact (h.addAnswer hv).enter hk hactive rfl (by simp) (hnever hphase (by simp)) ⟨hread, hv⟩
  | written value =>
    simp only [hphase] at hstep
    obtain rfl := Option.some.inj hstep
    exact h.finish hk hphase
  | finished value =>
    simp only [hphase] at hstep
    cases hstep

/-- An object that waits for no child has a next step. -/
theorem exists_step_of_ready (hk : s.objects[k]? = some o) (hactive : o.phase.active = true)
    (hready : o.phase = .waiting → (s.frames k).refCount = kind.ready) :
    ∃ s', s.step kind items k = some s' := by
  have hholds := (h.good k o hk).holds
  unfold Holds at hholds
  unfold State.step
  rw [hk, Option.bind_eq_bind, Option.bind_some]
  cases hphase : o.phase with
  | spawned =>
    cases hfind : table.find s.taskTable o.id with
    | some value => exact ⟨_, rfl⟩
    | none => exact ⟨_, rfl⟩
  | found value => exact ⟨_, rfl⟩
  | missed =>
    by_cases hbase : o.id.idx = 0 ∨ o.id.wBound = 0
    · exact ⟨_, if_pos hbase⟩
    · obtain ⟨p, hp⟩ := exists_prepare hbase (h.good k o hk).bounded
      simp only [if_neg hbase, hp]
      exact ⟨_, rfl⟩
  | waiting =>
    obtain ⟨-, x, y, hx, hy, -⟩ := h.children hk hphase (hready hphase)
    simp only [if_pos (hready hphase), hx, hy]
    exact ⟨_, rfl⟩
  | summed =>
    rw [hphase] at hholds
    obtain ⟨value, hread, -⟩ := hholds
    simp only [hread]
    exact ⟨_, rfl⟩
  | written value => exact ⟨_, rfl⟩
  | replaced =>
    rw [hphase] at hactive
    cases hactive
  | finished value =>
    rw [hphase] at hactive
    cases hactive

/-- An active object has a next step, or one of those it waits for has, down to the leaves. -/
theorem exists_step_of_active (hk : s.objects[k]? = some o) (hactive : o.phase.active = true) :
    ∃ j s', s.step kind items j = some s' := by
  induction hidx : o.id.idx using Nat.strong_induction_on generalizing k o with
  | _ n ih =>
    by_cases hwaits : o.phase = .waiting
    · by_cases hready : (s.frames k).refCount = kind.ready
      · exact ⟨k, h.exists_step_of_ready hk hactive fun _ => hready⟩
      · have hcount := (h.good k o hk).counted hwaits
        have hpos : ∃ side, 0 < s.writers (.field k side) := by
          by_cases hx : 0 < s.writers (.field k .x)
          · exact ⟨.x, hx⟩
          · exact ⟨.y, by omega⟩
        obtain ⟨side, hpos⟩ := hpos
        obtain ⟨j, o', hj, hj', hr⟩ := exists_writer hpos
        have hawaits := (h.good j o' hj).awaited hj'
        rw [hr] at hawaits
        obtain ⟨o₁, p, ho₁, -, hp, hchild⟩ := hawaits
        obtain rfl : o = o₁ := Option.some.inj (hk.symm.trans ho₁)
        have hlt := child_idx ((h.good k o hk).inner hwaits).1 hp side
        rw [hchild] at hlt
        exact ih o'.id.idx (by omega) hj hj' rfl
    · exact ⟨k, h.exists_step_of_ready hk hactive fun hphase => absurd hphase hwaits⟩

end Invariant

theorem invariant_start (hroot : root.idx ≤ items.length) :
    Invariant kind items root (start root) := by
  have honly : ∀ {k : ℕ} {o : Object}, (start root).objects[k]? = some o →
      o = ⟨root, .result, .spawned⟩ := by
    intro k o hk
    exact List.mem_singleton.mp (List.mem_of_getElem? hk)
  have hwriters : ∀ slot, (start root).writers slot = if Slot.result = slot then 1 else 0 := by
    intro slot
    by_cases hslot : Slot.result = slot
    · simp [writers, start, Phase.active, hslot]
    · simp [writers, start, hslot]
  have hno : ∀ {slot : Slot} {id : TaskId}, (start root).Awaits items root slot id →
      slot = .result := by
    intro slot id hid
    cases slot with
    | result => rfl
    | field f side =>
      obtain ⟨o, p, ho, hwaits, -⟩ := hid
      rw [honly ho] at hwaits
      cases hwaits
  constructor
  · exact Memo.flat_sound_empty _
  · intro slot
    rw [hwriters]
    split
    · exact Nat.le_refl 1
    · exact Nat.zero_le 1
  · intro k o hk
    rw [honly hk]
    exact .of_not_waiting nofun hroot (fun _ => rfl) trivial
  · intro slot id hid hzero
    rw [hno hid, hwriters] at hzero
    cases hzero
  · rw [hwriters]
    simp [start]

theorem invariant_run (hroot : root.idx ≤ items.length) (schedule : List ℕ)
    (h : run (State.step kind items) (start root) schedule = some s) :
    Invariant kind items root s :=
  run_invariant (fun _ _ _ hs hstep => hs.step hstep) schedule (invariant_start hroot) h

theorem exists_step (hroot : root.idx ≤ items.length) (schedule : List ℕ)
    (h : run (State.step kind items) (start root) schedule = some s) (hdone : s.rootDone = false) :
    ∃ k s', s.step kind items k = some s' := by
  have hinv := invariant_run hroot schedule h
  have hpos : 0 < s.writers .result := by
    apply Nat.pos_of_ne_zero
    intro hzero
    rw [hinv.completes.mpr hzero] at hdone
    cases hdone
  obtain ⟨k, o, hk, hactive, -⟩ := exists_writer hpos
  exact hinv.exists_step_of_active hk hactive

/-- Whatever the schedule, the table holds right answers, tasks write right answers, and the root's
result is the answer of the recursion. -/
theorem every_schedule_correct (kind : Kind) (items : List Item) (W : ℤ) (n : ℕ)
    (hn : n ≤ items.length) (schedule : List ℕ) (s : State)
    (h : run (State.step kind items) (start ⟨W, n⟩) schedule = some s) :
    (∀ id v, table.find s.taskTable id = some v →
      knapSackExp id.wBound id.idx items = some v) ∧
    (∀ o ∈ s.objects, ∀ v,
      (o.phase = .written v → s.read o.r = some v) ∧
      (o.phase = .written v ∨ o.phase = .finished v →
        knapSackExp o.id.wBound o.id.idx items = some v)) ∧
    (s.rootDone = true → knapSackExp W n items = some s.result) := by
  have hinv := invariant_run hn schedule h
  refine ⟨hinv.sound, ?_, ?_⟩
  · intro o hmem v
    obtain ⟨k, hk⟩ := List.mem_iff_getElem?.mp hmem
    have hholds := (hinv.good k o hk).holds
    unfold Holds at hholds
    constructor
    · intro hphase
      rw [hphase] at hholds
      exact hholds.1
    · intro hphase
      cases hphase with
      | inl hwritten =>
        rw [hwritten] at hholds
        exact hholds.2
      | inr hfinished => rwa [hfinished] at hholds
  · intro hdone
    obtain ⟨v, hread, hv⟩ := hinv.settled .result ⟨W, n⟩ rfl (hinv.completes.mp hdone)
    obtain rfl : s.result = v := Option.some.inj hread
    exact hv

/-- Both children of an item too heavy have one id: the second looks it up too early, and what it
works out is inserted in vain. -/
theorem every_schedule_correct_vain :
    ∃ s, run (State.step .future [⟨5, 2⟩, ⟨9, 9⟩]) (start ⟨3, 2⟩)
        [0, 0, 2, 2, 3, 5, 5, 6, 6, 5, 6, 4, 3, 4, 8, 9, 8, 8, 9, 9, 7, 7, 4, 7, 1, 1, 1] = some s ∧
      s.rootDone = true ∧ knapSackExp 3 2 [⟨5, 2⟩, ⟨9, 9⟩] = some s.result := by
  have hrun : (run (State.step .future [⟨5, 2⟩, ⟨9, 9⟩]) (start ⟨3, 2⟩)
      [0, 0, 2, 2, 3, 5, 5, 6, 6, 5, 6, 4, 3, 4, 8, 9, 8, 8, 9, 9, 7, 7, 4, 7, 1, 1, 1]).map
        State.rootDone = some true := by decide
  obtain ⟨s, hs, hdone⟩ := Option.map_eq_some_iff.mp hrun
  exact ⟨s, hs, hdone, (every_schedule_correct .future _ 3 2 (by decide) _ s hs).2.2 hdone⟩

end State

end CppTricks.Knapsack
