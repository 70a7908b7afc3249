import CppTricks.Foundation.Counting
import CppTricks.Foundation.Runs

/-! `rw_semaphore`: any number of threads, whose atomic accesses to the one word interleave. -/
namespace CppTricks.Sync
open Foundation

/-- Between which atomic accesses a thread is. The argument is its `cur_state`. -/
inductive Pc
  | idle
  | lockShared (cur : BitVec 32)
  | reading
  | unlockShared (cur : BitVec 32)
  | lock (cur : BitVec 32)
  | waitPendingReaders
  | writing
  | unlock
deriving DecidableEq

def Pc.isReader : Pc → Bool
  | .reading | .unlockShared _ => true
  | _ => false

def Pc.isWriter : Pc → Bool
  | .waitPendingReaders | .writing | .unlock => true
  | _ => false

/-- Past the wait for the readers. -/
def Pc.isAlone : Pc → Bool
  | .writing | .unlock => true
  | _ => false

def Pc.isBusy : Pc → Bool
  | .idle => false
  | _ => true

structure RwSemaphore (T : Type) where
  state_ : BitVec 32
  pc : T → Pc

namespace RwSemaphore

def kNumReadersMask : BitVec 32 := 0x7fffffff#32
def kWriteFlag : BitVec 32 := 1#32 <<< 31

/-- The word that was there, and the word that is there afterwards. -/
def compareAndSwap (state expected new : BitVec 32) : BitVec 32 × BitVec 32 :=
  (state, if state = expected then new else state)

variable {T : Type}

def init : RwSemaphore T := ⟨0, fun _ => .idle⟩

def move [DecidableEq T] (s : RwSemaphore T) (t : T) (state : BitVec 32) (pc : Pc) :
    RwSemaphore T := ⟨state, Function.update s.pc t pc⟩

/-- The next atomic access of a thread. One that holds nothing starts to lock, for writing if the
second component says so, and one that holds the semaphore starts to unlock. `none` is a check
that fails. -/
def step [DecidableEq T] (s : RwSemaphore T) (a : T × Bool) : Option (RwSemaphore T) :=
  let t := a.1
  match s.pc t with
  | .idle => some (s.move t s.state_ (if a.2 then .lock s.state_ else .lockShared s.state_))
  | .lockShared cur =>
    let expected := cur &&& kNumReadersMask
    let (cur, state) := compareAndSwap s.state_ expected (expected + 1)
    some (s.move t state (if cur = expected then .reading else .lockShared cur))
  | .reading => some (s.move t s.state_ (.unlockShared s.state_))
  | .unlockShared cur =>
    if cur &&& kNumReadersMask = 0 then none
    else
      let expected := cur
      let (cur, state) := compareAndSwap s.state_ expected (expected - 1)
      some (s.move t state (if cur = expected then .idle else .unlockShared cur))
  | .lock cur =>
    let expected := cur &&& kNumReadersMask
    let (cur, state) := compareAndSwap s.state_ expected (kWriteFlag ||| expected)
    some (s.move t state (if cur = expected then .waitPendingReaders else .lock cur))
  | .waitPendingReaders =>
    some (s.move t s.state_
      (if s.state_ &&& kNumReadersMask = 0 then .writing else .waitPendingReaders))
  | .writing => if s.state_ ≠ kWriteFlag then none else some (s.move t s.state_ .unlock)
  | .unlock => some (s.move t 0 .idle)

def readers [Fintype T] (s : RwSemaphore T) : ℕ :=
  (Finset.univ.filter fun t => (s.pc t).isReader).card

def writers [Fintype T] (s : RwSemaphore T) : ℕ :=
  (Finset.univ.filter fun t => (s.pc t).isWriter).card

variable {s s' : RwSemaphore T} {t u : T} {w : BitVec 32} {pc : Pc}

/-! ### The word -/

theorem toNat_and_mask (w : BitVec 32) : (w &&& kNumReadersMask).toNat = w.toNat % 2 ^ 31 := by
  rw [BitVec.toNat_and, show kNumReadersMask.toNat = 2 ^ 31 - 1 by rfl,
    Nat.and_two_pow_sub_one_eq_mod]

theorem and_mask_eq_zero_iff : w &&& kNumReadersMask = 0 ↔ w.toNat % 2 ^ 31 = 0 := by
  rw [← toNat_and_mask, ← BitVec.toNat_inj]
  rfl

theorem eq_and_mask_iff {v : BitVec 32} :
    v = w &&& kNumReadersMask ↔ v.toNat = w.toNat % 2 ^ 31 := by
  rw [← toNat_and_mask, BitVec.toNat_inj]

theorem toNat_flag_or (h : w.toNat < 2 ^ 31) : (kWriteFlag ||| w).toNat = 2 ^ 31 + w.toNat := by
  rw [BitVec.toNat_or, show kWriteFlag.toNat = 1 <<< 31 by rfl,
    ← Nat.shiftLeft_add_eq_or_of_lt h]
  rfl

section Counts

variable [Fintype T]

theorem readers_pos (h : (s.pc t).isReader = true) : 0 < s.readers :=
  Finset.card_pos.mpr ⟨t, Finset.mem_filter.mpr ⟨Finset.mem_univ t, h⟩⟩

theorem writers_pos (h : (s.pc t).isWriter = true) : 0 < s.writers :=
  Finset.card_pos.mpr ⟨t, Finset.mem_filter.mpr ⟨Finset.mem_univ t, h⟩⟩

theorem readers_lt (hT : Fintype.card T < 2 ^ 31) (s : RwSemaphore T) : s.readers < 2 ^ 31 :=
  (Finset.card_le_univ _).trans_lt hT

theorem isWriter_of_isAlone (h : pc.isAlone = true) : pc.isWriter = true := by
  cases pc <;> first | rfl | cases h

/-- The word counts the readers below the flag of the writer. -/
structure Inv (s : RwSemaphore T) : Prop where
  word : s.state_.toNat = s.readers + 2 ^ 31 * s.writers
  exclusive : s.writers ≤ 1
  alone : ∀ t, (s.pc t).isAlone = true → s.readers = 0
  cur : ∀ t w, s.pc t = .unlockShared w → w &&& kNumReadersMask ≠ 0

/-- While there is a reader, `unlock_shared` sees one. -/
theorem Inv.and_mask_ne_zero (h : Inv s) (hT : Fintype.card T < 2 ^ 31)
    (ht : (s.pc t).isReader = true) : s.state_ &&& kNumReadersMask ≠ 0 := by
  have hlt := readers_lt hT s
  have hpos := readers_pos ht
  have hword := h.word
  intro hzero
  rw [and_mask_eq_zero_iff] at hzero
  omega

theorem inv_init : Inv (init : RwSemaphore T) where
  word := by
    unfold readers writers init
    simp [Pc.isReader, Pc.isWriter]
  exclusive := by
    unfold writers init
    simp [Pc.isWriter]
  alone := fun t h => by cases h
  cur := fun t w h => by cases h

end Counts

section Moves

variable [DecidableEq T]

theorem pc_move_self (s : RwSemaphore T) (t : T) (w : BitVec 32) (pc : Pc) :
    (s.move t w pc).pc t = pc := by
  simp [move]

theorem pc_move_of_ne (h : u ≠ t) (s : RwSemaphore T) (w : BitVec 32) (pc : Pc) :
    (s.move t w pc).pc u = s.pc u := by
  simp [move, h]

variable [Fintype T]

/-- What an access by a thread makes of the two counts. -/
theorem readers_move (s : RwSemaphore T) (t : T) (w : BitVec 32) (pc : Pc) :
    (s.move t w pc).readers + (if (s.pc t).isReader then 1 else 0) =
      s.readers + if pc.isReader then 1 else 0 := card_filter_update Pc.isReader s.pc t pc

theorem writers_move (s : RwSemaphore T) (t : T) (w : BitVec 32) (pc : Pc) :
    (s.move t w pc).writers + (if (s.pc t).isWriter then 1 else 0) =
      s.writers + if pc.isWriter then 1 else 0 := card_filter_update Pc.isWriter s.pc t pc

/-- An access that keeps the word right, and adds no reader beside a writer. -/
theorem Inv.move (h : Inv s)
    (hword : w.toNat = (s.move t w pc).readers + 2 ^ 31 * (s.move t w pc).writers)
    (hexclusive : (s.move t w pc).writers ≤ 1)
    (hreaders : s.writers = 0 ∨ (s.move t w pc).readers ≤ s.readers)
    (halone : pc.isAlone = true → (s.move t w pc).readers = 0)
    (hcur : ∀ v, pc = .unlockShared v → v &&& kNumReadersMask ≠ 0) : Inv (s.move t w pc) where
  word := hword
  exclusive := hexclusive
  alone := by
    intro u hu
    by_cases hut : u = t
    · subst hut
      rw [pc_move_self] at hu
      exact halone hu
    · rw [pc_move_of_ne hut] at hu
      have hzero := h.alone u hu
      have hpos := writers_pos (isWriter_of_isAlone hu)
      omega
  cur := by
    intro u v hv
    by_cases hut : u = t
    · subst hut
      rw [pc_move_self] at hv
      exact hcur v hv
    · rw [pc_move_of_ne hut] at hv
      exact h.cur u v hv

/-- An access that changes neither the word nor what the thread holds. -/
theorem Inv.stay (h : Inv s) (hr : pc.isReader = (s.pc t).isReader)
    (hw : pc.isWriter = (s.pc t).isWriter) (halone : pc.isAlone = true → s.readers = 0)
    (hcur : ∀ v, pc = .unlockShared v → v &&& kNumReadersMask ≠ 0) :
    Inv (s.move t s.state_ pc) := by
  have hreaders := readers_move s t s.state_ pc
  have hwriters := writers_move s t s.state_ pc
  rw [hr, Nat.add_right_cancel_iff] at hreaders
  rw [hw, Nat.add_right_cancel_iff] at hwriters
  refine h.move ?_ ?_ (.inr hreaders.le) ?_ hcur
  · rw [hreaders, hwriters]
    exact h.word
  · rw [hwriters]
    exact h.exclusive
  · rwa [hreaders]

theorem Inv.step (hT : Fintype.card T < 2 ^ 31) (h : Inv s) (a : T × Bool) :
    ∃ s', step s a = some s' ∧ Inv s' := by
  obtain ⟨t, exclusive⟩ := a
  have hlt := readers_lt hT s
  have hword := h.word
  have hex := h.exclusive
  unfold RwSemaphore.step compareAndSwap
  dsimp only
  cases hpc : s.pc t with
  | idle =>
    refine ⟨_, rfl, h.stay ?_ ?_ ?_ ?_⟩
    all_goals
      cases exclusive
      all_goals simp [hpc, Pc.isReader, Pc.isWriter, Pc.isAlone]
  | lockShared cur =>
    dsimp only
    split_ifs with hcas
    · -- no writer has set the flag
      have hr := readers_move s t ((cur &&& kNumReadersMask) + 1) .reading
      have hw := writers_move s t ((cur &&& kNumReadersMask) + 1) .reading
      rw [eq_and_mask_iff] at hcas
      simp only [hpc, Pc.isReader, Pc.isWriter, Bool.false_eq_true, if_false, if_true] at hr hw
      refine ⟨_, rfl, h.move ?_ (by omega) (by omega) nofun nofun⟩
      rw [BitVec.toNat_add, toNat_and_mask, show (1 : BitVec 32).toNat = 1 by rfl]
      omega
    · exact ⟨_, rfl, h.stay (by rw [hpc]; rfl) (by rw [hpc]; rfl) nofun nofun⟩
  | reading =>
    refine ⟨_, rfl, h.stay (by rw [hpc]; rfl) (by rw [hpc]; rfl) nofun ?_⟩
    rintro v ⟨⟩
    exact h.and_mask_ne_zero hT (t := t) (by rw [hpc]; rfl)
  | unlockShared cur =>
    have hpos := readers_pos (s := s) (t := t) (by rw [hpc]; rfl)
    dsimp only
    rw [if_neg (h.cur t cur hpc)]
    split_ifs with hcas
    · have hr := readers_move s t (cur - 1) .idle
      have hw := writers_move s t (cur - 1) .idle
      simp only [hpc, Pc.isReader, Pc.isWriter, Bool.false_eq_true, if_false, if_true] at hr hw
      refine ⟨_, rfl, h.move ?_ (by omega) (by omega) nofun nofun⟩
      rw [hcas] at hword
      rw [BitVec.toNat_sub, show (1 : BitVec 32).toNat = 1 by rfl]
      omega
    · refine ⟨_, rfl, h.stay (by rw [hpc]; rfl) (by rw [hpc]; rfl) nofun ?_⟩
      rintro v ⟨⟩
      exact h.and_mask_ne_zero hT (t := t) (by rw [hpc]; rfl)
  | lock cur =>
    dsimp only
    split_ifs with hcas
    · have hr := readers_move s t (kWriteFlag ||| (cur &&& kNumReadersMask)) .waitPendingReaders
      have hw := writers_move s t (kWriteFlag ||| (cur &&& kNumReadersMask)) .waitPendingReaders
      have hmask := toNat_and_mask cur
      rw [eq_and_mask_iff] at hcas
      simp only [hpc, Pc.isReader, Pc.isWriter, Bool.false_eq_true, if_false, if_true] at hr hw
      refine ⟨_, rfl, h.move ?_ (by omega) (by omega) nofun nofun⟩
      rw [toNat_flag_or (by omega)]
      omega
    · exact ⟨_, rfl, h.stay (by rw [hpc]; rfl) (by rw [hpc]; rfl) nofun nofun⟩
  | waitPendingReaders =>
    have hpos := writers_pos (s := s) (t := t) (by rw [hpc]; rfl)
    dsimp only
    split_ifs with hzero
    · rw [and_mask_eq_zero_iff] at hzero
      exact ⟨_, rfl, h.stay (by rw [hpc]; rfl) (by rw [hpc]; rfl) (fun _ => by omega) nofun⟩
    · exact ⟨_, rfl, h.stay (by rw [hpc]) (by rw [hpc]) nofun nofun⟩
  | writing =>
    have hpos := writers_pos (s := s) (t := t) (by rw [hpc]; rfl)
    have halone := h.alone t (by rw [hpc]; rfl)
    have hflag : s.state_ = kWriteFlag := by
      refine BitVec.eq_of_toNat_eq ?_
      rw [hword, halone, show s.writers = 1 by omega]
      rfl
    dsimp only
    rw [if_neg (not_not.mpr hflag)]
    exact ⟨_, rfl, h.stay (by rw [hpc]; rfl) (by rw [hpc]; rfl) (fun _ => halone) nofun⟩
  | unlock =>
    have hpos := writers_pos (s := s) (t := t) (by rw [hpc]; rfl)
    have halone := h.alone t (by rw [hpc]; rfl)
    have hr := readers_move s t 0 .idle
    have hw := writers_move s t 0 .idle
    simp only [hpc, Pc.isReader, Pc.isWriter, Bool.false_eq_true, if_false, if_true] at hr hw
    refine ⟨_, rfl, h.move ?_ (by omega) (by omega) nofun nofun⟩
    rw [show (0 : BitVec 32).toNat = 0 by rfl]
    omega

theorem Inv.run (hT : Fintype.card T < 2 ^ 31) (h : Inv s) (as : List (T × Bool)) :
    ∃ s', run RwSemaphore.step s as = some s' ∧ Inv s' :=
  exists_run_invariant (fun _ a h => h.step hT a) as h

/-- In every interleaving no check fails, the word counts the readers under the flag of the
writer, there is at most one writer, and no reader beside a writer that has stopped waiting. -/
theorem run_exclusion (hT : Fintype.card T < 2 ^ 31) (as : List (T × Bool)) :
    ∃ s, Foundation.run step init as = some s ∧
      s.state_.toNat = s.readers + 2 ^ 31 * s.writers ∧
      (∀ t u, (s.pc t).isWriter = true → (s.pc u).isWriter = true → t = u) ∧
      ∀ t u, (s.pc t).isAlone = true → (s.pc u).isReader = false := by
  obtain ⟨s, hrun, hinv⟩ := inv_init.run hT as
  refine ⟨s, hrun, hinv.word, ?_, ?_⟩
  · intro t u ht hu
    exact Finset.card_le_one.mp hinv.exclusive t
      (Finset.mem_filter.mpr ⟨Finset.mem_univ t, ht⟩) u
      (Finset.mem_filter.mpr ⟨Finset.mem_univ u, hu⟩)
  · intro t u ht
    by_contra hu
    have hpos := readers_pos (s := s) (t := u) (by simpa using hu)
    have hzero := hinv.alone t ht
    omega

theorem run_exclusion_three : ∃ s, Foundation.run step (init (T := Fin 3))
      [(0, false), (0, false), (1, true), (1, true), (2, false), (0, false), (0, false)] = some s ∧
    s.state_.toNat = s.readers + 2 ^ 31 * s.writers ∧
    (∀ t u, (s.pc t).isWriter = true → (s.pc u).isWriter = true → t = u) ∧
    ∀ t u, (s.pc t).isAlone = true → (s.pc u).isReader = false :=
  run_exclusion (by decide) _

/-! ### Waiting writers -/

/-- Beside a writer no thread becomes a reader. -/
theorem Inv.reader_of_step (hT : Fintype.card T < 2 ^ 31) (h : Inv s) (hw : 0 < s.writers)
    {a : T × Bool} (hstep : RwSemaphore.step s a = some s') (hu : (s'.pc u).isReader = true) :
    (s.pc u).isReader = true := by
  obtain ⟨t, exclusive⟩ := a
  have hlt := readers_lt hT s
  have hword := h.word
  unfold RwSemaphore.step compareAndSwap at hstep
  dsimp only at hstep
  -- only the thread that moves may have changed
  have hmoved : ∀ w pc, pc.isReader = false ∨ (s.pc t).isReader = true →
      some (s.move t w pc) = some s' → (s.pc u).isReader = true := by
    rintro w pc hpc ⟨⟩
    by_cases hut : u = t
    · rw [hut, pc_move_self] at hu
      rw [hut]
      exact hpc.resolve_left (by rw [hu]; decide)
    · rwa [pc_move_of_ne hut] at hu
  cases hpc : s.pc t with
  | idle =>
    rw [hpc] at hstep
    refine hmoved _ _ (.inl ?_) hstep
    cases exclusive <;> rfl
  | lockShared cur =>
    rw [hpc] at hstep
    dsimp only at hstep
    split_ifs at hstep with hcas
    · rw [eq_and_mask_iff] at hcas
      omega
    · exact hmoved _ _ (.inl rfl) hstep
  | reading =>
    rw [hpc] at hstep
    exact hmoved _ _ (.inr (by rw [hpc]; rfl)) hstep
  | unlockShared cur =>
    rw [hpc] at hstep
    dsimp only at hstep
    rw [if_neg (h.cur t cur hpc)] at hstep
    exact hmoved _ _ (.inr (by rw [hpc]; rfl)) hstep
  | lock cur =>
    rw [hpc] at hstep
    refine hmoved _ _ (.inl ?_) hstep
    split_ifs <;> rfl
  | waitPendingReaders =>
    rw [hpc] at hstep
    refine hmoved _ _ (.inl ?_) hstep
    split_ifs <;> rfl
  | writing =>
    rw [hpc] at hstep
    dsimp only at hstep
    split_ifs at hstep
    exact hmoved _ _ (.inl rfl) hstep
  | unlock =>
    rw [hpc] at hstep
    exact hmoved _ _ (.inl rfl) hstep

theorem Inv.reader_of_run (hT : Fintype.card T < 2 ^ 31) (h : Inv s) (bs : List (T × Bool))
    (hwait : ∀ p u, p <+: bs → Foundation.run RwSemaphore.step s p = some u →
      (u.pc t).isWriter = true)
    (hrun : Foundation.run RwSemaphore.step s bs = some s') (hu : (s'.pc u).isReader = true) :
    (s.pc u).isReader = true := by
  induction bs using List.reverseRecOn generalizing s' with
  | nil =>
    obtain rfl := Option.some.inj hrun
    exact hu
  | append_singleton bs b ih =>
    obtain ⟨s₁, hfront, hinv⟩ := h.run hT bs
    have hwriter := hwait bs s₁ (List.prefix_append bs [b]) hfront
    rw [run_concat, hfront, Option.bind_some] at hrun
    have hprev := hinv.reader_of_step hT (writers_pos hwriter) hrun hu
    exact ih (fun p v hp => hwait p v (hp.trans (List.prefix_append bs [b]))) hfront hprev

/-- While a writer waits no thread becomes a reader, and when the readers have left its next
access gives it the lock. -/
theorem run_waiting (hT : Fintype.card T < 2 ^ 31) (as bs : List (T × Bool)) (t : T) :
    ∃ s s', Foundation.run step init as = some s ∧ Foundation.run step s bs = some s' ∧
      ((∀ p u, p <+: bs → Foundation.run step s p = some u → u.pc t = .waitPendingReaders) →
        (∀ u, (s'.pc u).isReader = true → (s.pc u).isReader = true) ∧
          ((∀ u, (s'.pc u).isReader = false) → ∀ b, ∃ s'',
            step s' (t, b) = some s'' ∧ s''.pc t = .writing)) := by
  obtain ⟨s, hs, hinv⟩ := inv_init.run hT as
  obtain ⟨s', hrun, hinv'⟩ := hinv.run hT bs
  refine ⟨s, s', hs, hrun, fun hwait => ⟨?_, ?_⟩⟩
  · intro u hu
    exact hinv.reader_of_run hT bs (fun p v hp hv => by rw [hwait p v hp hv]; rfl) hrun hu
  · intro hnone b
    have hpc := hwait bs s' List.prefix_rfl hrun
    have hzero : s'.readers = 0 := by
      unfold readers
      rw [Finset.card_eq_zero, Finset.filter_eq_empty_iff]
      intro u _
      rw [hnone u]
      decide
    have hmask : s'.state_ &&& kNumReadersMask = 0 := by
      rw [and_mask_eq_zero_iff, hinv'.word, hzero]
      omega
    refine ⟨s'.move t s'.state_ .writing, ?_, pc_move_self s' t _ _⟩
    unfold step
    simp only [hpc, hmask, if_true]

theorem run_waiting_three : ∃ s s',
    Foundation.run step (init (T := Fin 3)) [(0, false), (0, false), (1, true), (1, true)] =
        some s ∧
      Foundation.run step s [(2, false), (2, false), (0, false), (0, false)] = some s' ∧
      (∀ u, (s'.pc u).isReader = true → (s.pc u).isReader = true) ∧
      ∀ b, ∃ s'', step s' (1, b) = some s'' ∧ s''.pc 1 = .writing := by
  obtain ⟨s, s', hs, hs', hwaiting⟩ := run_waiting (T := Fin 3) (by decide)
    [(0, false), (0, false), (1, true), (1, true)]
    [(2, false), (2, false), (0, false), (0, false)] 1
  have hpc : ∀ k ≤ 4, (Foundation.run step (init (T := Fin 3))
      ([(0, false), (0, false), (1, true), (1, true)] ++
        [(2, false), (2, false), (0, false), (0, false)].take k)).map (·.pc 1) =
          some .waitPendingReaders := by decide
  have hleft : ∀ u, (Foundation.run step (init (T := Fin 3))
      ([(0, false), (0, false), (1, true), (1, true)] ++
        [(2, false), (2, false), (0, false), (0, false)])).map (fun s => (s.pc u).isReader) =
          some false := by decide
  simp only [run_append, hs, Option.bind_some] at hpc hleft
  rw [hs'] at hleft
  obtain ⟨hreaders, hnext⟩ := hwaiting fun p u hp hu => by
    have hstay := hpc p.length hp.length_le
    rw [← List.prefix_iff_eq_take.mp hp, hu] at hstay
    exact Option.some.inj hstay
  exact ⟨s, s', hs, hs', hreaders, hnext fun u => Option.some.inj (hleft u)⟩

end Moves

/-! ### Progress -/

section Progress

variable [DecidableEq T]

/-- Some accesses of one thread alone end with it idle, and change no other thread. -/
def Exits (s : RwSemaphore T) (t : T) : Prop :=
  ∃ bs s', Foundation.run step s bs = some s' ∧ s'.pc t = .idle ∧ ∀ u, u ≠ t → s'.pc u = s.pc u

theorem Exits.of_move (hstep : step s (t, false) = some (s.move t w pc))
    (h : Exits (s.move t w pc) t) : Exits s t := by
  obtain ⟨bs, s', hrun, hidle, hrest⟩ := h
  refine ⟨(t, false) :: bs, s', ?_, hidle, ?_⟩
  · rw [run_cons, hstep, Option.bind_some, hrun]
  · intro u hu
    rw [hrest u hu, pc_move_of_ne hu]

theorem exits_idle (hpc : s.pc t = .idle) : Exits s t := ⟨[], s, rfl, hpc, fun _ _ => rfl⟩

theorem exits_unlock (hpc : s.pc t = .unlock) : Exits s t :=
  .of_move (by simp only [step, hpc]) (exits_idle (pc_move_self s t 0 .idle))

theorem exits_writing (hpc : s.pc t = .writing) (hflag : s.state_ = kWriteFlag) : Exits s t :=
  .of_move (by simp only [step, hpc, hflag, ne_eq, not_true_eq_false, if_false])
    (exits_unlock (pc_move_self s t kWriteFlag .unlock))

theorem exits_waitPendingReaders (hpc : s.pc t = .waitPendingReaders)
    (hflag : s.state_ = kWriteFlag) : Exits s t :=
  .of_move (w := kWriteFlag) (by simp only [step, hpc, hflag]; rfl)
    (exits_writing (pc_move_self s t kWriteFlag .writing) rfl)

/-- A compare and swap that fails is repeated with the word that is there. -/
theorem exits_unlockShared {cur : BitVec 32} (hpc : s.pc t = .unlockShared cur)
    (hcur : cur &&& kNumReadersMask ≠ 0) (hstate : s.state_ &&& kNumReadersMask ≠ 0) :
    Exits s t := by
  have hfresh : ∀ s : RwSemaphore T, s.pc t = .unlockShared s.state_ →
      s.state_ &&& kNumReadersMask ≠ 0 → Exits s t := fun s hpc hstate =>
    .of_move (by simp only [step, hpc, if_neg hstate, compareAndSwap, if_true])
      (exits_idle (pc_move_self s t (s.state_ - 1) .idle))
  by_cases hcas : s.state_ = cur
  · rw [← hcas] at hpc
    exact hfresh s hpc hstate
  · exact .of_move (by simp only [step, hpc, if_neg hcur, compareAndSwap, if_neg hcas])
      (hfresh _ (pc_move_self s t s.state_ (.unlockShared s.state_)) hstate)

theorem exits_reading (hpc : s.pc t = .reading) (hstate : s.state_ &&& kNumReadersMask ≠ 0) :
    Exits s t :=
  .of_move (by simp only [step, hpc])
    (exits_unlockShared (pc_move_self s t s.state_ (.unlockShared s.state_)) hstate hstate)

theorem exits_lockShared {cur : BitVec 32} (hpc : s.pc t = .lockShared cur) (hzero : s.state_ = 0) :
    Exits s t := by
  have hfresh : ∀ (s : RwSemaphore T) (cur : BitVec 32), s.pc t = .lockShared cur →
      s.state_ = cur &&& kNumReadersMask → s.state_ = 0 → Exits s t := fun s cur hpc hcas hzero =>
    .of_move (w := 1) (by simp only [step, hpc, compareAndSwap, ← hcas, hzero, if_true]; rfl)
      (exits_reading (pc_move_self s t 1 .reading) (show (1#32) &&& kNumReadersMask ≠ 0 by decide))
  by_cases hcas : s.state_ = cur &&& kNumReadersMask
  · exact hfresh s cur hpc hcas hzero
  · refine .of_move (by simp only [step, hpc, compareAndSwap, if_neg hcas])
      (hfresh _ s.state_ (pc_move_self s t s.state_ _) ?_ hzero)
    rw [hzero]
    rfl

theorem exits_lock {cur : BitVec 32} (hpc : s.pc t = .lock cur) (hzero : s.state_ = 0) :
    Exits s t := by
  have hfresh : ∀ (s : RwSemaphore T) (cur : BitVec 32), s.pc t = .lock cur →
      s.state_ = cur &&& kNumReadersMask → s.state_ = 0 → Exits s t := fun s cur hpc hcas hzero =>
    .of_move (w := kWriteFlag)
      (by simp only [step, hpc, compareAndSwap, ← hcas, hzero, if_true]; rfl)
      (exits_waitPendingReaders (pc_move_self s t kWriteFlag .waitPendingReaders) rfl)
  by_cases hcas : s.state_ = cur &&& kNumReadersMask
  · exact hfresh s cur hpc hcas hzero
  · refine .of_move (by simp only [step, hpc, compareAndSwap, if_neg hcas])
      (hfresh _ s.state_ (pc_move_self s t s.state_ _) ?_ hzero)
    rw [hzero]
    rfl

variable [Fintype T]

/-- A reader can leave. Without readers the writer can, and without both every thread can. -/
theorem Inv.exists_exits (hT : Fintype.card T < 2 ^ 31) (h : Inv s) (hne : ∃ t, s.pc t ≠ .idle) :
    ∃ t, s.pc t ≠ .idle ∧ Exits s t := by
  have hlt := readers_lt hT s
  have hword := h.word
  have hex := h.exclusive
  by_cases hreader : ∃ t, (s.pc t).isReader = true
  · obtain ⟨t, ht⟩ := hreader
    have hstate := h.and_mask_ne_zero hT ht
    cases hpc : s.pc t with
    | reading => exact ⟨t, by rw [hpc]; nofun, exits_reading hpc hstate⟩
    | unlockShared cur =>
      exact ⟨t, by rw [hpc]; nofun, exits_unlockShared hpc (h.cur t cur hpc) hstate⟩
    | _ =>
      rw [hpc] at ht
      cases ht
  · have hreaders : s.readers = 0 := by
      unfold readers
      rw [Finset.card_eq_zero, Finset.filter_eq_empty_iff]
      exact fun t _ ht => hreader ⟨t, ht⟩
    by_cases hwriter : ∃ t, (s.pc t).isWriter = true
    · obtain ⟨t, ht⟩ := hwriter
      have hpos := writers_pos ht
      have hflag : s.state_ = kWriteFlag := by
        refine BitVec.eq_of_toNat_eq ?_
        rw [hword, hreaders, show s.writers = 1 by omega]
        rfl
      cases hpc : s.pc t with
      | waitPendingReaders => exact ⟨t, by rw [hpc]; nofun, exits_waitPendingReaders hpc hflag⟩
      | writing => exact ⟨t, by rw [hpc]; nofun, exits_writing hpc hflag⟩
      | unlock => exact ⟨t, by rw [hpc]; nofun, exits_unlock hpc⟩
      | _ =>
        rw [hpc] at ht
        cases ht
    · have hwriters : s.writers = 0 := by
        unfold writers
        rw [Finset.card_eq_zero, Finset.filter_eq_empty_iff]
        exact fun t _ ht => hwriter ⟨t, ht⟩
      have hzero : s.state_ = 0 := by
        refine BitVec.eq_of_toNat_eq ?_
        rw [hword, hreaders, hwriters]
        rfl
      obtain ⟨t, ht⟩ := hne
      refine ⟨t, ht, ?_⟩
      cases hpc : s.pc t with
      | idle => exact exits_idle hpc
      | lockShared cur => exact exits_lockShared hpc hzero
      | lock cur => exact exits_lock hpc hzero
      | reading | unlockShared cur => exact absurd ⟨t, by rw [hpc]; rfl⟩ hreader
      | waitPendingReaders | writing | unlock => exact absurd ⟨t, by rw [hpc]; rfl⟩ hwriter

def busy (s : RwSemaphore T) : ℕ := (Finset.univ.filter fun t => (s.pc t).isBusy).card

theorem Exits.exists_busy_lt (h : Exits s t) (hne : s.pc t ≠ .idle) :
    ∃ bs s', Foundation.run step s bs = some s' ∧ s'.busy < s.busy := by
  obtain ⟨bs, s', hrun, hidle, hrest⟩ := h
  have hpc : s'.pc = Function.update s.pc t .idle := by
    funext u
    by_cases hut : u = t
    · rw [hut, Function.update_self, hidle]
    · rw [Function.update_of_ne hut, hrest u hut]
  have hcard := card_filter_update Pc.isBusy s.pc t .idle
  have hbusy : (s.pc t).isBusy = true := by
    cases hpct : s.pc t <;> first | rfl | exact absurd hpct hne
  rw [← hpc, hbusy, if_pos rfl, if_neg (by decide)] at hcard
  refine ⟨bs, s', hrun, ?_⟩
  unfold busy
  omega

theorem Inv.exists_run_idle (hT : Fintype.card T < 2 ^ 31) (h : Inv s) :
    ∃ bs s', Foundation.run RwSemaphore.step s bs = some s' ∧ s'.state_ = 0 ∧
      ∀ t, s'.pc t = .idle := by
  induction hn : s.busy using Nat.strong_induction_on generalizing s with
  | _ n ih =>
    subst hn
    by_cases hall : ∀ t, s.pc t = .idle
    · refine ⟨[], s, rfl, BitVec.eq_of_toNat_eq ?_, hall⟩
      rw [h.word]
      unfold readers writers
      simp [hall, Pc.isReader, Pc.isWriter]
    · obtain ⟨t, hne, hexits⟩ := h.exists_exits hT (not_forall.mp hall)
      obtain ⟨bs, s₁, hrun, hlt⟩ := hexits.exists_busy_lt hne
      obtain ⟨_, hrun', hinv⟩ := h.run hT bs
      obtain rfl := Option.some.inj (hrun.symm.trans hrun')
      obtain ⟨cs, s₂, hrest, hend⟩ := ih _ hlt hinv rfl
      exact ⟨bs ++ cs, s₂, by rw [run_append, hrun, Option.bind_some, hrest], hend⟩

end Progress

end RwSemaphore

end CppTricks.Sync
