import CppTricks.Foundation.Loops
import CppTricks.Foundation.Runs
import Mathlib.Data.Nat.Notation

/-! `write_and_read` over a byte-sized `T`. -/
namespace CppTricks.Queue
open Foundation

variable {T : Type}

/-- The cells handed to the constructor, and the pointers as distances from `m_start`. -/
structure WriteAndRead (T : Type) where
  cells : List T
  producerPtr : ℕ
  consumerPtr : ℕ
  maxCountCells : ℕ
  numOfCells : ℕ

namespace WriteAndRead

/-- A caller of `write` passes as many elements as it says. -/
inductive Call (T : Type)
  | write (elems : List T)
  | read (n : ℕ)

/-- The elements that an accepted `write` stored, or that a `read` loaded, each with its cell. -/
inductive Answer (T : Type)
  | write (stored : Option (List (T × ℕ)))
  | read (loaded : List (T × ℕ))

def sizeofT : ℕ := 1

def create (s : List T) : WriteAndRead T := ⟨s, 0, 0, s.length, 0⟩

/-- `*m_producer_ptr = x; ++m_producer_ptr` -/
def storeCell (st : List (T × ℕ) × WriteAndRead T) (x : T) :
    Option (List (T × ℕ) × WriteAndRead T) :=
  let (stored, b) := st
  if b.producerPtr < b.cells.length then
    some (stored ++ [(x, b.producerPtr)], { b with
      cells := b.cells.set b.producerPtr x
      producerPtr := b.producerPtr + 1 })
  else none

/-- `write(in_ptr, n)`; no result stands for an access outside the cells or the input. -/
def write (b : WriteAndRead T) (inPtr : Option (List T)) (n : ℕ) :
    Option (Option (List (T × ℕ)) × WriteAndRead T) := do
  if inPtr.isNone ∧ n > 0 then return (none, b)
  let requestedCells := n * sizeofT
  if b.maxCountCells - b.numOfCells < requestedCells then return (none, b)
  let (stored, b) ← (List.range' 0 n).foldlM (fun st i => (inPtr.getD [])[i]?.bind (storeCell st))
    ([], b)
  return (some stored, { b with numOfCells := b.numOfCells + requestedCells })

/-- The loop of `read`: what it loads, and where `m_consumer_ptr` ends up. -/
def drain (cells : List T) (producerPtr : ℕ) : ℕ → ℕ → List (T × ℕ) → Option (List (T × ℕ) × ℕ)
  | 0, _, _ => none
  | fuel + 1, consumerPtr, loaded =>
    if producerPtr ≠ consumerPtr then do
      let x ← cells[consumerPtr]?
      drain cells producerPtr fuel (consumerPtr + 1) (loaded ++ [(x, consumerPtr)])
    else some (loaded, consumerPtr)

/-- `read(n)`: each element loaded is stored in the `n` bytes allocated. The loop is out of the
cells after as many rounds as there are cells. -/
def read (b : WriteAndRead T) (n : ℕ) : Option (List (T × ℕ) × WriteAndRead T) := do
  if n = 0 then return ([], b)
  let (loaded, consumerPtr) ← drain b.cells b.producerPtr (b.cells.length + 1) b.consumerPtr []
  let count := loaded.length
  let consumerPtr := if count < n then 0 else consumerPtr
  return (loaded, { b with consumerPtr })

def call (b : WriteAndRead T) : Call T → Option (Answer T × WriteAndRead T)
  | .write elems => do
    let (stored, b) ← b.write (some elems) elems.length
    return (.write stored, b)
  | .read n => do
    let (loaded, b) ← b.read n
    return (.read loaded, b)

/-- Calls with their answers deliver in the order written, `q` being undelivered before: a write is
accepted iff the free ones of `n` cells suffice and then stores in these cells, a read loads cells
with the first undelivered elements, as many as it asked for at most. -/
def Delivers (n : ℕ) : List (T × ℕ) → List (Call T × Answer T) → Prop
  | _, [] => True
  | q, (.write elems, .write none) :: rest => n - q.length < elems.length ∧ Delivers n q rest
  | q, (.write elems, .write (some stored)) :: rest =>
    elems.length ≤ n - q.length ∧ stored.map Prod.fst = elems ∧ (∀ x ∈ stored, x.2 < n) ∧
      Delivers n (q ++ stored) rest
  | q, (.read k, .read loaded) :: rest =>
    loaded <+: q ∧ loaded.length ≤ k ∧ Delivers n (q.drop loaded.length) rest
  | _, _ => False

/-- How many elements were accepted so far and how many of them not delivered, and whether some read
asked for more than there was to deliver after something had been written. -/
structure Ledger where
  written : ℕ
  undelivered : ℕ
  rewound : Bool

/-- The ledger after a call, as it should be. -/
def Ledger.after (n : ℕ) (l : Ledger) : Call T → Ledger
  | .write elems =>
    if elems.length ≤ n - l.undelivered then
      ⟨l.written + elems.length, l.undelivered + elems.length, l.rewound⟩
    else l
  | .read k =>
    if k = 0 then l else ⟨l.written, 0, l.rewound || decide (l.undelivered < k ∧ 0 < l.written)⟩

/-- A write finds room behind all that was ever written if the free cells suffice, and a read asks
for no less than is undelivered and comes after none that asked for more. -/
def Ledger.Suits (n : ℕ) (l : Ledger) : Call T → Prop
  | .write elems => elems.length ≤ n - l.written ∨ n - l.undelivered < elems.length
  | .read k => k = 0 ∨ l.undelivered ≤ k ∧ l.rewound = false

def Ledger.AllSuit (n : ℕ) : Ledger → List (Call T) → Prop
  | _, [] => True
  | l, c :: cs => l.Suits n c ∧ Ledger.AllSuit n (l.after n c) cs

/-- The cells hold what was delivered, then what was not, and then what was never written. -/
structure Holds (n : ℕ) (l : Ledger) (q : List (T × ℕ)) (b : WriteAndRead T) : Prop where
  cells : ∃ old und free, b.cells = old ++ (und ++ free) ∧ q = und.zipIdx old.length ∧
    l.written = old.length + und.length ∧ l.undelivered = und.length ∧
    (l.rewound = true → 0 < old.length) ∧
    b.consumerPtr = if l.rewound then 0 else old.length
  length : b.cells.length = n
  producerPtr : b.producerPtr = l.written
  maxCountCells : b.maxCountCells = n
  numOfCells : b.numOfCells = l.written

variable {n k fuel : ℕ} {l : Ledger} {q : List (T × ℕ)} {b : WriteAndRead T}

theorem Ledger.after_write (l : Ledger) {elems : List T}
    (h : elems.length ≤ n - l.undelivered) : l.after n (.write elems) =
      ⟨l.written + elems.length, l.undelivered + elems.length, l.rewound⟩ := if_pos h

theorem Ledger.after_write_refused (l : Ledger) {elems : List T}
    (h : n - l.undelivered < elems.length) : l.after n (.write elems) = l :=
  if_neg (Nat.not_le.mpr h)

theorem Ledger.after_read (n : ℕ) (l : Ledger) (hk : k ≠ 0) : l.after n (.read k : Call T) =
    ⟨l.written, 0, l.rewound || decide (l.undelivered < k ∧ 0 < l.written)⟩ := if_neg hk

theorem read_zero (b : WriteAndRead T) : b.call (.read 0) = some (.read [], b) := rfl

theorem storeCell_loop (elems pre old free : List T) (h : old.length = elems.length)
    (stored : List (T × ℕ)) (b : WriteAndRead T) (hcells : b.cells = pre ++ (old ++ free))
    (hptr : b.producerPtr = pre.length) :
    elems.foldlM storeCell (stored, b) = some (stored ++ elems.zipIdx pre.length, { b with
      cells := pre ++ (elems ++ free)
      producerPtr := pre.length + elems.length }) := by
  induction elems generalizing pre old stored b with
  | nil =>
    obtain rfl := List.eq_nil_of_length_eq_zero h
    obtain ⟨cells, producerPtr, consumerPtr, maxCountCells, numOfCells⟩ := b
    obtain rfl : cells = pre ++ ([] ++ free) := hcells
    obtain rfl : producerPtr = pre.length := hptr
    simp
  | cons x elems ih =>
    cases old with
    | nil => cases h
    | cons y old =>
      have hset : b.cells.set b.producerPtr x = (pre ++ [x]) ++ (old ++ free) := by
        rw [hcells, hptr, List.set_append_right _ _ (Nat.le_refl _), Nat.sub_self]
        simp
      have hstep : storeCell (stored, b) x = some (stored ++ [(x, b.producerPtr)], { b with
          cells := b.cells.set b.producerPtr x
          producerPtr := b.producerPtr + 1 }) := by
        unfold storeCell
        refine if_pos ?_
        rw [hcells, hptr, List.length_append, List.cons_append, List.length_cons]
        omega
      rw [List.foldlM_cons, hstep, Option.bind_eq_bind, Option.bind_some,
        ih (pre ++ [x]) old (by simpa using h) _ _ hset (by simp [hptr])]
      simp [hptr, Nat.add_assoc, Nat.add_comm 1]

theorem drain_eq (und pre free : List T) (hfuel : und.length < fuel) (loaded : List (T × ℕ)) :
    drain (pre ++ (und ++ free)) (pre.length + und.length) fuel pre.length loaded =
      some (loaded ++ und.zipIdx pre.length, pre.length + und.length) := by
  induction und generalizing pre fuel loaded with
  | nil =>
    obtain ⟨fuel, rfl⟩ := Nat.exists_eq_succ_of_ne_zero (Nat.ne_zero_of_lt hfuel)
    simp [drain]
  | cons x und ih =>
    obtain ⟨fuel, rfl⟩ := Nat.exists_eq_succ_of_ne_zero (Nat.ne_zero_of_lt hfuel)
    rw [List.length_cons] at hfuel
    have hget : (pre ++ (x :: und ++ free))[pre.length]? = some x := by simp
    have hrest := ih (pre ++ [x]) (Nat.lt_of_succ_lt_succ hfuel) (loaded ++ [(x, pre.length)])
    simp only [List.length_append, List.length_singleton, List.append_assoc,
      List.singleton_append] at hrest
    rw [drain, if_pos (by rw [List.length_cons]; omega), hget, Option.bind_eq_bind,
      Option.bind_some, List.cons_append, List.length_cons, Nat.add_comm und.length,
      ← Nat.add_assoc, hrest, List.zipIdx_cons]

theorem holds_create (s : List T) : Holds s.length ⟨0, 0, false⟩ [] (create s) := by
  refine ⟨⟨[], [], s, ?_⟩, rfl, rfl, rfl, rfl⟩
  simp [create]

namespace Holds

theorem length_queue (h : Holds n l q b) : q.length = l.undelivered := by
  obtain ⟨old, und, free, -, hq, -, hund, -⟩ := h.cells
  rw [hq, List.length_zipIdx, hund]

theorem undelivered_le (h : Holds n l q b) : l.undelivered ≤ l.written := by
  obtain ⟨old, und, free, -, -, hwritten, hund, -⟩ := h.cells
  omega

theorem written_le (h : Holds n l q b) : l.written ≤ n := by
  obtain ⟨old, und, free, hcells, -, hwritten, -⟩ := h.cells
  rw [← h.length, hcells, List.length_append, List.length_append]
  omega

theorem write_refused (h : Holds n l q b) (elems : List T) (hlt : n - l.written < elems.length) :
    b.call (.write elems) = some (.write none, b) := by
  unfold call write sizeofT
  rw [h.maxCountCells, h.numOfCells]
  simp [hlt]

theorem write_accepted (h : Holds n l q b) (elems : List T) (hle : elems.length ≤ n - l.written) :
    ∃ b', b.call (.write elems) = some (.write (some (elems.zipIdx l.written)), b') ∧
      Holds n (l.after n (.write elems)) (q ++ elems.zipIdx l.written) b' := by
  obtain ⟨old, und, free, hcells, hq, hwritten, hundelivered, hrew, hcons⟩ := h.cells
  have hfree : elems.length ≤ free.length := by
    have hlen := h.length
    rw [hcells, List.length_append, List.length_append] at hlen
    omega
  have hsplit : b.cells = (old ++ und) ++ (free.take elems.length ++ free.drop elems.length) := by
    rw [hcells, List.take_append_drop, List.append_assoc]
  have hpre : (old ++ und).length = l.written := by rw [List.length_append, hwritten]
  have hloop := storeCell_loop elems (old ++ und) (free.take elems.length)
    (free.drop elems.length) (List.length_take_of_le hfree) [] b hsplit
    (by rw [hpre, h.producerPtr])
  have hindex := foldlM_getElem? elems storeCell 0 elems.length (Nat.zero_add _) ([], b)
  rw [List.drop_zero, hloop, hpre] at hindex
  have hroom : ¬b.maxCountCells - b.numOfCells < elems.length * 1 := by
    rw [h.maxCountCells, h.numOfCells]
    omega
  have hund := h.undelivered_le
  refine ⟨{ b with
    cells := old ++ und ++ (elems ++ free.drop elems.length)
    producerPtr := l.written + elems.length
    numOfCells := b.numOfCells + elems.length * 1 }, ?_, ?_⟩
  · unfold call write sizeofT
    dsimp only
    rw [if_neg (by simp), if_neg hroom, Option.getD_some, hindex]
    rfl
  · rw [l.after_write (by omega)]
    refine ⟨⟨old, und ++ elems, free.drop elems.length, by simp, ?_, ?_, ?_, hrew, hcons⟩,
      ?_, rfl, h.maxCountCells, by simp [h.numOfCells]⟩
    · rw [hq, List.zipIdx_append, hwritten]
    · rw [List.length_append, hwritten, Nat.add_assoc]
    · rw [List.length_append, hundelivered]
    · have hlen := h.length
      rw [hcells] at hlen
      simp only [List.length_append, List.length_drop] at hlen ⊢
      omega

theorem read_eq {loaded : List (T × ℕ)} {consumerPtr : ℕ} (hk : k ≠ 0)
    (h : drain b.cells b.producerPtr (b.cells.length + 1) b.consumerPtr [] =
      some (loaded, consumerPtr)) :
    b.call (.read k) = some (.read loaded,
      { b with consumerPtr := if loaded.length < k then 0 else consumerPtr }) := by
  unfold call read
  dsimp only
  rw [if_neg hk, h]
  rfl

/-- Before any read asked for too much, a read loads all that is undelivered. -/
theorem read_all (h : Holds n l q b) (hk : k ≠ 0) (hrewound : l.rewound = false) :
    ∃ b', b.call (.read k) = some (.read q, b') ∧ Holds n (l.after n (.read k : Call T)) [] b' := by
  obtain ⟨old, und, free, hcells, hq, hwritten, hund, -, hcons⟩ := h.cells
  rw [hrewound, if_neg Bool.false_ne_true] at hcons
  have hlen : und.length < b.cells.length + 1 := by
    rw [hcells, List.length_append, List.length_append]
    omega
  have hdrain := drain_eq und old free hlen []
  rw [← hcells, ← hwritten, ← h.producerPtr, ← hcons, List.nil_append, hcons, ← hq] at hdrain
  refine ⟨_, read_eq hk (hcons ▸ hdrain), ?_⟩
  rw [l.after_read n hk, hrewound, Bool.false_or]
  refine ⟨⟨old ++ und, [], free, by simp [hcells], by simp, by simp [hwritten], rfl, ?_, ?_⟩,
    h.length, h.producerPtr, h.maxCountCells, h.numOfCells⟩
  · intro hshort
    rw [List.length_append, ← hwritten]
    exact (of_decide_eq_true hshort).2
  · dsimp only
    rw [h.length_queue, h.producerPtr, List.length_append, ← hwritten]
    by_cases hshort : l.undelivered < k
    · by_cases hpos : 0 < l.written
      · rw [if_pos hshort, if_pos (decide_eq_true ⟨hshort, hpos⟩)]
      · rw [if_pos hshort, if_neg (by simp [hpos])]
        omega
    · rw [if_neg hshort, if_neg (by simp [hshort])]

/-- After it, a read starts over and loads what was delivered. -/
theorem read_rewound (h : Holds n l q b) (hk : k ≠ 0) (hrewound : l.rewound = true) :
    ∃ loaded b', b.call (.read k) = some (.read loaded, b') ∧ q.length < loaded.length := by
  obtain ⟨old, und, free, hcells, hq, hwritten, hund, hpos, hcons⟩ := h.cells
  rw [hrewound, if_pos rfl] at hcons
  have hlen : (old ++ und).length < b.cells.length + 1 := by
    rw [hcells, List.length_append, List.length_append, List.length_append]
    omega
  have hdrain := drain_eq (old ++ und) [] free hlen []
  rw [List.nil_append, List.append_assoc, ← hcells, List.length_append, ← hwritten,
    List.length_nil, Nat.zero_add, ← h.producerPtr, ← hcons, List.nil_append] at hdrain
  refine ⟨_, _, read_eq hk hdrain, ?_⟩
  have hold := hpos hrewound
  rw [List.length_zipIdx, List.length_append, h.length_queue]
  omega

end Holds

theorem delivers_read {loaded : List (T × ℕ)} {rest : List (Call T × Answer T)} :
    Delivers n q ((.read k, .read loaded) :: rest) ↔
      loaded <+: q ∧ loaded.length ≤ k ∧ Delivers n (q.drop loaded.length) rest := Iff.rfl

/-- A call that answers leaves the rest of the run to the state after it. -/
private theorem delivers_cons {c : Call T} {r : Answer T} {b' : WriteAndRead T} {cs : List (Call T)}
    (hcall : b.call c = some (r, b')) :
    (∃ answers b'', serve call b (c :: cs) = some (answers, b'') ∧
        Delivers n q ((c :: cs).zip answers)) ↔
      ∃ answers b'', serve call b' cs = some (answers, b'') ∧
        Delivers n q ((c, r) :: cs.zip answers) := by
  rw [serve_cons, hcall, Option.bind_some]
  constructor
  · intro h
    obtain ⟨answers, b'', hrun, hdel⟩ := h
    obtain ⟨p, hp, hrun⟩ := Option.bind_eq_some_iff.mp hrun
    obtain ⟨rfl, rfl⟩ : r :: p.1 = answers ∧ p.2 = b'' := by simpa using hrun
    exact ⟨p.1, p.2, hp, hdel⟩
  · intro h
    obtain ⟨answers, b'', hrun, hdel⟩ := h
    exact ⟨r :: answers, b'', by rw [hrun, Option.bind_some], hdel⟩

namespace Holds

/-- A call that suits the ledger is answered as by a FIFO. -/
theorem suits (h : Holds n l q b) {c : Call T} (hc : l.Suits n c) :
    ∃ r b' q', b.call c = some (r, b') ∧ Holds n (l.after n c) q' b' ∧
      ∀ rest, Delivers n q ((c, r) :: rest) ↔ Delivers n q' rest := by
  have hqueue := h.length_queue
  have hund := h.undelivered_le
  cases c with
  | write elems =>
    by_cases hle : elems.length ≤ n - l.written
    · obtain ⟨b', hcall, h'⟩ := h.write_accepted elems hle
      refine ⟨_, b', _, hcall, h', ?_⟩
      have hin : ∀ x ∈ elems.zipIdx l.written, x.2 < n := by
        intro x hx
        have hlt := List.snd_lt_add_of_mem_zipIdx hx
        have hwritten := h.written_le
        omega
      intro rest
      constructor
      · exact fun hdel => hdel.2.2.2
      · exact fun hdel => ⟨by omega, List.zipIdx_map_fst _ _, hin, hdel⟩
    · have hfull : n - l.undelivered < elems.length := hc.resolve_left hle
      have hcall := h.write_refused elems (by omega)
      refine ⟨_, b, q, hcall, (l.after_write_refused hfull).symm ▸ h, ?_⟩
      intro rest
      constructor
      · exact fun hdel => hdel.2
      · exact fun hdel => ⟨by omega, hdel⟩
  | read k =>
    by_cases hk : k = 0
    · subst hk
      refine ⟨_, b, q, read_zero b, h, ?_⟩
      intro rest
      constructor
      · exact fun hdel => hdel.2.2
      · exact fun hdel => ⟨List.nil_prefix, Nat.le_refl 0, hdel⟩
    · obtain ⟨hle, hrewound⟩ := hc.resolve_left hk
      obtain ⟨b', hcall, h'⟩ := h.read_all hk hrewound
      refine ⟨_, b', [], hcall, h', ?_⟩
      intro rest
      rw [delivers_read, List.drop_length]
      constructor
      · exact fun hdel => hdel.2.2
      · exact fun hdel => ⟨List.prefix_rfl, by omega, hdel⟩

theorem not_suits (h : Holds n l q b) {c : Call T} (hc : ¬l.Suits n c) :
    ∃ r b', b.call c = some (r, b') ∧ ∀ rest, ¬Delivers n q ((c, r) :: rest) := by
  have hqueue := h.length_queue
  cases c with
  | write elems =>
    obtain ⟨hroom, hfree⟩ := not_or.mp hc
    refine ⟨_, b, h.write_refused elems (by omega), ?_⟩
    intro rest hdel
    have hlt := hdel.1
    omega
  | read k =>
    obtain ⟨hk, hread⟩ := not_or.mp hc
    cases hrewound : l.rewound with
    | false =>
      obtain ⟨b', hcall, -⟩ := h.read_all hk hrewound
      refine ⟨_, b', hcall, ?_⟩
      intro rest hdel
      have hle := hdel.2.1
      exact hread ⟨by omega, hrewound⟩
    | true =>
      obtain ⟨loaded, b', hcall, hlt⟩ := h.read_rewound hk hrewound
      refine ⟨_, b', hcall, ?_⟩
      intro rest hdel
      exact absurd hdel.1.length_le (Nat.not_le.mpr hlt)

/-- A run delivers in order exactly when each of its calls suits the ledger it finds. -/
theorem delivers_iff (h : Holds n l q b) (cs : List (Call T)) :
    (∃ answers b', serve call b cs = some (answers, b') ∧ Delivers n q (cs.zip answers)) ↔
      l.AllSuit n cs := by
  induction cs generalizing l q b with
  | nil => exact ⟨fun _ => trivial, fun _ => ⟨[], b, rfl, trivial⟩⟩
  | cons c cs ih =>
    by_cases hc : l.Suits n c
    · obtain ⟨r, b', q', hcall, h', hdel⟩ := h.suits hc
      rw [delivers_cons hcall]
      simp only [hdel]
      rw [ih h']
      exact ⟨fun hall => ⟨hc, hall⟩, fun hall => hall.2⟩
    · obtain ⟨r, b', hcall, hdel⟩ := h.not_suits hc
      rw [delivers_cons hcall]
      constructor
      · intro hrun
        obtain ⟨answers, b'', -, hrun⟩ := hrun
        exact absurd hrun (hdel _)
      · exact fun hall => absurd hall.1 hc

end Holds

/-- A buffer of `n` cells is a FIFO on exactly those call sequences whose writes find room behind
everything written so far, and whose reads ask for no less than is undelivered and come after none
that asked for more. -/
theorem writeAndRead_fifo_iff (s : List T) (cs : List (Call T)) :
    (∃ answers b, serve call (create s) cs = some (answers, b) ∧
      Delivers s.length [] (cs.zip answers)) ↔ Ledger.AllSuit s.length ⟨0, 0, false⟩ cs :=
  (holds_create s).delivers_iff cs

/-- After a read that asked for two of one element, the next read loads that element again. -/
theorem writeAndRead_loads_twice :
    ¬∃ answers b, serve call (create [0, 0]) [.write [(7 : UInt8)], .read 2, .read 2] =
        some (answers, b) ∧
      Delivers 2 [] ([Call.write [(7 : UInt8)], .read 2, .read 2].zip answers) := by
  intro h
  obtain ⟨answers, b, hrun, hdel⟩ := h
  have heval : serve call (create [0, 0]) [.write [(7 : UInt8)], .read 2, .read 2] =
      some ([.write (some [(7, 0)]), .read [(7, 0)], .read [(7, 0)]], ⟨[7, 0], 1, 0, 2, 1⟩) := rfl
  rw [heval] at hrun
  obtain ⟨rfl, -⟩ := Prod.mk.inj (Option.some.inj hrun)
  obtain ⟨-, -, -, -, -, hpre, -⟩ := hdel
  exact absurd hpre.length_le (by decide)

end WriteAndRead

end CppTricks.Queue
