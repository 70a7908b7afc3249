import CppTricks.Cache.LruCacheV2
import CppTricks.Foundation.Exceptions

/-! `lru_cache_v2` where the loader, the copies of keys and the allocations may throw. -/
namespace CppTricks.Cache.LruCacheV2.Throwing
open Foundation

/-- `undefined` is a call of the library outside its preconditions. -/
inductive Failure where
  | thrown
  | undefined
deriving DecidableEq

/-- The cache, the argument `r_v` of `get` and the flags of `put`. -/
structure Frame (K V : Type) where
  cache : LruCacheV2 K V
  rV : V
  successTracker : Bool
  successStore : Bool

abbrev Call (K V : Type) := EStateM Failure (Counted (Frame K V))

namespace Frame

variable {K V : Type}

def setCache (cache : LruCacheV2 K V) (w : Frame K V) : Frame K V := { w with cache := cache }

def setRV (val : V) (w : Frame K V) : Frame K V := { w with rV := val }

def lowerFlags (w : Frame K V) : Frame K V :=
  { w with successTracker := false, successStore := false }

/-- `m_key_tracker.insert(m_key_tracker.end(), key)`, then `success_tracker = true`. -/
def track (key : K) (w : Frame K V) : Frame K V :=
  { w with
    cache := ⟨(w.cache.keyTracker.insertEnd key).2, w.cache.store⟩
    successTracker := true }

def addToStore [DecidableEq K] (key : K) (val : V) (link : ℕ) (w : Frame K V) : Frame K V :=
  { w with
    cache := ⟨w.cache.keyTracker,
      if key ∈ w.cache.store then w.cache.store else w.cache.store.insert key (val, link)⟩
    successStore := true }

/-- The handler of `put`, before it throws on. -/
def rollBack (w : Frame K V) : Frame K V :=
  if w.successTracker && !w.successStore then
    w.setCache ⟨w.cache.keyTracker.popBack, w.cache.store⟩
  else w

end Frame

variable {K V : Type} [DecidableEq K] (throws : ℕ → Bool)

def evict : Call K V Unit := do
  let w ← world
  -- the copy of the oldest key
  mayThrow throws .thrown
  match w.cache.evict with
  | none => throw .undefined
  | some cache => update (Frame.setCache cache)

def insertBoth (key : K) (val : V) : Call K V Unit := do
  -- the list node, and the copy of the key in it
  mayThrow throws .thrown
  mayThrow throws .thrown
  let w ← world
  let link := (w.cache.keyTracker.insertEnd key).1
  update (Frame.track key)
  -- the two pairs, and the map node
  mayThrow throws .thrown
  mayThrow throws .thrown
  mayThrow throws .thrown
  update (Frame.addToStore key val link)

def put (key : K) (val : V) : Call K V Unit := do
  update Frame.lowerFlags
  tryCatch (insertBoth throws key val) fun e => do
    update Frame.rollBack
    throw e

def makeRoom (kMaxSize : ℕ) : Call K V Unit := do
  let w ← world
  if w.cache.storeSize = kMaxSize then evict throws else pure ()

def miss (kMaxSize : ℕ) (load : K → V) (key : K) : Call K V Unit := do
  makeRoom throws kMaxSize
  -- the key handed over to the loader, and the loader
  mayThrow throws .thrown
  mayThrow throws .thrown
  let val := load key
  put throws key val
  update (Frame.setRV val)

def hit (val : V) (pos : ℕ) : Call K V Unit := do
  update (Frame.setRV val)
  let w ← world
  match w.cache.keyTracker.spliceEnd? pos with
  | none => throw .undefined
  | some keyTracker => update (Frame.setCache ⟨keyTracker, w.cache.store⟩)

def get (kMaxSize : ℕ) (load : K → V) (key : K) : Call K V Unit := do
  let w ← world
  match w.cache.store.lookup key with
  | none => miss throws kMaxSize load key
  | some (val, pos) => hit val pos

/-! ### The points -/

theorem propagates_evict : Propagates throws .thrown (evict throws : Call K V Unit) := by
  apply Propagates.world_bind
  intro w
  apply Propagates.mayThrow_bind
  cases w.cache.evict with
  | none => exact .throw (by decide)
  | some cache => exact .update _

theorem propagates_put (key : K) (val : V) : Propagates throws .thrown (put throws key val) := by
  have hinsert : Propagates throws .thrown (insertBoth throws key val) := by
    apply Propagates.mayThrow_bind
    apply Propagates.mayThrow_bind
    apply Propagates.world_bind
    intro w
    apply Propagates.update_bind
    apply Propagates.mayThrow_bind
    apply Propagates.mayThrow_bind
    apply Propagates.mayThrow_bind
    exact .update _
  apply Propagates.update_bind
  exact hinsert.tryCatch_throw

/-- No point that throws is passed over. -/
theorem propagates_get (kMaxSize : ℕ) (load : K → V) (key : K) :
    Propagates throws .thrown (get throws kMaxSize load key) := by
  apply Propagates.world_bind
  intro w
  cases w.cache.store.lookup key with
  | none =>
    have hroom : Propagates throws .thrown (makeRoom throws kMaxSize : Call K V Unit) := by
      apply Propagates.world_bind
      intro w
      exact (propagates_evict throws).ite (.pure ())
    apply hroom.bind
    intro _
    apply Propagates.mayThrow_bind
    apply Propagates.mayThrow_bind
    apply (propagates_put throws key (load key)).bind
    intro _
    exact .update _
  | some entry =>
    apply Propagates.update_bind
    apply Propagates.world_bind
    intro w
    cases w.cache.keyTracker.spliceEnd? entry.2 with
    | none => exact .throw (by decide)
    | some keyTracker => exact .update _

/-! ### Where the calls end -/

def Unchanged (c c' : LruCacheV2 K V) : Prop :=
  c'.store = c.store ∧ c'.keyTracker.nodes = c.keyTracker.nodes

/-- The tracker has lost its front, and the store the entry of that key. -/
def OldestRemoved (c c' : LruCacheV2 K V) : Prop :=
  ∃ oldest rest, c.keyTracker.toList = oldest :: rest ∧ c'.keyTracker.toList = rest ∧
    c'.store = c.store.erase oldest

/-- What holds between calls: each stored iterator is that of the one node of its key, and the
tracker is in the order of the last requests. -/
structure InStep (kMaxSize : ℕ) (requests : List K) (c : LruCacheV2 K V) : Prop where
  indexed : c.keyTracker.IndexedBy c.link?
  size_le : c.storeSize ≤ kMaxSize
  recency : c.keyTracker.toList.Sublist requests.dedup

variable {throws} {c c' : LruCacheV2 K V} {s : Counted (Frame K V)} {kMaxSize : ℕ} {key : K}
  {val : V} {load : K → V} {requests : List K}

omit [DecidableEq K] in
theorem Unchanged.toList (h : Unchanged c c') : c'.keyTracker.toList = c.keyTracker.toList := by
  unfold NodeList.toList
  rw [h.2]

theorem Unchanged.indexed (h : Unchanged c c') (hc : c.keyTracker.IndexedBy c.link?) :
    c'.keyTracker.IndexedBy c'.link? := by
  apply (hc.of_nodes h.2).congr
  intro k
  unfold link?
  rw [h.1]

theorem ends_evict (hevict : s.world.cache.evict = some c') :
    Ends (evict throws) s (fun _ t => t.world = s.world.setCache c')
      (fun e t => e = .thrown ∧ t.world = s.world) := by
  apply Ends.world_bind
  apply Ends.mayThrow_bind _ ⟨rfl, rfl⟩
  rw [hevict]
  exact Ends.update rfl

/-- Where the `try` block throws, the handler can undo what it has done. -/
theorem ends_insertBoth (hflags : s.world.lowerFlags = s.world) :
    Ends (insertBoth throws key val) s
      (fun _ t => t.world.cache = s.world.cache.put key val ∧ t.world.rV = s.world.rV)
      (fun e t => e = .thrown ∧ Unchanged s.world.cache t.world.rollBack.cache ∧
        t.world.rollBack.rV = s.world.rV) := by
  -- nothing is done before the node is in the list
  have hearly : Unchanged s.world.cache s.world.rollBack.cache ∧
      s.world.rollBack.rV = s.world.rV := by
    rw [← hflags]
    exact ⟨⟨rfl, rfl⟩, rfl⟩
  -- afterwards the flags tell the handler to take it out again
  have hlate : Unchanged s.world.cache (s.world.track key).rollBack.cache ∧
      (s.world.track key).rollBack.rV = s.world.rV := by
    rw [← hflags]
    exact ⟨⟨rfl, NodeList.nodes_popBack_insertEnd _ _⟩, rfl⟩
  apply Ends.mayThrow_bind _ ⟨rfl, hearly⟩
  apply Ends.mayThrow_bind _ ⟨rfl, hearly⟩
  apply Ends.world_bind
  apply Ends.update_bind
  apply Ends.mayThrow_bind _ ⟨rfl, hlate⟩
  apply Ends.mayThrow_bind _ ⟨rfl, hlate⟩
  apply Ends.mayThrow_bind _ ⟨rfl, hlate⟩
  exact Ends.update ⟨rfl, rfl⟩

theorem ends_put (s : Counted (Frame K V)) (key : K) (val : V) :
    Ends (put throws key val) s
      (fun _ t => t.world.cache = s.world.cache.put key val ∧ t.world.rV = s.world.rV)
      (fun e t => e = .thrown ∧ Unchanged s.world.cache t.world.cache ∧
        t.world.rV = s.world.rV) := by
  apply Ends.update_bind
  have hinsert := @ends_insertBoth K V _ throws ⟨s.made, s.world.lowerFlags⟩ key val rfl
  apply hinsert.tryCatch
  intro e u hu
  exact hu

/-- A hit moves the key to the end of the tracker, and nothing is thrown. -/
theorem ends_hit (h : s.world.cache.keyTracker.IndexedBy s.world.cache.link?) {pos : ℕ}
    (hpos : s.world.cache.link? key = some pos) :
    Ends (hit val pos) s (fun _ t => t.world.cache.keyTracker.IndexedBy t.world.cache.link? ∧
      t.world.cache.keyTracker.toList = s.world.cache.keyTracker.toList.erase key ++ [key] ∧
      t.world.cache.store = s.world.cache.store) (fun _ _ => False) := by
  obtain ⟨keyTracker, hsplice, hindexed, hlist⟩ := h.spliceEnd? hpos
  apply Ends.update_bind
  apply Ends.world_bind
  rw [show (s.world.setRV val).cache.keyTracker.spliceEnd? pos = some keyTracker from hsplice]
  exact Ends.update ⟨hindexed, hlist, rfl⟩

/-- With a key that is not there, one place is free after the eviction. -/
theorem ends_makeRoom (h : s.world.cache.keyTracker.IndexedBy s.world.cache.link?)
    (hk : 1 ≤ kMaxSize) (hsize : s.world.cache.storeSize ≤ kMaxSize) :
    Ends (makeRoom throws kMaxSize) s
      (fun _ t => t.world.rV = s.world.rV ∧ (t.world.cache = s.world.cache ∧
          s.world.cache.storeSize < kMaxSize ∨
        s.world.cache.storeSize = kMaxSize ∧ OldestRemoved s.world.cache t.world.cache ∧
          t.world.cache.keyTracker.IndexedBy t.world.cache.link?))
      (fun e t => e = .thrown ∧ t.world = s.world) := by
  apply Ends.world_bind
  by_cases hfull : s.world.cache.storeSize = kMaxSize
  · rw [if_pos hfull]
    have hne : s.world.cache.keyTracker.toList ≠ [] := by
      intro hnil
      rw [storeSize_of_indexed h, hnil, List.length_nil] at hfull
      omega
    obtain ⟨oldest, rest, hlist⟩ := List.exists_cons_of_ne_nil hne
    obtain ⟨c', hevict, hindexed, hrest, hstore⟩ := indexed_evict h hlist
    apply (ends_evict hevict).mono
    · intro _ u hu
      rw [hu]
      exact ⟨rfl, .inr ⟨hfull, ⟨oldest, rest, hlist, hrest, hstore⟩, hindexed⟩⟩
    · intro e u hu
      exact hu
  · rw [if_neg hfull]
    exact Ends.pure ⟨rfl, .inl ⟨rfl, by omega⟩⟩

/-- A request for a key that is not there does not change the order of the others. -/
theorem sublist_erase (hindexed : c.keyTracker.IndexedBy c.link?)
    (hrecency : c.keyTracker.toList.Sublist requests.dedup) (hkey : key ∉ c.store) :
    c.keyTracker.toList.Sublist (requests.dedup.erase key) :=
  sublist_dedup_erase hrecency fun hmem => hkey ((mem_store_iff_of_indexed hindexed).mpr hmem)

theorem InStep.of_absent (hindexed : c.keyTracker.IndexedBy c.link?)
    (hsize : c.storeSize ≤ kMaxSize) (hrecency : c.keyTracker.toList.Sublist requests.dedup)
    (hkey : key ∉ c.store) : InStep kMaxSize (requests ++ [key]) c where
  indexed := hindexed
  size_le := hsize
  recency := by
    rw [dedup_concat]
    exact (sublist_erase hindexed hrecency hkey).trans (List.sublist_append_left _ [key])

/-- A failed call for `key` has removed nothing, or the oldest key of a full cache. -/
structure Failed (kMaxSize : ℕ) (requests : List K) (key : K) (c c' : LruCacheV2 K V) : Prop where
  inStep : InStep kMaxSize (requests ++ [key]) c'
  change : Unchanged c c' ∨ c.storeSize = kMaxSize ∧ OldestRemoved c c'

/-- Between the eviction and the insertion of `key`: there is room, and of what was there only the
oldest key may be gone. -/
structure Freed (kMaxSize : ℕ) (requests : List K) (key : K) (c c' : LruCacheV2 K V) : Prop where
  indexed : c'.keyTracker.IndexedBy c'.link?
  size_lt : c'.storeSize < kMaxSize
  recency : c'.keyTracker.toList.Sublist requests.dedup
  notMem : key ∉ c'.store
  change : Unchanged c c' ∨ c.storeSize = kMaxSize ∧ OldestRemoved c c'

namespace Freed

theorem of_room (h : InStep kMaxSize requests c) (hkey : key ∉ c.store)
    (hroom : c.storeSize < kMaxSize) : Freed kMaxSize requests key c c :=
  ⟨h.indexed, hroom, h.recency, hkey, .inl ⟨rfl, rfl⟩⟩

theorem of_full (h : InStep kMaxSize requests c) (hkey : key ∉ c.store)
    (hfull : c.storeSize = kMaxSize) (hremoved : OldestRemoved c c')
    (hindexed : c'.keyTracker.IndexedBy c'.link?) : Freed kMaxSize requests key c c' := by
  obtain ⟨oldest, rest, hlist, hrest, hstore⟩ := hremoved
  have hsize := storeSize_of_indexed h.indexed
  rw [hlist, List.length_cons] at hsize
  refine ⟨hindexed, ?_, ?_, ?_, .inr ⟨hfull, oldest, rest, hlist, hrest, hstore⟩⟩
  · rw [storeSize_of_indexed hindexed, hrest]
    omega
  · rw [hrest]
    exact (List.sublist_cons_self oldest rest).trans (hlist ▸ h.recency)
  · rw [hstore]
    exact fun hmem => hkey (Finmap.mem_erase.mp hmem).2

theorem congr {c₁ : LruCacheV2 K V} (h : Freed kMaxSize requests key c c₁)
    (hc : Unchanged c₁ c') : Freed kMaxSize requests key c c' where
  indexed := hc.indexed h.indexed
  size_lt := by
    unfold storeSize
    rw [hc.1]
    exact h.size_lt
  recency := by
    rw [hc.toList]
    exact h.recency
  notMem := by
    rw [hc.1]
    exact h.notMem
  change := by
    apply h.change.imp
    · intro hsame
      exact ⟨hc.1.trans hsame.1, hc.2.trans hsame.2⟩
    · intro hfull
      obtain ⟨hsize, oldest, rest, hlist, hrest, hstore⟩ := hfull
      exact ⟨hsize, oldest, rest, hlist, hc.toList.trans hrest, hc.1.trans hstore⟩

theorem failed (h : Freed kMaxSize requests key c c') : Failed kMaxSize requests key c c' :=
  ⟨.of_absent h.indexed h.size_lt.le h.recency h.notMem, h.change⟩

theorem put (h : Freed kMaxSize requests key c c') (val : V) :
    InStep kMaxSize (requests ++ [key]) (c'.put key val) := by
  obtain ⟨hindexed, hlist⟩ := indexed_put h.indexed h.notMem val
  refine ⟨hindexed, ?_, ?_⟩
  · have hlt := h.size_lt
    rw [storeSize_of_indexed h.indexed] at hlt
    rw [storeSize_of_indexed hindexed, hlist, List.length_append, List.length_singleton]
    exact hlt
  · rw [hlist, dedup_concat]
    exact (sublist_erase h.indexed h.recency h.notMem).append_right [key]

end Freed

theorem ends_miss (h : InStep kMaxSize requests s.world.cache) (hk : 1 ≤ kMaxSize)
    (hkey : key ∉ s.world.cache.store) :
    Ends (miss throws kMaxSize load key) s
      (fun _ t => InStep kMaxSize (requests ++ [key]) t.world.cache)
      (fun e t => e = .thrown ∧ t.world.rV = s.world.rV ∧
        Failed kMaxSize requests key s.world.cache t.world.cache) := by
  have hroom : Ends (makeRoom throws kMaxSize) s
      (fun _ t => t.world.rV = s.world.rV ∧
        Freed kMaxSize requests key s.world.cache t.world.cache)
      (fun e t => e = .thrown ∧ t.world.rV = s.world.rV ∧
        Failed kMaxSize requests key s.world.cache t.world.cache) := by
    apply (ends_makeRoom h.indexed hk h.size_le).mono
    · intro _ t ht
      refine ⟨ht.1, ?_⟩
      cases ht.2 with
      | inl hsame =>
        rw [hsame.1]
        exact .of_room h hkey hsame.2
      | inr hfull => exact .of_full h hkey hfull.1 hfull.2.1 hfull.2.2
    · intro e t ht
      rw [ht.2]
      exact ⟨ht.1, rfl, .of_absent h.indexed h.size_le h.recency hkey, .inl ⟨rfl, rfl⟩⟩
  apply hroom.bind
  intro _ t ht
  -- the loader leaves the cache as it is
  apply Ends.mayThrow_bind _ ⟨rfl, ht.1, ht.2.failed⟩
  apply Ends.mayThrow_bind _ ⟨rfl, ht.1, ht.2.failed⟩
  apply Ends.bind (Q := fun _ u => InStep kMaxSize (requests ++ [key]) u.world.cache)
  · apply (ends_put _ key (load key)).mono
    · intro _ u hu
      rw [hu.1]
      exact ht.2.put (load key)
    · intro e u hu
      exact ⟨hu.1, hu.2.2.trans ht.1, (ht.2.congr hu.2.1).failed⟩
  · intro _ u hu
    exact Ends.update hu

theorem ends_get (h : InStep kMaxSize requests s.world.cache) (hk : 1 ≤ kMaxSize) :
    Ends (get throws kMaxSize load key) s
      (fun _ t => InStep kMaxSize (requests ++ [key]) t.world.cache)
      (fun e t => e = .thrown ∧ t.world.rV = s.world.rV ∧ key ∉ s.world.cache.store ∧
        Failed kMaxSize requests key s.world.cache t.world.cache) := by
  apply Ends.world_bind
  cases hlookup : s.world.cache.store.lookup key with
  | none =>
    have hkey : key ∉ s.world.cache.store := Finmap.lookup_eq_none.mp hlookup
    apply (ends_miss h hk hkey).mono
    · intro _ u hu
      exact hu
    · intro e u hu
      exact ⟨hu.1, hu.2.1, hkey, hu.2.2⟩
  | some entry =>
    have hlink : s.world.cache.link? key = some entry.2 := by rw [link?, hlookup, Option.map_some]
    apply (ends_hit h.indexed hlink).mono
    · intro _ u hu
      obtain ⟨hindexed, hlist, hstore⟩ := hu
      refine ⟨hindexed, ?_, ?_⟩
      · unfold storeSize
        rw [hstore]
        exact h.size_le
      · rw [hlist, dedup_concat]
        exact (h.recency.erase key).append_right [key]
    · intro e u hu
      exact hu.elim

theorem ends_makeRoom_eq (s : Counted (Frame K V)) :
    Ends (makeRoom throws kMaxSize) s
      (fun _ t => (if s.world.cache.storeSize = kMaxSize then s.world.cache.evict
        else some s.world.cache) = some t.world.cache)
      (fun _ _ => True) := by
  apply Ends.world_bind
  by_cases hfull : s.world.cache.storeSize = kMaxSize
  · rw [if_pos hfull, if_pos hfull]
    cases hevict : s.world.cache.evict with
    | none =>
      apply Ends.world_bind
      apply Ends.mayThrow_bind _ trivial
      rw [hevict]
      exact Ends.throw trivial
    | some c' =>
      apply (ends_evict hevict).mono
      · intro _ u hu
        rw [hu]
        rfl
      · intro _ _ _
        trivial
  · rw [if_neg hfull, if_neg hfull]
    exact Ends.pure rfl

/-- A call that returns has done what the calls that cannot throw do. -/
theorem ends_get_eq (throws : ℕ → Bool) (kMaxSize : ℕ) (load : K → V) (key : K)
    (s : Counted (Frame K V)) :
    Ends (get throws kMaxSize load key) s
      (fun _ t => s.world.cache.get kMaxSize load key = some (t.world.rV, t.world.cache))
      (fun _ _ => True) := by
  apply Ends.world_bind
  cases hlookup : s.world.cache.store.lookup key with
  | none =>
    rw [get_of_absent hlookup]
    apply (ends_makeRoom_eq s).bind
    intro _ u hu
    apply Ends.mayThrow_bind _ trivial
    apply Ends.mayThrow_bind _ trivial
    apply ((ends_put _ key (load key)).mono (fun _ _ h => h) fun _ _ _ => trivial).bind
    intro _ v hv
    have hcache : v.world.cache = u.world.cache.put key (load key) := hv.1
    apply Ends.update
    rw [hu, Option.map_some, ← hcache]
    rfl
  | some entry =>
    rw [get_of_present hlookup]
    apply Ends.update_bind
    apply Ends.world_bind
    rw [show (s.world.setRV entry.1).cache = s.world.cache from rfl]
    cases s.world.cache.keyTracker.spliceEnd? entry.2 with
    | none => exact Ends.throw trivial
    | some keyTracker => exact Ends.update rfl

/-! ### Every reachable cache -/

/-- The caches that calls of `get` lead to, returning or failing, with the keys requested. -/
inductive Reachable (kMaxSize : ℕ) : List K → LruCacheV2 K V → Prop where
  | empty : Reachable kMaxSize [] .empty
  | get {requests : List K} {s t : Counted (Frame K V)} (throws : ℕ → Bool) (load : K → V)
      (key : K) (before : Reachable kMaxSize requests s.world.cache)
      (call : Leaves (get throws kMaxSize load key) s t) :
      Reachable kMaxSize (requests ++ [key]) t.world.cache

theorem Reachable.inStep (h : Reachable kMaxSize requests c) (hk : 1 ≤ kMaxSize) :
    InStep kMaxSize requests c := by
  induction h with
  | empty =>
    refine ⟨.empty fun _ => rfl, ?_, ?_⟩
    · rw [storeSize_of_indexed (.empty fun _ => rfl)]
      exact Nat.zero_le kMaxSize
    · exact List.nil_sublist _
  | get throws load key _ call ih =>
    apply Ends.leaves _ call
    apply (ends_get ih hk).mono
    · intro _ t ht
      exact ht
    · intro e t ht
      exact ht.2.2.2.inStep

/-- A call that returns has passed no point that throws. A call that fails does so with what was
thrown, leaves `r_v` alone and the store and the tracker in step, and has at most evicted the least
recently requested key to make room for an absent one. -/
theorem get_failed_consistent (hk : 1 ≤ kMaxSize) (hc : Reachable kMaxSize requests s.world.cache)
    (throws : ℕ → Bool) (load : K → V) (key : K) :
    Ends (get throws kMaxSize load key) s (fun _ t => Quiet throws s.made t.made)
      (fun e t => e = .thrown ∧ t.world.rV = s.world.rV ∧
        (∀ k, k ∈ t.world.cache.store ↔ k ∈ t.world.cache.keyTracker.toList) ∧
        t.world.cache.keyTracker.toList.Nodup ∧
        (∀ k val pos, t.world.cache.store.lookup k = some (val, pos) →
          t.world.cache.keyTracker.get? pos = some k) ∧
        t.world.cache.storeSize ≤ kMaxSize ∧
        s.world.cache.keyTracker.toList.Sublist requests.dedup ∧
        (Unchanged s.world.cache t.world.cache ∨
          s.world.cache.storeSize = kMaxSize ∧ key ∉ s.world.cache.store ∧
            OldestRemoved s.world.cache t.world.cache)) := by
  have hstep := hc.inStep hk
  apply ((propagates_get throws kMaxSize load key s).and (ends_get hstep hk)).mono
  · intro _ t ht
    exact ht.1.2
  · intro e t ht
    obtain ⟨-, hthrown, hrV, hkey, hfailed⟩ := ht
    have hindexed := hfailed.inStep.indexed
    refine ⟨hthrown, hrV, fun _ => mem_store_iff_of_indexed hindexed, hindexed.nodup_toList, ?_,
      hfailed.inStep.size_le, hstep.recency, ?_⟩
    · intro k val pos hlookup
      exact hindexed.get? (by rw [link?, hlookup, Option.map_some])
    · apply hfailed.change.imp_right
      intro hfull
      exact ⟨hfull.1, hkey, hfull.2⟩

/-- The cache is full with one key, which is evicted before the loader throws. -/
theorem get_failed_consistent_full :
    ∃ t : Counted (Frame ℕ ℕ), get (fun k => k = 2) 1 id 5
        ⟨0, ⟨LruCacheV2.empty.put 3 3, 7, false, false⟩⟩ = .error .thrown t ∧ t.world.rV = 7 ∧
      t.world.cache.storeSize ≤ 1 ∧ OldestRemoved (LruCacheV2.empty.put 3 3) t.world.cache := by
  have hc : Reachable 1 [3] (LruCacheV2.empty.put 3 3 : LruCacheV2 ℕ ℕ) :=
    .get (s := ⟨0, ⟨.empty, 7, false, false⟩⟩)
      (t := ⟨7, ⟨LruCacheV2.empty.put 3 3, 3, true, true⟩⟩) (fun _ => false) id 3 .empty
      (.inl ⟨_, rfl⟩)
  have hends := @get_failed_consistent ℕ ℕ _ ⟨0, ⟨LruCacheV2.empty.put 3 3, 7, false, false⟩⟩ 1 [3]
    (by decide) hc (fun k => k = 2) id 5
  refine ⟨_, rfl, ?_⟩
  obtain ⟨-, hrV, -, -, -, hsize, -, hchange⟩ := hends.error rfl
  exact ⟨hrV, hsize, (hchange.resolve_left fun hsame => absurd hsame.2 (by decide)).2.2⟩

end CppTricks.Cache.LruCacheV2.Throwing
