import CppTricks.Foundation.NodeList
import CppTricks.Foundation.Recency
import Mathlib.Data.Finmap

/-! `lru_cache_v2`: a map from keys to a value and an iterator into the recency list. -/
namespace CppTricks.Cache
open Foundation

/-- `m_key_tracker` and `m_store`; an iterator is the address of a tracker node. -/
structure LruCacheV2 (K V : Type) where
  keyTracker : NodeList K
  store : Finmap fun _ : K => V × ℕ

namespace LruCacheV2

variable {K V : Type} [DecidableEq K]

def empty : LruCacheV2 K V := ⟨.empty, ∅⟩

def storeSize (c : LruCacheV2 K V) : ℕ := c.store.keys.card

def evict (c : LruCacheV2 K V) : Option (LruCacheV2 K V) := do
  let toRemove ← c.keyTracker.front?
  let keyTracker ← c.keyTracker.popFront?
  return ⟨keyTracker, c.store.erase toRemove⟩

/-- `std::map::insert` leaves an entry that is already there as it is. -/
def put (c : LruCacheV2 K V) (key : K) (val : V) : LruCacheV2 K V :=
  let (link, keyTracker) := c.keyTracker.insertEnd key
  ⟨keyTracker, if key ∈ c.store then c.store else c.store.insert key (val, link)⟩

/-- `get(key, r_v)`: the value written to `r_v` and the cache afterwards. -/
def get (kMaxSize : ℕ) (load : K → V) (c : LruCacheV2 K V) (key : K) :
    Option (V × LruCacheV2 K V) :=
  match c.store.lookup key with
  | none => do
    let c ← if c.storeSize = kMaxSize then c.evict else some c
    let val := load key
    return (val, c.put key val)
  | some (val, pos) => do
    let keyTracker ← c.keyTracker.spliceEnd? pos
    return (val, ⟨keyTracker, c.store⟩)

def getAll (kMaxSize : ℕ) (load : K → V) (c : LruCacheV2 K V) :
    List K → Option (List V × LruCacheV2 K V)
  | [] => some ([], c)
  | key :: keys => do
    let (r, c) ← c.get kMaxSize load key
    let (rs, c) ← c.getAll kMaxSize load keys
    return (r :: rs, c)

def link? (c : LruCacheV2 K V) (key : K) : Option ℕ := (c.store.lookup key).map Prod.snd

/-- The store maps each tracked key, and no other, to its loaded value and its own node. -/
structure Consistent (load : K → V) (c : LruCacheV2 K V) : Prop where
  indexed : c.keyTracker.IndexedBy c.link?
  loaded : ∀ key val pos, c.store.lookup key = some (val, pos) → val = load key

variable {load : K → V} {c : LruCacheV2 K V} {key : K}

theorem consistent_empty (load : K → V) : (empty : LruCacheV2 K V).Consistent load :=
  ⟨.empty fun _ => rfl, fun key val pos h => by simp [empty] at h⟩

theorem get_of_absent {kMaxSize : ℕ} (h : c.store.lookup key = none) :
    c.get kMaxSize load key = (if c.storeSize = kMaxSize then c.evict else some c).map
      fun c => (load key, c.put key (load key)) := by
  unfold get
  rw [h]
  by_cases hfull : c.storeSize = kMaxSize
  · cases c.evict <;> simp [hfull]
  · simp [hfull]

theorem get_of_present {kMaxSize : ℕ} {val : V} {pos : ℕ}
    (h : c.store.lookup key = some (val, pos)) :
    c.get kMaxSize load key =
      (c.keyTracker.spliceEnd? pos).map fun keyTracker => (val, ⟨keyTracker, c.store⟩) := by
  unfold get
  rw [h]
  cases hsplice : c.keyTracker.spliceEnd? pos <;> simp [hsplice]

theorem isSome_link? : (c.link? key).isSome ↔ key ∈ c.store := by
  unfold link?
  rw [Option.isSome_map, Finmap.lookup_isSome]

/-! ### The store and the tracker in step -/

section Indexed

theorem mem_store_iff_of_indexed (h : c.keyTracker.IndexedBy c.link?) :
    key ∈ c.store ↔ key ∈ c.keyTracker.toList := by
  rw [h.mem_toList_iff, isSome_link?]

theorem storeSize_of_indexed (h : c.keyTracker.IndexedBy c.link?) :
    c.storeSize = c.keyTracker.toList.length := by
  rw [NodeList.length_toList]
  exact h.card_keys _ fun v => by rw [Finmap.mem_keys, isSome_link?]

theorem indexed_evict (h : c.keyTracker.IndexedBy c.link?) {toRemove : K} {rest : List K}
    (hlist : c.keyTracker.toList = toRemove :: rest) :
    ∃ c', c.evict = some c' ∧ c'.keyTracker.IndexedBy c'.link? ∧ c'.keyTracker.toList = rest ∧
      c'.store = c.store.erase toRemove := by
  have hfront : c.keyTracker.front? = some toRemove := by
    rw [NodeList.front?_eq_head?, hlist, List.head?_cons]
  obtain ⟨keyTracker, hpop, hindexed, htail⟩ := h.popFront? hfront
  refine ⟨⟨keyTracker, c.store.erase toRemove⟩, by simp [evict, hfront, hpop],
    hindexed.congr fun k => ?_, by rw [htail, hlist, List.tail_cons], rfl⟩
  by_cases hk : k = toRemove
  · subst k
    simp [link?]
  · simp [link?, hk, Finmap.lookup_erase_ne hk]

theorem indexed_put (h : c.keyTracker.IndexedBy c.link?) (hkey : key ∉ c.store) (val : V) :
    (c.put key val).keyTracker.IndexedBy (c.put key val).link? ∧
      (c.put key val).keyTracker.toList = c.keyTracker.toList ++ [key] := by
  have hlink : c.link? key = none := by
    unfold link?
    rw [Finmap.lookup_eq_none.mpr hkey, Option.map_none]
  refine ⟨(h.insertEnd hlink).congr fun k => ?_, NodeList.toList_insertEnd _ _⟩
  by_cases hk : k = key
  · subst k
    simp [link?, put, hkey]
  · simp [link?, put, hkey, Finmap.lookup_insert_of_ne _ hk, Function.update_of_ne hk]

end Indexed

namespace Consistent

theorem mem_store_iff (h : c.Consistent load) : key ∈ c.store ↔ key ∈ c.keyTracker.toList :=
  mem_store_iff_of_indexed h.indexed

theorem storeSize_eq (h : c.Consistent load) : c.storeSize = c.keyTracker.toList.length :=
  storeSize_of_indexed h.indexed

theorem evict (h : c.Consistent load) (hne : c.keyTracker.toList ≠ []) :
    ∃ c', c.evict = some c' ∧ c'.Consistent load ∧
      c'.keyTracker.toList = c.keyTracker.toList.tail ∧
      ∀ key, key ∉ c.store → key ∉ c'.store := by
  obtain ⟨toRemove, rest, hlist⟩ := List.exists_cons_of_ne_nil hne
  obtain ⟨c', hevict, hindexed, hrest, hstore⟩ := indexed_evict h.indexed hlist
  refine ⟨c', hevict, ⟨hindexed, fun k val pos hk => ?_⟩, by rw [hrest, hlist, List.tail_cons],
    fun k hk => ?_⟩
  · rw [hstore] at hk
    by_cases hkr : k = toRemove
    · subst k
      simp at hk
    · exact h.loaded k val pos (by rwa [Finmap.lookup_erase_ne hkr] at hk)
  · simp [hstore, Finmap.mem_erase, hk]

theorem put (h : c.Consistent load) (hkey : key ∉ c.store) :
    (c.put key (load key)).Consistent load ∧
      (c.put key (load key)).keyTracker.toList = c.keyTracker.toList ++ [key] := by
  obtain ⟨hindexed, hlist⟩ := indexed_put h.indexed hkey (load key)
  refine ⟨⟨hindexed, fun k val pos hk => ?_⟩, hlist⟩
  by_cases hkk : k = key
  · subst k
    simp only [LruCacheV2.put, hkey, if_false, Finmap.lookup_insert, Option.some.injEq,
      Prod.mk.injEq] at hk
    exact hk.1.symm
  · simp only [LruCacheV2.put, hkey, if_false, Finmap.lookup_insert_of_ne _ hkk] at hk
    exact h.loaded k val pos hk

/-- One call delivers `load key` and touches `key` in the recency list. -/
theorem get (h : c.Consistent load) {kMaxSize : ℕ} (hk : 1 ≤ kMaxSize) (key : K) :
    ∃ c', c.get kMaxSize load key = some (load key, c') ∧ c'.Consistent load ∧
      c'.keyTracker.toList = touch kMaxSize c.keyTracker.toList key := by
  cases hlookup : c.store.lookup key with
  | none =>
    have hkey : key ∉ c.store := Finmap.lookup_eq_none.mp hlookup
    have habsent : key ∉ c.keyTracker.toList := fun hmem => hkey (h.mem_store_iff.mpr hmem)
    rw [get_of_absent hlookup]
    by_cases hfull : c.storeSize = kMaxSize
    · have hne : c.keyTracker.toList ≠ [] := by
        intro hnil
        rw [h.storeSize_eq, hnil, List.length_nil] at hfull
        omega
      obtain ⟨c₁, hevict, h₁, htail, hgone⟩ := h.evict hne
      obtain ⟨h₂, hlist⟩ := h₁.put (hgone key hkey)
      rw [if_pos hfull, hevict]
      refine ⟨_, rfl, h₂, ?_⟩
      rw [touch_of_full habsent (h.storeSize_eq ▸ hfull), hlist, htail]
    · obtain ⟨h₁, hlist⟩ := h.put hkey
      rw [if_neg hfull]
      refine ⟨_, rfl, h₁, ?_⟩
      rw [touch_of_room habsent (h.storeSize_eq ▸ hfull), hlist]
  | some entry =>
    obtain ⟨val, pos⟩ := entry
    have hkey : key ∈ c.store := Finmap.mem_of_lookup_eq_some hlookup
    have hlink : c.link? key = some pos := by rw [link?, hlookup, Option.map_some]
    obtain ⟨keyTracker, hsplice, hindexed, hlist⟩ := h.indexed.spliceEnd? hlink
    obtain rfl := h.loaded key val pos hlookup
    rw [get_of_present hlookup, hsplice]
    refine ⟨⟨keyTracker, c.store⟩, rfl, ⟨hindexed, h.loaded⟩, ?_⟩
    rw [touch_of_mem (h.mem_store_iff.mp hkey), hlist]

theorem getAll (h : c.Consistent load) {kMaxSize : ℕ} (hk : 1 ≤ kMaxSize) (keys touches : List K)
    (hrecent : c.keyTracker.toList = recent kMaxSize touches) :
    ∃ c', c.getAll kMaxSize load keys = some (keys.map load, c') ∧ c'.Consistent load ∧
      c'.keyTracker.toList = recent kMaxSize (touches ++ keys) := by
  induction keys generalizing c touches with
  | nil => exact ⟨c, rfl, h, by rwa [List.append_nil]⟩
  | cons key keys ih =>
    obtain ⟨c₁, hget, h₁, htouch⟩ := h.get hk key
    obtain ⟨c₂, hrest, h₂, hlist⟩ := ih h₁ (touches ++ [key])
      (by rw [htouch, hrecent, touch_recent hk])
    exact ⟨c₂, by simp [LruCacheV2.getAll, hget, hrest], h₂,
      by rw [hlist, List.append_assoc, List.singleton_append]⟩

end Consistent

/-- Any run of `get` calls answers with the loader and leaves the store and the tracker in step,
holding the last `kMaxSize` distinct keys requested in the order of their last request. -/
theorem getAll_refines_lru {kMaxSize : ℕ} (hk : 1 ≤ kMaxSize) (load : K → V) (keys : List K) :
    ∃ c, empty.getAll kMaxSize load keys = some (keys.map load, c) ∧
      (∀ key, key ∈ c.store ↔ key ∈ c.keyTracker.toList) ∧ c.keyTracker.toList.Nodup ∧
      (∀ key val pos, c.store.lookup key = some (val, pos) →
        c.keyTracker.get? pos = some key ∧ val = load key) ∧
      c.storeSize ≤ kMaxSize ∧
      c.keyTracker.toList = keys.dedup.rtake (min kMaxSize keys.dedup.length) := by
  obtain ⟨c, hrun, h, hlist⟩ := (consistent_empty load).getAll hk keys []
    (recent_nil kMaxSize).symm
  rw [List.nil_append] at hlist
  refine ⟨c, hrun, fun _ => h.mem_store_iff, h.indexed.nodup_toList, fun key val pos hkey => ?_,
    ?_, ?_⟩
  · exact ⟨h.indexed.get? (by rw [link?, hkey, Option.map_some]), h.loaded key val pos hkey⟩
  · rw [h.storeSize_eq, hlist, length_recent]
    exact Nat.min_le_left _ _
  · rw [hlist, recent, List.rtake, List.rtake]
    congr 1
    omega

theorem getAll_refines_lru_two :
    ∃ c : LruCacheV2 ℕ ℕ, empty.getAll 2 (· + 1) [0, 1, 2, 1, 3] = some ([1, 2, 3, 2, 4], c) ∧
      c.keyTracker.toList = [1, 3] := by
  obtain ⟨c, hrun, -, -, -, -, hlist⟩ :=
    getAll_refines_lru (by decide : 1 ≤ 2) (· + 1) [0, 1, 2, 1, 3]
  exact ⟨c, hrun, hlist⟩

end LruCacheV2
end CppTricks.Cache
