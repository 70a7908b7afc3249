import CppTricks.Foundation.Recency
import CppTricks.Foundation.Runs
import Mathlib.Data.Finmap
import Mathlib.Data.Finset.Card

/-! `lru_cache`: a map and a list of its keys, where a hit goes on to the insertion below it. -/
namespace CppTricks.Cache
open Foundation

structure LruCache (K V : Type) where
  dll : List K
  store : Finmap fun _ : K => V

namespace LruCache

variable {K V : Type} [DecidableEq K]

def empty : LruCache K V := ⟨[], ∅⟩

/-- `std::swap(*std::find(begin, end, key), back)`; `none` is a swap with `end()`. -/
def swapWithBack (dll : List K) (key : K) : Option (List K) :=
  if key ∈ dll then
    dll.getLast?.map fun back => (dll.set (dll.idxOf key) back).set (dll.length - 1) key
  else none

/-- The hit part of `get`. -/
def moveToTop (c : LruCache K V) (key : K) : Option (List K) :=
  if key ∈ c.store then swapWithBack c.dll key else some c.dll

/-- The eviction from the copies; `none` is `erase(end())`, or the front of an empty list. -/
def evict (kMaxSize : ℕ) (tmpStore : Finmap fun _ : K => V) (tmpDll : List K) :
    Option (LruCache K V) :=
  if tmpStore.keys.card = kMaxSize then do
    let steal ← tmpDll.head?
    if steal ∈ tmpStore then some ⟨tmpDll.tail, tmpStore.erase steal⟩ else none
  else some ⟨tmpDll, tmpStore⟩

def get (kMaxSize : ℕ) (load : K → V) (c : LruCache K V) (key : K) :
    Option (V × LruCache K V) := do
  -- there is no return after a hit, and what the hit writes to `r_v` is written over
  let dll ← c.moveToTop key
  let val := load key
  let tmp ← evict kMaxSize c.store dll
  let store := if key ∈ tmp.store then tmp.store else tmp.store.insert key val
  return (val, ⟨tmp.dll ++ [key], store⟩)

def after (kMaxSize : ℕ) (load : K → V) (c : LruCache K V) (key : K) : Option (LruCache K V) :=
  (c.get kMaxSize load key).map Prod.snd

/-- What is asked of the cache after the requests `keys`: the list has the keys of the store, each
once and in the order of their last requests. -/
structure Ordered (kMaxSize : ℕ) (keys : List K) (c : LruCache K V) : Prop where
  mem_iff : ∀ key, key ∈ c.dll ↔ key ∈ c.store
  nodup : c.dll.Nodup
  size_le : c.store.keys.card ≤ kMaxSize
  recency : c.dll.Sublist keys.dedup

structure Window (kMaxSize : ℕ) (keys : List K) (c : LruCache K V) : Prop where
  dll : c.dll = keys.rtake kMaxSize
  mem_iff : ∀ key, key ∈ c.dll ↔ key ∈ c.store
  nodup : c.dll.Nodup

variable {kMaxSize : ℕ} {load : K → V} {c c' : LruCache K V} {key : K} {keys : List K}

theorem evict_of_full {tmpStore : Finmap fun _ : K => V} {steal : K} {rest : List K}
    (hfull : tmpStore.keys.card = kMaxSize) (hsteal : steal ∈ tmpStore) :
    evict kMaxSize tmpStore (steal :: rest) = some ⟨rest, tmpStore.erase steal⟩ := by
  unfold evict
  rw [if_pos hfull, List.head?_cons, Option.bind_eq_bind, Option.bind_some, if_pos hsteal,
    List.tail_cons]

theorem evict_of_room {tmpStore : Finmap fun _ : K => V} (hroom : tmpStore.keys.card ≠ kMaxSize)
    (tmpDll : List K) : evict kMaxSize tmpStore tmpDll = some ⟨tmpDll, tmpStore⟩ := if_neg hroom

theorem after_eq {dll : List K} {tmp : LruCache K V} (hdll : c.moveToTop key = some dll)
    (htmp : evict kMaxSize c.store dll = some tmp) :
    c.after kMaxSize load key = some ⟨tmp.dll ++ [key],
      if key ∈ tmp.store then tmp.store else tmp.store.insert key (load key)⟩ := by
  unfold after get
  rw [hdll, Option.bind_eq_bind, Option.bind_some, htmp]
  rfl

theorem card_keys (hmem : ∀ key, key ∈ c.dll ↔ key ∈ c.store) (hnodup : c.dll.Nodup) :
    c.store.keys.card = c.dll.length := by
  have heq : c.store.keys = c.dll.toFinset := by
    ext key
    rw [Finmap.mem_keys, List.mem_toFinset, hmem]
  rw [heq, List.toFinset_card_of_nodup hnodup]

theorem swapWithBack_eq {dll : List K} (hkey : key ∈ dll) :
    ∃ front, swapWithBack dll key = some (front ++ [key]) ∧ front.length + 1 = dll.length := by
  have hne : dll ≠ [] := List.ne_nil_of_mem hkey
  have hpos := List.length_pos_of_ne_nil hne
  refine ⟨(dll.set (dll.idxOf key) (dll.getLast hne)).dropLast, ?_, ?_⟩
  · unfold swapWithBack
    rw [if_pos hkey, List.getLast?_eq_some_getLast hne, Option.map_some]
    have hlen : dll.length - 1 = ((dll.set (dll.idxOf key) (dll.getLast hne)).dropLast).length := by
      rw [List.length_dropLast, List.length_set]
    have hset : dll.set (dll.idxOf key) (dll.getLast hne) ≠ [] := by
      rwa [Ne, List.set_eq_nil_iff]
    conv_lhs => rw [← List.dropLast_append_getLast hset]
    rw [hlen, List.set_append_right _ _ (Nat.le_refl _), Nat.sub_self]
    rfl
  · rw [List.length_dropLast, List.length_set]
    omega

namespace Window

omit [DecidableEq K] in
theorem empty (kMaxSize : ℕ) : (LruCache.empty : LruCache K V).Window kMaxSize [] where
  dll := by simp [LruCache.empty, List.rtake]
  mem_iff key := by
    constructor
    · intro h
      exact absurd h List.not_mem_nil
    · intro h
      exact absurd h Finmap.notMem_empty
  nodup := List.nodup_nil

theorem ordered (h : c.Window kMaxSize keys) : c.Ordered kMaxSize keys where
  mem_iff := h.mem_iff
  nodup := h.nodup
  size_le := by
    rw [card_keys h.mem_iff h.nodup, h.dll, List.rtake, List.length_drop]
    omega
  recency := by
    have hsuffix : c.dll <:+ keys := h.dll ▸ List.drop_suffix _ _
    obtain ⟨pre, hpre⟩ := hsuffix
    rw [← hpre, List.dedup_append, h.nodup.dedup]
    exact (List.suffix_union_right pre c.dll).sublist

/-- A request for a key that is not there moves the window on. -/
theorem miss (h : c.Window kMaxSize keys) (hk : 1 ≤ kMaxSize) (hkey : key ∉ c.dll)
    (load : K → V) :
    ∃ c', c.after kMaxSize load key = some c' ∧ c'.Window kMaxSize (keys ++ [key]) := by
  obtain ⟨n, rfl⟩ : ∃ n, kMaxSize = n + 1 := ⟨kMaxSize - 1, by omega⟩
  have hstore : key ∉ c.store := fun hmem => hkey ((h.mem_iff key).mpr hmem)
  have hmove : c.moveToTop key = some c.dll := if_neg hstore
  have hcard := card_keys h.mem_iff h.nodup
  have hwindow := rtake_concat n keys key
  rw [← h.dll] at hwindow
  by_cases hfull : c.dll.length = n + 1
  · obtain ⟨steal, rest, hdll⟩ := List.exists_cons_of_length_eq_add_one hfull
    have hnodup := h.nodup
    rw [hdll, List.nodup_cons] at hnodup
    have hsteal : steal ∈ c.store := (h.mem_iff steal).mp (by simp [hdll])
    have hgone : key ∉ c.store.erase steal := fun hmem => hstore (Finmap.mem_erase.mp hmem).2
    have hrest : key ∉ rest := fun hmem => hkey (by simp [hdll, hmem])
    have hevict : LruCache.evict (n + 1) c.store c.dll = some ⟨rest, c.store.erase steal⟩ := by
      rw [hdll]
      exact evict_of_full (hcard.trans hfull) hsteal
    refine ⟨_, after_eq hmove hevict, ?_, ?_, ?_⟩
    · rw [hwindow, if_pos hfull, hdll, List.tail_cons]
    · intro k
      have hk := h.mem_iff k
      rw [hdll, List.mem_cons] at hk
      rw [if_neg hgone, List.mem_append, List.mem_singleton, Finmap.mem_insert, Finmap.mem_erase,
        ← hk]
      constructor
      · intro hmem
        cases hmem with
        | inl hin => exact .inr ⟨fun heq => hnodup.1 (heq ▸ hin), .inr hin⟩
        | inr heq => exact .inl heq
      · intro hmem
        cases hmem with
        | inl heq => exact .inr heq
        | inr hin => exact .inl (hin.2.resolve_left hin.1)
    · exact List.nodup_append.mpr ⟨hnodup.2, List.nodup_singleton key, fun a ha b hb => by
        rw [List.mem_singleton.mp hb]
        exact fun heq => hrest (heq ▸ ha)⟩
  · refine ⟨_, after_eq hmove (evict_of_room (hcard.trans_ne hfull) c.dll), ?_, ?_, ?_⟩
    · rw [hwindow, if_neg hfull]
    · intro k
      rw [if_neg hstore, List.mem_append, List.mem_singleton, Finmap.mem_insert, h.mem_iff, or_comm]
    · exact List.nodup_append.mpr ⟨h.nodup, List.nodup_singleton key, fun a ha b hb => by
        rw [List.mem_singleton.mp hb]
        exact fun heq => hkey (heq ▸ ha)⟩

/-- A request for a key that is there appends it a second time. -/
theorem hit (h : c.Window kMaxSize keys) (hk : 2 ≤ kMaxSize) (hkey : key ∈ c.dll)
    (hafter : c.after kMaxSize load key = some c') : ¬ c'.dll.Nodup := by
  have hstore : key ∈ c.store := (h.mem_iff key).mp hkey
  have hcard := card_keys h.mem_iff h.nodup
  obtain ⟨front, hswap, hlen⟩ := swapWithBack_eq hkey
  have hmove : c.moveToTop key = some (front ++ [key]) := (if_pos hstore).trans hswap
  have htwice : ∀ rest : List K, ¬ (rest ++ [key] ++ [key]).Nodup := by
    intro rest hnodup
    rw [List.append_assoc] at hnodup
    simpa using (List.nodup_append.mp hnodup).2.1
  by_cases hfull : c.dll.length = kMaxSize
  · obtain ⟨steal, rest, hfront⟩ : ∃ steal rest, front = steal :: rest :=
      List.exists_cons_of_ne_nil (List.ne_nil_of_length_pos (by omega))
    rw [hfront, List.cons_append] at hmove
    by_cases hsteal : steal ∈ c.store
    · rw [after_eq hmove (evict_of_full (hcard.trans hfull) hsteal)] at hafter
      obtain rfl := Option.some.inj hafter
      exact htwice rest
    · have hnone : LruCache.evict kMaxSize c.store (steal :: (rest ++ [key])) = none := by
        simp [LruCache.evict, hcard, hfull, hsteal]
      unfold after get at hafter
      rw [hmove, Option.bind_eq_bind, Option.bind_some, hnone] at hafter
      cases hafter
  · rw [after_eq hmove (evict_of_room (hcard.trans_ne hfull) (front ++ [key]))] at hafter
    obtain rfl := Option.some.inj hafter
    exact htwice front

/-- While no request is for one of the keys that are there, the window moves along. -/
theorem run (hk : 1 ≤ kMaxSize) (load : K → V) (keys : List K)
    (hmiss : ∀ p key, p ++ [key] <+: keys → key ∉ p.rtake kMaxSize) :
    ∃ c, Foundation.run (after kMaxSize load) LruCache.empty keys = some c ∧
      c.Window kMaxSize keys := by
  induction keys using List.reverseRecOn with
  | nil => exact ⟨LruCache.empty, rfl, Window.empty kMaxSize⟩
  | append_singleton keys key ih =>
    obtain ⟨c, hrun, h⟩ := ih fun p k hp => hmiss p k (hp.trans (List.prefix_append keys [key]))
    have hkey : key ∉ c.dll := h.dll ▸ hmiss keys key List.prefix_rfl
    obtain ⟨c', hafter, h'⟩ := h.miss hk hkey load
    exact ⟨c', by rw [run_concat, hrun, Option.bind_some, hafter], h'⟩

end Window

/-- The list and the store stay in step, in every state that is reached, exactly when no request is
for one of the last `kMaxSize` keys requested before it. -/
theorem run_ordered_iff (hk : 2 ≤ kMaxSize) (load : K → V) (keys : List K) :
    (∀ p, p <+: keys → ∃ c, run (after kMaxSize load) empty p = some c ∧ c.Ordered kMaxSize p) ↔
      ∀ p key, p ++ [key] <+: keys → key ∉ p.rtake kMaxSize := by
  have hk₁ : 1 ≤ kMaxSize := by omega
  constructor
  · intro h
    induction keys using List.reverseRecOn with
    | nil =>
      intro p key hp
      simp at hp
    | append_singleton keys last ih =>
      have hmiss := ih fun p hp => h p (hp.trans (List.prefix_append keys [last]))
      intro p key hp
      cases List.prefix_concat_iff.mp hp with
      | inr hold => exact hmiss p key hold
      | inl heq =>
        obtain ⟨rfl, hlast⟩ := List.append_inj' heq rfl
        obtain rfl := List.singleton_inj.mp hlast
        obtain ⟨c, hrun, hwindow⟩ := Window.run hk₁ load p hmiss
        obtain ⟨c', hrun', hordered⟩ := h (p ++ [key]) List.prefix_rfl
        rw [run_concat, hrun, Option.bind_some] at hrun'
        rw [← hwindow.dll]
        intro hkey
        exact hwindow.hit hk hkey hrun' hordered.nodup
  · intro hmiss p hp
    obtain ⟨c, hrun, h⟩ := Window.run hk₁ load p fun q key hq => hmiss q key (hq.trans hp)
    exact ⟨c, hrun, h.ordered⟩

example : (run (after 2 id) (empty : LruCache ℕ ℕ) [1, 1, 2]).map dll = some [1, 1, 2] := by decide

theorem run_ordered_iff_two :
    (∀ p, p <+: [1, 2, 3] → ∃ c, run (after 2 id) (empty : LruCache ℕ ℕ) p = some c ∧
      c.Ordered 2 p) ↔ ∀ p key, p ++ [key] <+: [1, 2, 3] → key ∉ p.rtake 2 :=
  run_ordered_iff (by decide) id [1, 2, 3]

/-- Asking twice for a key leaves it twice in the list; some calls later the front of the list is
not in the store. -/
theorem run_not_ordered :
    ¬ (∀ keys : List ℕ, ∃ c, run (after 2 id) (empty : LruCache ℕ ℕ) keys = some c ∧
      c.Ordered 2 keys) ∧
    run (after 2 id) (empty : LruCache ℕ ℕ) [1, 1, 2, 3, 4] = none := by
  constructor
  · intro h
    obtain ⟨c, hrun, hordered⟩ := h [1, 1]
    have hdll : (run (after 2 id) (empty : LruCache ℕ ℕ) [1, 1]).map dll = some [1, 1] := by decide
    rw [hrun, Option.map_some] at hdll
    have hnodup := hordered.nodup
    rw [Option.some.inj hdll] at hnodup
    simp at hnodup
  · decide

end LruCache
end CppTricks.Cache
