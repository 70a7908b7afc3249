import CppTricks.Foundation.NodeList
import CppTricks.Foundation.Recency
import Mathlib.Data.Finmap

/-! `v1::Lru`: a set of keys in recency order, found through a hash map of list iterators. -/
namespace CppTricks.Cache
open Foundation

structure Lru (T : Type) where
  list : NodeList T
  map : Finmap fun _ : T => ℕ

inductive LruCall (T : Type)
  | has (key : T)
  | put (key : T)
  deriving DecidableEq

namespace Lru

variable {T : Type} [DecidableEq T]

def empty : Lru T := ⟨.empty, ∅⟩

def refresh (c : Lru T) (listIt : ℕ) (key : T) : Option (Lru T) := do
  let list ← c.list.erase? listIt
  let (it, list) := list.insertEnd key
  return ⟨list, c.map.insert key it⟩

def has (c : Lru T) (key : T) : Option (Bool × Lru T) :=
  match c.map.lookup key with
  | none => some (false, c)
  | some listIt => do
    let c ← c.refresh listIt key
    return (true, c)

def dropLast (c : Lru T) : Option (Lru T) := do
  let last ← c.list.front?
  let list ← c.list.popFront?
  return ⟨list, c.map.erase last⟩

def put (maxSize : ℕ) (c : Lru T) (key : T) : Option (Bool × Lru T) :=
  match c.map.lookup key with
  | some listIt => do
    let c ← c.refresh listIt key
    return (false, c)
  | none => do
    let c ← if c.list.size = maxSize then c.dropLast else some c
    let (it, list) := c.list.insertEnd key
    return (true, ⟨list, c.map.insert key it⟩)

def call (maxSize : ℕ) (c : Lru T) : LruCall T → Option (Bool × Lru T)
  | .has key => c.has key
  | .put key => c.put maxSize key

def callAll (maxSize : ℕ) (c : Lru T) : List (LruCall T) → Option (List Bool × Lru T)
  | [] => some ([], c)
  | op :: ops => do
    let (r, c) ← c.call maxSize op
    let (rs, c) ← c.callAll maxSize ops
    return (r :: rs, c)

/-- The keys a call touches: every `Put`, and every `Has` that finds its key. -/
def touched : LruCall T → Bool → List T
  | .has key, true => [key]
  | .has _, false => []
  | .put key, _ => [key]

def touchedAll (ops : List (LruCall T)) (results : List Bool) : List T :=
  (ops.zip results).flatMap fun opr => touched opr.1 opr.2

/-- The map sends the keys of the list, and no other, to their own nodes. -/
def Indexed (c : Lru T) : Prop := c.list.IndexedBy fun key => c.map.lookup key

variable {c : Lru T} {key : T} {maxSize : ℕ}

theorem indexed_empty : (empty : Lru T).Indexed := .empty fun _ => Finmap.lookup_empty _

namespace Indexed

theorem mem_map_iff (h : c.Indexed) : key ∈ c.map ↔ key ∈ c.list.toList := by
  rw [h.mem_toList_iff, Finmap.lookup_isSome]

theorem refresh {listIt : ℕ} (h : c.Indexed) (hkey : c.map.lookup key = some listIt) :
    ∃ c', c.refresh listIt key = some c' ∧ c'.Indexed ∧
      c'.list.toList = c.list.toList.erase key ++ [key] := by
  obtain ⟨list, herase, hindexed, hlist⟩ := h.erase? hkey
  refine ⟨⟨(list.insertEnd key).2, c.map.insert key (list.insertEnd key).1⟩,
    by simp [Lru.refresh, herase], ?_, by rw [NodeList.toList_insertEnd, hlist]⟩
  apply (hindexed.insertEnd (Function.update_self ..)).congr
  intro k
  rw [lookup_insert_eq_update, Function.update_idem]

theorem insert (h : c.Indexed) (hkey : key ∉ c.map) :
    (⟨(c.list.insertEnd key).2, c.map.insert key (c.list.insertEnd key).1⟩ : Lru T).Indexed := by
  exact (NodeList.IndexedBy.insertEnd h (Finmap.lookup_eq_none.mpr hkey)).congr
    (lookup_insert_eq_update _ _ _)

theorem dropLast (h : c.Indexed) (hne : c.list.toList ≠ []) :
    ∃ c', c.dropLast = some c' ∧ c'.Indexed ∧ c'.list.toList = c.list.toList.tail ∧
      ∀ key, key ∉ c.map → key ∉ c'.map := by
  obtain ⟨last, rest, hlist⟩ := List.exists_cons_of_ne_nil hne
  have hfront : c.list.front? = some last := by
    rw [NodeList.front?_eq_head?, hlist, List.head?_cons]
  obtain ⟨list, hpop, hindexed, htail⟩ := h.popFront? hfront
  refine ⟨⟨list, c.map.erase last⟩, by simp [Lru.dropLast, hfront, hpop],
    hindexed.congr (lookup_erase_eq_update _ _), htail, fun k hk => by simp [Finmap.mem_erase, hk]⟩

/-- `Has` answers membership; a hit makes the key the most recent, a miss changes nothing. -/
theorem has (h : c.Indexed) (key : T) :
    ∃ c', c.has key = some (decide (key ∈ c.list.toList), c') ∧ c'.Indexed ∧
      (key ∈ c.list.toList → c'.list.toList = c.list.toList.erase key ++ [key]) ∧
      (key ∉ c.list.toList → c' = c) := by
  unfold Lru.has
  cases hlookup : c.map.lookup key with
  | none =>
    have habsent : key ∉ c.list.toList := by
      rw [← h.mem_map_iff]
      exact Finmap.lookup_eq_none.mp hlookup
    exact ⟨c, by simp [habsent], h, fun hmem => absurd hmem habsent, fun _ => rfl⟩
  | some listIt =>
    have hmem : key ∈ c.list.toList := h.mem_map_iff.mp (Finmap.mem_of_lookup_eq_some hlookup)
    obtain ⟨c', hrefresh, h', hlist⟩ := h.refresh hlookup
    exact ⟨c', by simp [hrefresh, hmem], h', fun _ => hlist, fun habsent => absurd hmem habsent⟩

/-- `Put` answers absence and touches the key in the recency list. -/
theorem put (h : c.Indexed) (hmax : 1 ≤ maxSize) (key : T) :
    ∃ c', c.put maxSize key = some (decide (key ∉ c.list.toList), c') ∧ c'.Indexed ∧
      c'.list.toList = touch maxSize c.list.toList key := by
  unfold Lru.put
  cases hlookup : c.map.lookup key with
  | none =>
    have hkey : key ∉ c.map := Finmap.lookup_eq_none.mp hlookup
    have habsent : key ∉ c.list.toList := fun hmem => hkey (h.mem_map_iff.mpr hmem)
    by_cases hfull : c.list.size = maxSize
    · have hne : c.list.toList ≠ [] := by
        intro hnil
        rw [← NodeList.length_toList, hnil, List.length_nil] at hfull
        omega
      obtain ⟨c₁, hdrop, h₁, htail, hgone⟩ := h.dropLast hne
      refine ⟨_, by simp [hfull, hdrop, habsent], h₁.insert (hgone key hkey), ?_⟩
      rw [NodeList.toList_insertEnd, htail, touch_of_full habsent (by simpa using hfull)]
    · refine ⟨_, by simp [hfull, habsent], h.insert hkey, ?_⟩
      rw [NodeList.toList_insertEnd, touch_of_room habsent (by simpa using hfull)]
  | some listIt =>
    have hmem : key ∈ c.list.toList := h.mem_map_iff.mp (Finmap.mem_of_lookup_eq_some hlookup)
    obtain ⟨c', hrefresh, h', hlist⟩ := h.refresh hlookup
    exact ⟨c', by simp [hrefresh, hmem], h', by rw [hlist, touch_of_mem hmem]⟩

/-- Every call extends the touches that the list is the recency order of. -/
theorem call (h : c.Indexed) (hmax : 1 ≤ maxSize) {touches : List T}
    (hrecent : c.list.toList = recent maxSize touches) (op : LruCall T) :
    ∃ r c', c.call maxSize op = some (r, c') ∧ c'.Indexed ∧
      c'.list.toList = recent maxSize (touches ++ touched op r) := by
  cases op with
  | has key =>
    obtain ⟨c', hhas, h', hhit, hmiss⟩ := h.has key
    refine ⟨_, c', hhas, h', ?_⟩
    by_cases hmem : key ∈ c.list.toList
    · rw [hhit hmem, ← touch_of_mem hmem, hrecent, touch_recent hmax]
      simp [touched, ← hrecent, hmem]
    · rw [hmiss hmem]
      simpa [touched, hmem] using hrecent
  | put key =>
    obtain ⟨c', hput, h', htouch⟩ := h.put hmax key
    exact ⟨_, c', hput, h', by rw [htouch, hrecent, touch_recent hmax]; rfl⟩

theorem callAll (h : c.Indexed) (hmax : 1 ≤ maxSize) {touches : List T}
    (hrecent : c.list.toList = recent maxSize touches) (ops : List (LruCall T)) :
    ∃ results c', c.callAll maxSize ops = some (results, c') ∧ c'.Indexed ∧
      c'.list.toList = recent maxSize (touches ++ touchedAll ops results) := by
  induction ops generalizing c touches with
  | nil => exact ⟨[], c, rfl, h, by simpa [touchedAll] using hrecent⟩
  | cons op ops ih =>
    obtain ⟨r, c₁, hcall, h₁, hrecent₁⟩ := h.call hmax hrecent op
    obtain ⟨results, c₂, hrest, h₂, hlist⟩ := ih h₁ hrecent₁
    refine ⟨r :: results, c₂, by simp [Lru.callAll, hcall, hrest], h₂, ?_⟩
    rw [hlist]
    simp [touchedAll]

end Indexed

/-- After any run of calls the list holds the last `maxSize` distinct keys touched, least recent
first, with the map in step; the next `Has` and `Put` behave as on that recency list, and a `Put`
drops a key only when the list is full and lacks the new key: then the least recent one. -/
theorem callAll_refines_lruSet (hmax : 1 ≤ maxSize) (ops : List (LruCall T)) :
    ∃ results c, empty.callAll maxSize ops = some (results, c) ∧
      c.list.toList = recent maxSize (touchedAll ops results) ∧
      c.list.toList.Nodup ∧ c.list.size ≤ maxSize ∧
      (∀ key, key ∈ c.map ↔ key ∈ c.list.toList) ∧
      (∀ key it, c.map.lookup key = some it → c.list.get? it = some key) ∧
      (∀ key, ∃ c', c.has key = some (decide (key ∈ c.list.toList), c') ∧
        (key ∈ c.list.toList → c'.list.toList = c.list.toList.erase key ++ [key]) ∧
        (key ∉ c.list.toList → c' = c)) ∧
      ∀ key, ∃ c', c.put maxSize key = some (decide (key ∉ c.list.toList), c') ∧
        c'.list.toList = touch maxSize c.list.toList key ∧ c'.list.toList.getLast? = some key ∧
        ∀ j ∈ c.list.toList, j ∉ c'.list.toList →
          key ∉ c.list.toList ∧ c.list.size = maxSize ∧ c.list.toList.head? = some j := by
  obtain ⟨results, c, hrun, h, hlist⟩ :=
    (indexed_empty (T := T)).callAll hmax (recent_nil maxSize).symm ops
  rw [List.nil_append] at hlist
  refine ⟨results, c, hrun, hlist, NodeList.IndexedBy.nodup_toList h, ?_, fun _ => h.mem_map_iff,
    fun key it hit => NodeList.IndexedBy.get? h hit, fun key => ?_, fun key => ?_⟩
  · rw [← NodeList.length_toList, hlist, length_recent]
    exact Nat.min_le_left _ _
  · obtain ⟨c', hhas, -, hhit, hmiss⟩ := h.has key
    exact ⟨c', hhas, hhit, hmiss⟩
  · obtain ⟨c', hput, -, htouch⟩ := h.put hmax key
    refine ⟨c', hput, htouch, by rw [htouch, getLast?_touch], fun j hj hj' => ?_⟩
    rw [htouch] at hj'
    rw [← NodeList.length_toList]
    exact dropped_by_touch hj hj'

theorem callAll_refines_lruSet_two :
    ∃ results c, (empty : Lru ℕ).callAll 2 [.put 0, .put 1, .has 0, .has 5, .put 2] =
      some (results, c) ∧ c.list.size ≤ 2 := by
  obtain ⟨results, c, hrun, -, -, hsize, -⟩ :=
    callAll_refines_lruSet (by decide : 1 ≤ 2) [.put 0, .put 1, .has 0, .has 5, .put 2]
  exact ⟨results, c, hrun, hsize⟩

end Lru
end CppTricks.Cache
