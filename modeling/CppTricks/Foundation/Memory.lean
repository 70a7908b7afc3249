import CppTricks.Foundation.Heap
import Mathlib.Data.List.Nodup

/-! A heap with a record of what has been deleted, and what one owner's operations do to it. -/
namespace Foundation

variable {A : Type}

/-- Every address that was ever given out is live or has been deleted, once. -/
structure Memory (A : Type) where
  heap : Heap A
  deleted : List ℕ
  nodup_deleted : deleted.Nodup
  mem_deleted_iff : ∀ a, a ∈ deleted ↔ a < heap.fresh ∧ heap.objects a = none

namespace Memory

def empty : Memory A where
  heap := .empty
  deleted := []
  nodup_deleted := .nil
  mem_deleted_iff a := iff_of_false List.not_mem_nil fun h => Nat.not_lt_zero a h.1

/-- The object at an address; `none` is an address that is not live. -/
def objects (m : Memory A) : ℕ → Option A := m.heap.objects

/-- `*p`; `none` is a null pointer, or one to what is not live. -/
def deref (m : Memory A) (p : Option ℕ) : Option A := p.bind m.objects

def new (m : Memory A) (x : A) : ℕ × Memory A :=
  (m.heap.fresh,
    { heap := (m.heap.allocate x).2
      deleted := m.deleted
      nodup_deleted := m.nodup_deleted
      mem_deleted_iff := by
        intro a
        rw [m.mem_deleted_iff]
        change _ ↔ a < m.heap.fresh + 1 ∧ _
        by_cases ha : a = m.heap.fresh
        · subst ha
          simp
        · rw [Heap.objects_allocate_of_ne ha]
          refine and_congr_left fun _ => ?_
          omega })

def modify (m : Memory A) (a : ℕ) (f : A → A) : Memory A where
  heap := m.heap.modify a f
  deleted := m.deleted
  nodup_deleted := m.nodup_deleted
  mem_deleted_iff := by
    intro b
    rw [m.mem_deleted_iff]
    refine and_congr_right fun _ => ?_
    by_cases hb : b = a
    · rw [hb, Heap.objects_modify_self, Option.map_eq_none_iff]
    · rw [Heap.objects_modify_of_ne hb]

/-- `*p = f(*p)`; `none` as for `*p`. -/
def update (m : Memory A) (p : Option ℕ) (f : A → A) : Option (Memory A) := do
  let a ← p
  let _ ← m.objects a
  return m.modify a f

theorem lt_fresh {m : Memory A} {a : ℕ} (h : m.objects a ≠ none) : a < m.heap.fresh := by
  by_contra hle
  exact h (m.heap.dead_of_fresh_le a (Nat.le_of_not_lt hle))

def free (m : Memory A) (a : ℕ) (h : m.objects a ≠ none) : Memory A where
  heap := m.heap.free a
  deleted := m.deleted ++ [a]
  nodup_deleted := by
    rw [List.nodup_append]
    refine ⟨m.nodup_deleted, List.nodup_singleton a, ?_⟩
    rintro b hb c hc rfl
    obtain rfl := List.mem_singleton.mp hc
    exact h ((m.mem_deleted_iff b).mp hb).2
  mem_deleted_iff := by
    intro b
    rw [List.mem_append, List.mem_singleton, m.mem_deleted_iff]
    by_cases hb : b = a
    · subst hb
      exact iff_of_true (.inr rfl) ⟨lt_fresh h, Heap.objects_free_self _ _⟩
    · rw [or_iff_left hb, Heap.objects_free_of_ne hb]
      rfl

/-- `delete p`, which does nothing to a null pointer; `none` is an address that is not live, as
after another `delete`. -/
def delete (m : Memory A) : Option ℕ → Option (Memory A)
  | none => some m
  | some a => if h : m.objects a ≠ none then some (m.free a h) else none

variable {m m₁ m₂ : Memory A} {a b : ℕ} {x : A} {old mid l : List ℕ}

theorem deref_some (h : m.objects a = some x) : m.deref (some a) = some x := h

/-- The owner of the objects at `old` has come to own those at `l`, and has touched no others. -/
structure Replaces (m m' : Memory A) (old l : List ℕ) : Prop where
  agree : ∀ a, a ∉ old → a ∉ l → m'.objects a = m.objects a
  fresh : ∀ a ∈ l, a ∈ old ∨ m.objects a = none
  freed : ∀ a ∈ old, a ∉ l → m'.objects a = none

namespace Replaces

theorem refl (m : Memory A) (l : List ℕ) : Replaces m m l l where
  agree _ _ _ := rfl
  fresh _ ha := .inl ha
  freed _ ha hnot := absurd ha hnot

theorem trans (h : Replaces m m₁ old mid) (h' : Replaces m₁ m₂ mid l) : Replaces m m₂ old l where
  agree := by
    intro a hold hl
    by_cases hmid : a ∈ mid
    · rw [h'.freed a hmid hl, (h.fresh a hmid).resolve_left hold]
    · rw [h'.agree a hmid hl, h.agree a hold hmid]
  fresh := by
    intro a hl
    by_cases hold : a ∈ old
    · exact .inl hold
    · by_cases hmid : a ∈ mid
      · exact h.fresh a hmid
      · rw [← h.agree a hold hmid]
        exact .inr ((h'.fresh a hl).resolve_left hmid)
  freed := by
    intro a hold hl
    by_cases hmid : a ∈ mid
    · exact h'.freed a hmid hl
    · rw [h'.agree a hmid hl]
      exact h.freed a hold hmid

/-- First the new objects are made, and then the old ones are deleted. -/
theorem exchange (h : Replaces m m₁ [] l) (h' : Replaces m₁ m₂ old []) : Replaces m m₂ old l where
  agree a hold hl := (h'.agree a hold List.not_mem_nil).trans (h.agree a List.not_mem_nil hl)
  fresh a hl := .inr ((h.fresh a hl).resolve_left List.not_mem_nil)
  freed a hold _ := h'.freed a hold List.not_mem_nil

theorem objects_eq (h : Replaces m m₁ old l) (hold : a ∉ old) (hlive : m.objects a ≠ none) :
    m₁.objects a = m.objects a ∧ a ∉ l := by
  have hl : a ∉ l := fun hl => hlive ((h.fresh a hl).resolve_left hold)
  exact ⟨h.agree a hold hl, hl⟩

end Replaces

theorem objects_fresh (m : Memory A) : m.objects m.heap.fresh = none := m.heap.objects_fresh

theorem objects_new_self (m : Memory A) (x : A) : (m.new x).2.objects m.heap.fresh = some x :=
  Heap.objects_allocate_self _ _

theorem ne_fresh (h : m.objects a ≠ none) : a ≠ m.heap.fresh := fun ha => h (ha ▸ m.objects_fresh)

theorem objects_new_of_ne (ha : a ≠ m.heap.fresh) (x : A) :
    (m.new x).2.objects a = m.objects a := Heap.objects_allocate_of_ne ha x

theorem new_replaces (m : Memory A) (x : A) (l : List ℕ) :
    Replaces m (m.new x).2 l (l ++ [m.heap.fresh]) where
  agree := by
    intro a _ ha
    rw [List.mem_append, List.mem_singleton, not_or] at ha
    exact objects_new_of_ne ha.2 x
  fresh := by
    intro a ha
    rw [List.mem_append, List.mem_singleton] at ha
    rcases ha with hold | rfl
    · exact .inl hold
    · exact .inr m.objects_fresh
  freed _ ha hnot := absurd (List.mem_append_left _ ha) hnot

theorem objects_modify_of_ne (hab : b ≠ a) (f : A → A) : (m.modify a f).objects b = m.objects b :=
  Heap.objects_modify_of_ne hab f

theorem update_spec (h : m.objects a = some x) (f : A → A) (hmem : a ∈ l) :
    ∃ m', m.update (some a) f = some m' ∧ m'.objects a = some (f x) ∧
      (∀ b, b ≠ a → m'.objects b = m.objects b) ∧ Replaces m m' l l := by
  refine ⟨m.modify a f, ?_, ?_, fun b hb => objects_modify_of_ne hb f, ?_⟩
  · unfold update
    rw [Option.bind_eq_bind, Option.bind_some, h]
    rfl
  · exact (Heap.objects_modify_self _ _ _).trans (congrArg (Option.map f) h)
  · refine ⟨fun b hb _ => objects_modify_of_ne ?_ f, fun b hb => .inl hb,
      fun b hb hnot => absurd hb hnot⟩
    rintro rfl
    exact hb hmem

theorem delete_spec (h : m.objects a = some x) (l : List ℕ) :
    ∃ m', m.delete (some a) = some m' ∧ m'.deleted = m.deleted ++ [a] ∧
      (∀ b, b ≠ a → m'.objects b = m.objects b) ∧ Replaces m m' (a :: l) l := by
  have hlive : m.objects a ≠ none := by
    rw [h]
    exact Option.some_ne_none x
  have hother : ∀ b, b ≠ a → (m.free a hlive).objects b = m.objects b :=
    fun b hb => Heap.objects_free_of_ne hb
  refine ⟨m.free a hlive, dif_pos hlive, rfl, hother, ?_⟩
  constructor
  · intro b hb _
    exact hother b fun hba => hb (hba ▸ List.mem_cons_self)
  · intro b hb
    exact .inl (List.mem_cons_of_mem a hb)
  · intro b hb hbl
    obtain rfl := (List.mem_cons.mp hb).resolve_right hbl
    exact Heap.objects_free_self _ _

end Memory
end Foundation
