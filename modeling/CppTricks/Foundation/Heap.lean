import Mathlib.Data.Nat.Notation
import Mathlib.Logic.Function.Basic

/-! A heap of objects at addresses that are never given out twice. -/
namespace Foundation

variable {A : Type}

/-- What is live, by address; `fresh` is the next address. -/
structure Heap (A : Type) where
  objects : ℕ → Option A
  fresh : ℕ
  dead_of_fresh_le : ∀ a, fresh ≤ a → objects a = none

namespace Heap

def empty : Heap A := ⟨fun _ => none, 0, fun _ _ => rfl⟩

def allocate (h : Heap A) (x : A) : ℕ × Heap A :=
  (h.fresh,
    { objects := Function.update h.objects h.fresh (some x)
      fresh := h.fresh + 1
      dead_of_fresh_le := by
        intro a ha
        rw [Function.update_of_ne (by omega), h.dead_of_fresh_le a (by omega)] })

def free (h : Heap A) (a : ℕ) : Heap A where
  objects := Function.update h.objects a none
  fresh := h.fresh
  dead_of_fresh_le := by
    intro b hb
    by_cases hab : b = a
    · rw [hab, Function.update_self]
    · rw [Function.update_of_ne hab, h.dead_of_fresh_le b hb]

def modify (h : Heap A) (a : ℕ) (f : A → A) : Heap A where
  objects := Function.update h.objects a ((h.objects a).map f)
  fresh := h.fresh
  dead_of_fresh_le := by
    intro b hb
    by_cases hab : b = a
    · subst hab
      rw [Function.update_self, h.dead_of_fresh_le b hb, Option.map_none]
    · rw [Function.update_of_ne hab, h.dead_of_fresh_le b hb]

/-- The heaps have the same objects, but for those at the given addresses. -/
def Agree (h h' : Heap A) (except : List ℕ) : Prop :=
  ∀ a, a ∉ except → h'.objects a = h.objects a

variable {h h₁ h₂ : Heap A} {a b : ℕ} {x : A} {f : A → A} {l : List ℕ}

theorem objects_fresh (h : Heap A) : h.objects h.fresh = none :=
  h.dead_of_fresh_le h.fresh (Nat.le_refl _)

theorem ne_fresh (ha : h.objects a = some x) : a ≠ h.fresh := by
  intro heq
  rw [heq, h.objects_fresh] at ha
  cases ha

@[simp] theorem objects_allocate_self (h : Heap A) (x : A) :
    (h.allocate x).2.objects h.fresh = some x := Function.update_self _ _ _

theorem objects_allocate_of_ne (hb : b ≠ h.fresh) (x : A) :
    (h.allocate x).2.objects b = h.objects b := Function.update_of_ne hb _ _

@[simp] theorem objects_free_self (h : Heap A) (a : ℕ) : (h.free a).objects a = none :=
  Function.update_self _ _ _

theorem objects_free_of_ne (hab : b ≠ a) : (h.free a).objects b = h.objects b :=
  Function.update_of_ne hab _ _

@[simp] theorem objects_modify_self (h : Heap A) (a : ℕ) (f : A → A) :
    (h.modify a f).objects a = (h.objects a).map f := Function.update_self _ _ _

theorem objects_modify_of_ne (hab : b ≠ a) (f : A → A) :
    (h.modify a f).objects b = h.objects b := Function.update_of_ne hab _ _

namespace Agree

theorem refl (h : Heap A) (l : List ℕ) : Agree h h l := fun _ _ => rfl

theorem trans (h₁₂ : Agree h h₁ l) (h₂₃ : Agree h₁ h₂ l) : Agree h h₂ l :=
  fun a ha => (h₂₃ a ha).trans (h₁₂ a ha)

theorem mono {l' : List ℕ} (hagree : Agree h h₁ l) (hsub : l ⊆ l') : Agree h h₁ l' :=
  fun a ha => hagree a fun hmem => ha (hsub hmem)

theorem allocate (h : Heap A) (x : A) : Agree h (h.allocate x).2 [h.fresh] := by
  intro a ha
  exact objects_allocate_of_ne (by simpa using ha) x

theorem free (h : Heap A) (a : ℕ) : Agree h (h.free a) [a] := by
  intro b hb
  exact objects_free_of_ne (by simpa using hb)

theorem modify (h : Heap A) (a : ℕ) (f : A → A) : Agree h (h.modify a f) [a] := by
  intro b hb
  exact objects_modify_of_ne (by simpa using hb) f

/-- What is given out and taken back leaves the heap as it was. -/
theorem free_of_dead (hagree : Agree h h₁ [a]) (hdead : h.objects a = none) :
    Agree h (h₁.free a) [] := by
  intro b _
  by_cases hb : b = a
  · rw [hb, objects_free_self, hdead]
  · rw [objects_free_of_ne hb, hagree b (by simpa using hb)]

end Agree
end Heap
end Foundation
