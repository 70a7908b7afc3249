import Mathlib.Data.Finmap

/-! Stores of answers: what they hold stays right, and nothing they hold is lost. -/
namespace Foundation

variable {S K V : Type*}

/-- Looking an answer up, and adding one that is kept only where there is none yet. -/
structure Memo (S K V : Type*) where
  find : S → K → Option V
  add : S → K → V → S

namespace Memo

structure Lawful [DecidableEq K] (M : Memo S K V) : Prop where
  find_add : ∀ s k v j,
    M.find (M.add s k v) j = (M.find s j).or (if j = k then some v else none)

/-- Every answer in the store satisfies `P`. -/
def Sound (M : Memo S K V) (P : K → V → Prop) (s : S) : Prop :=
  ∀ k v, M.find s k = some v → P k v

/-- Every answer in `s` is in `t`. -/
def Extends (M : Memo S K V) (s t : S) : Prop :=
  ∀ k v, M.find s k = some v → M.find t k = some v

variable {M : Memo S K V} {P : K → V → Prop} {s t u : S} {k j : K} {v : V}

theorem Extends.refl (s : S) : M.Extends s s := fun _ _ h => h

theorem Extends.trans (h₁ : M.Extends s t) (h₂ : M.Extends t u) : M.Extends s u :=
  fun k v h => h₂ k v (h₁ k v h)

section Add

variable [DecidableEq K]

theorem Lawful.sound_add (hM : M.Lawful) (hs : M.Sound P s) (hv : P k v) :
    M.Sound P (M.add s k v) := by
  intro j u hj
  rw [hM.find_add, Option.or_eq_some_iff] at hj
  cases hj with
  | inl hold => exact hs j u hold
  | inr hnew =>
    by_cases hjk : j = k
    · rw [if_pos hjk] at hnew
      obtain rfl : v = u := Option.some.inj hnew.2
      rwa [hjk]
    · rw [if_neg hjk] at hnew
      cases hnew.2

theorem Lawful.extends_add (hM : M.Lawful) (s : S) (k : K) (v : V) : M.Extends s (M.add s k v) := by
  intro j u hj
  rw [hM.find_add, hj, Option.some_or]

end Add

/-- From a sound store the call returns an answer for `k`, and leaves a sound store that still has
what was there. -/
def Answers (M : Memo S K V) (P : K → V → Prop) (k : K) (call : S → Option (V × S)) : Prop :=
  ∀ s, M.Sound P s → ∃ v t, call s = some (v, t) ∧ P k v ∧ M.Sound P t ∧ M.Extends s t

theorem Answers.of_pure (hv : P k v) : M.Answers P k fun s => some (v, s) :=
  fun s hs => ⟨v, s, rfl, hv, hs, .refl s⟩

/-- Two calls one after the other, in either order. -/
def inOrder (firstFirst : Bool) (f g : S → Option (V × S)) (s : S) : Option (V × V × S) :=
  if firstFirst then do
    let (a, s) ← f s
    let (b, s) ← g s
    return (a, b, s)
  else do
    let (b, s) ← g s
    let (a, s) ← f s
    return (a, b, s)

theorem Answers.inOrder {f g : S → Option (V × S)} (hf : M.Answers P k f) (hg : M.Answers P j g)
    (firstFirst : Bool) (hs : M.Sound P s) :
    ∃ a b t, Memo.inOrder firstFirst f g s = some (a, b, t) ∧ P k a ∧ P j b ∧ M.Sound P t ∧
      M.Extends s t := by
  unfold Memo.inOrder
  cases firstFirst with
  | true =>
    obtain ⟨a, t, hrunf, ha, ht, hst⟩ := hf s hs
    obtain ⟨b, u, hrung, hb, hu, htu⟩ := hg t ht
    exact ⟨a, b, u, by simp [hrunf, hrung], ha, hb, hu, hst.trans htu⟩
  | false =>
    obtain ⟨b, t, hrung, hb, ht, hst⟩ := hg s hs
    obtain ⟨a, u, hrunf, ha, hu, htu⟩ := hf t ht
    exact ⟨a, b, u, by simp [hrunf, hrung], ha, hb, hu, hst.trans htu⟩

/-! ### Finite maps as stores -/

section Finmap

variable {α β γ : Type} [DecidableEq α] [DecidableEq β]

def insertNew (m : Finmap fun _ : α => γ) (k : α) (v : γ) : Finmap fun _ : α => γ :=
  if k ∈ m then m else m.insert k v

def flat (α γ : Type) [DecidableEq α] : Memo (Finmap fun _ : α => γ) α γ where
  find m k := m.lookup k
  add := insertNew

/-- A map of maps, keyed by two parts of the question one after the other. -/
def nested (outer : K → α) (inner : K → β) (γ : Type) :
    Memo (Finmap fun _ : α => Finmap fun _ : β => γ) K γ where
  find m k := (m.lookup (outer k)).bind fun row => row.lookup (inner k)
  add m k v :=
    let m := insertNew m (outer k) ∅
    let row := (m.lookup (outer k)).getD ∅
    m.insert (outer k) (insertNew row (inner k) v)

theorem lookup_insertNew (m : Finmap fun _ : α => γ) (k : α) (v : γ) (j : α) :
    (insertNew m k v).lookup j = (m.lookup j).or (if j = k then some v else none) := by
  unfold insertNew
  by_cases hj : j = k
  · subst hj
    by_cases hk : j ∈ m
    · obtain ⟨u, hu⟩ := Finmap.mem_iff.mp hk
      rw [if_pos hk, hu, Option.some_or]
    · rw [if_neg hk, Finmap.lookup_insert, Finmap.lookup_eq_none.mpr hk, Option.none_or, if_pos rfl]
  · rw [if_neg hj, Option.or_none]
    split
    · rfl
    · exact Finmap.lookup_insert_of_ne m hj

theorem flat_sound_empty (P : α → γ → Prop) : (flat α γ).Sound P ∅ := by
  intro k v h
  cases h

theorem nested_sound_empty (outer : K → α) (inner : K → β) (P : K → γ → Prop) :
    (nested outer inner γ).Sound P ∅ := by
  intro k v h
  cases h

theorem flat_lawful : (flat α γ).Lawful := ⟨lookup_insertNew⟩

theorem nested_lawful [DecidableEq K] {outer : K → α} {inner : K → β}
    (hinj : ∀ j k, outer j = outer k → inner j = inner k → j = k) :
    (nested outer inner γ).Lawful := by
  constructor
  intro m k v j
  have hrow : (insertNew m (outer k) ∅).lookup (outer k) = some ((m.lookup (outer k)).getD ∅) := by
    rw [lookup_insertNew, if_pos rfl]
    cases m.lookup (outer k) with
    | none => rfl
    | some row => rfl
  unfold nested
  simp only [hrow, Option.getD_some]
  by_cases hj : outer j = outer k
  · have hiff : inner j = inner k ↔ j = k := ⟨hinj j k hj, fun h => congrArg inner h⟩
    rw [hj, Finmap.lookup_insert, Option.bind_some, lookup_insertNew]
    simp only [hiff]
    cases m.lookup (outer k) with
    | none => rfl
    | some row => rfl
  · have hne : j ≠ k := fun h => hj (congrArg outer h)
    rw [Finmap.lookup_insert_of_ne _ hj, lookup_insertNew, if_neg hj, if_neg hne, Option.or_none,
      Option.or_none]

end Finmap

end Memo

end Foundation
