import CppTricks.Foundation.Runs
import CppTricks.Sutter.StackInh

/-! Programs over any number of `StackInh<T>`, which may copy and assign them. -/
namespace CppTricks.Sutter
open Foundation

namespace StackInh

variable {T : Type}

open StackImpl

inductive Command (T : Type) where
  | construct (size : ℕ)
  | copy (i : ℕ)
  | assign (i j : ℕ)
  | push (i : ℕ) (t : T)

structure Machine (T : Type) where
  vars : List StackImpl
  heap : Buffers T

def Machine.start : Machine T := ⟨[], .empty⟩

def step (depth : ℕ) (m : Machine T) : Command T → Option (Machine T)
  | .construct size =>
    let made := create size m.heap
    some ⟨m.vars ++ [made.1], made.2⟩
  | .copy i => do
    let other ← m.vars[i]?
    let (new, heap) ← copyConstruct other m.heap
    return ⟨m.vars ++ [new], heap⟩
  | .assign i j => do
    let this ← m.vars[i]?
    let other ← m.vars[j]?
    let (this, heap) ← assign this other m.heap
    return ⟨m.vars.set i this, heap⟩
  | .push i t => do
    let this ← m.vars[i]?
    let (this, heap) ← push depth this t m.heap
    return ⟨m.vars.set i this, heap⟩

/-- The same program over the values of the stacks; `none` is a stack that is not there. -/
def stepValues (vs : List (List T)) : Command T → Option (List (List T))
  | .construct _ => some (vs ++ [[]])
  | .copy i => do
    let other ← vs[i]?
    return vs ++ [other]
  | .assign i j => do
    let _ ← vs[i]?
    let other ← vs[j]?
    return vs.set i other
  | .push i t => do
    let this ← vs[i]?
    return vs.set i (this ++ [t])

/-- The copied and the assigned stacks have no elements, where they are there at all. -/
def SourceEmpty (vs : List (List T)) : Command T → Prop
  | .copy i => ∀ l, vs[i]? = some l → l = []
  | .assign _ j => ∀ l, vs[j]? = some l → l = []
  | _ => True

structure Machine.Represents (m : Machine T) (vs : List (List T)) : Prop where
  length : m.vars.length = vs.length
  holds : ∀ (i : ℕ) (s : StackImpl) (l : List T), m.vars[i]? = some s → vs[i]? = some l →
    s.Represents m.heap l
  apart : ∀ (i j : ℕ) (s s' : StackImpl) (a : ℕ), i ≠ j → m.vars[i]? = some s →
    m.vars[j]? = some s' → s.v = some a → s'.v ≠ some a

private theorem getElem?_concat {A : Type} {xs : List A} {x y : A} {i : ℕ}
    (h : (xs ++ [x])[i]? = some y) : xs[i]? = some y ∨ i = xs.length ∧ x = y := by
  by_cases hi : i < xs.length
  · rw [List.getElem?_append_left hi] at h
    exact .inl h
  · obtain ⟨hlt, -⟩ := List.getElem?_eq_some_iff.mp h
    rw [List.length_append, List.length_singleton] at hlt
    obtain rfl : i = xs.length := by omega
    rw [List.getElem?_concat_length] at h
    exact .inr ⟨rfl, Option.some.inj h⟩

private theorem getElem?_set {A : Type} {xs : List A} {x y : A} {i j : ℕ}
    (h : (xs.set i x)[j]? = some y) : i ≠ j ∧ xs[j]? = some y ∨ i = j ∧ x = y := by
  by_cases hij : i = j
  · subst hij
    have hi := (List.getElem?_eq_some_iff.mp h).1
    rw [List.length_set] at hi
    rw [List.getElem?_set_self hi] at h
    exact .inr ⟨rfl, Option.some.inj h⟩
  · rw [List.getElem?_set_ne hij] at h
    exact .inl ⟨hij, h⟩

variable {m m' : Machine T} {vs vs' : List (List T)} {l : List T} {h' : Buffers T} {i depth : ℕ}
  {s s' : StackImpl} {c : Command T}

namespace Machine.Represents

theorem exists_var (hm : m.Represents vs) (hl : vs[i]? = some l) :
    ∃ s, m.vars[i]? = some s ∧ s.Represents m.heap l := by
  have hi : i < m.vars.length := by
    rw [hm.length]
    exact (List.getElem?_eq_some_iff.mp hl).1
  have hs : m.vars[i]? = some m.vars[i] := List.getElem?_eq_getElem hi
  exact ⟨m.vars[i], hs, hm.holds i m.vars[i] l hs hl⟩

theorem live (hm : m.Represents vs) {a : ℕ} (hs : m.vars[i]? = some s) (ha : s.v = some a) :
    m.heap.objects a ≠ none := by
  have hi : i < vs.length := by
    rw [← hm.length]
    exact (List.getElem?_eq_some_iff.mp hs).1
  exact (hm.holds i s vs[i] hs (List.getElem?_eq_getElem hi)).live ha

theorem append (hm : m.Represents vs) (hs : s.Represents h' l)
    (hrenews : Renews m.heap h' none s.v) :
    Machine.Represents ⟨m.vars ++ [s], h'⟩ (vs ++ [l]) where
  length := by simp [hm.length]
  holds := by
    intro i t k ht hk
    have hlength := hm.length
    cases getElem?_concat ht with
    | inl ht =>
      have hi : i < m.vars.length := (List.getElem?_eq_some_iff.mp ht).1
      rw [List.getElem?_append_left (by omega)] at hk
      exact (hm.holds i t k ht hk).of_renews hrenews fun _ _ => nofun
    | inr hlast =>
      obtain ⟨rfl, rfl⟩ := hlast
      rw [hlength, List.getElem?_concat_length] at hk
      exact Option.some.inj hk ▸ hs
  apart := by
    -- a buffer of the new stack was not live, and those of the others were
    have hnew : ∀ (j : ℕ) (t : StackImpl) (a : ℕ), m.vars[j]? = some t → t.v = some a →
        s.v ≠ some a := by
      intro j t a ht ha hsa
      exact hm.live ht ha (hrenews.dead hsa)
    intro i j t t' a hij ht ht' ha ha'
    cases getElem?_concat ht with
    | inl hold =>
      cases getElem?_concat ht' with
      | inl hold' => exact hm.apart i j t t' a hij hold hold' ha ha'
      | inr hlast' => exact hnew i t a hold ha (hlast'.2 ▸ ha')
    | inr hlast =>
      cases getElem?_concat ht' with
      | inl hold' => exact hnew j t' a hold' ha' (hlast.2 ▸ ha)
      | inr hlast' => exact hij (hlast.1.trans hlast'.1.symm)

theorem set (hm : m.Represents vs) (hi : m.vars[i]? = some s) (hs : s'.Represents h' l)
    (hrenews : Renews m.heap h' s.v s'.v) :
    Machine.Represents ⟨m.vars.set i s', h'⟩ (vs.set i l) where
  length := by simp [hm.length]
  holds := by
    intro j t k ht hk
    cases getElem?_set ht with
    | inl hold =>
      obtain ⟨hij, ht⟩ := hold
      rw [List.getElem?_set_ne hij] at hk
      apply (hm.holds j t k ht hk).of_renews hrenews
      intro a ha
      exact hm.apart j i t s a (Ne.symm hij) ht hi ha
    | inr hnew =>
      obtain ⟨rfl, rfl⟩ := hnew
      rw [List.getElem?_set_self (hm.length ▸ (List.getElem?_eq_some_iff.mp hi).1)] at hk
      exact Option.some.inj hk ▸ hs
  apart := by
    have hnew : ∀ (j : ℕ) (t : StackImpl) (a : ℕ), i ≠ j → m.vars[j]? = some t → t.v = some a →
        s'.v ≠ some a := by
      intro j t a hij ht ha hsa
      cases hrenews.owned a hsa with
      | inl hold => exact hm.apart j i t s a (Ne.symm hij) ht hi ha hold
      | inr hdead => exact hm.live ht ha hdead
    intro j k t t' a hjk ht ht' ha ha'
    cases getElem?_set ht with
    | inl hold =>
      cases getElem?_set ht' with
      | inl hold' => exact hm.apart j k t t' a hjk hold.2 hold'.2 ha ha'
      | inr hset' => exact hnew j t a hold.1 hold.2 ha (hset'.2 ▸ ha')
    | inr hset =>
      cases getElem?_set ht' with
      | inl hold' => exact hnew k t' a hold'.1 hold'.2 ha' (hset.2 ▸ ha)
      | inr hset' => exact hjk (hset.1.symm.trans hset'.1)

end Machine.Represents

theorem step_represents (hm : m.Represents vs) (hempty : SourceEmpty vs c)
    (hstep : stepValues vs c = some vs') (depth : ℕ) :
    ∃ m', step (depth + 1) m c = some m' ∧ m'.Represents vs' := by
  cases c with
  | construct size =>
    obtain rfl := Option.some.inj hstep
    obtain ⟨hrep, -, hrenews⟩ := create_represents size m.heap
    exact ⟨_, rfl, hm.append hrep hrenews⟩
  | copy i =>
    obtain ⟨l, hl, hvs⟩ := Option.bind_eq_some_iff.mp hstep
    obtain rfl := Option.some.inj hvs
    obtain rfl := hempty l hl
    obtain ⟨s, hs, hsrep⟩ := hm.exists_var hl
    obtain ⟨hrep, -, hrenews⟩ := create_represents 0 m.heap
    refine ⟨_, ?_, hm.append hrep hrenews⟩
    simp [step, hs, copyConstruct_of_empty hsrep.vused]
  | assign i j =>
    obtain ⟨k, hk, hstep⟩ := Option.bind_eq_some_iff.mp hstep
    obtain ⟨l, hl, hvs⟩ := Option.bind_eq_some_iff.mp hstep
    obtain rfl := Option.some.inj hvs
    obtain rfl := hempty l hl
    obtain ⟨s, hs, hsrep⟩ := hm.exists_var hk
    obtain ⟨other, hother, horep⟩ := hm.exists_var hl
    obtain ⟨s', h', hassign, hrep, hrenews⟩ := assign_of_empty hsrep horep.vused
    refine ⟨_, ?_, hm.set hs hrep hrenews⟩
    simp [step, hs, hother, hassign]
  | push i t =>
    obtain ⟨l, hl, hvs⟩ := Option.bind_eq_some_iff.mp hstep
    obtain rfl := Option.some.inj hvs
    obtain ⟨s, hs, hsrep⟩ := hm.exists_var hl
    obtain ⟨s', h', hpush, hrep, hrenews⟩ := push_represents hsrep depth t
    refine ⟨_, ?_, hm.set hs hrep hrenews⟩
    simp [step, hs, hpush]

theorem sourceEmpty_of_step (hm : m.Represents vs) (hstep : step depth m c = some m') :
    SourceEmpty vs c := by
  cases c with
  | construct size => trivial
  | copy i =>
    intro l hl
    obtain ⟨other, hother, hrep⟩ := hm.exists_var hl
    by_contra hne
    simp [step, hother, copyConstruct_of_ne (hrep.vused_ne_zero hne)] at hstep
  | assign i j =>
    intro l hl
    obtain ⟨other, hother, hrep⟩ := hm.exists_var hl
    by_contra hne
    simp [step, hother, assign_of_ne (hrep.vused_ne_zero hne)] at hstep
  | push i t => trivial

/-- Every stack has its value all along, with every element constructed inside its buffer and at
most one reallocation at a time, exactly when only empty stacks are copied and assigned. -/
theorem run_represents_iff (depth : ℕ) (cs : List (Command T)) {vs : List (List T)}
    (hlegal : run stepValues [] cs = some vs) :
    (∀ p ws, p <+: cs → run stepValues [] p = some ws →
      ∃ m, run (step (depth + 1)) Machine.start p = some m ∧ m.Represents ws) ↔
    ∀ p c ws, p ++ [c] <+: cs → run stepValues [] p = some ws → SourceEmpty ws c := by
  have hstart : (Machine.start : Machine T).Represents [] := ⟨rfl, nofun, nofun⟩
  apply run_simulates_iff _ _ hstart cs hlegal
  · intro m ws c ws' hm hempty hstep
    exact step_represents hm hempty hstep depth
  · intro m ws c m' hm hstep
    exact sourceEmpty_of_step hm hstep

theorem run_represents_iff_stackFirst :
    ∃ m, run (step 1) Machine.start [.construct 10, .copy 0, .push 1 9] = some m ∧
      m.Represents [[], [9]] := by
  have hlegal : run stepValues [] [.construct 10, .copy 0, .push 1 9] = some [[], [9]] := rfl
  apply (run_represents_iff 0 [.construct 10, .copy 0, .push 1 9] hlegal).mpr _ _ _
    List.prefix_rfl hlegal
  intro p c ws hp hws
  cases c with
  | construct size => trivial
  | push i t => trivial
  | copy i =>
    -- only one stack is there by then, with nothing in it
    obtain ⟨rfl, rfl⟩ : p = [.construct 10] ∧ i = 0 := by
      match p with
      | [x] => simpa using hp
      | [_, _] => simp at hp
      | _ :: _ :: _ :: _ => simp at hp
    obtain rfl := Option.some.inj hws
    exact fun l hl => (Option.some.inj hl).symm
  | assign i j =>
    have hmem := hp.subset (List.mem_append_right p (List.mem_singleton.mpr rfl))
    simp at hmem

/-- The element is constructed at index 0 of a stack without a buffer. -/
theorem stackFirst_fails :
    run stepValues [] [.construct 10, .copy 0, .push 1 9, .assign 0 1] = some [[9], [9]] ∧
      ∃ m, run (step 1) Machine.start [.construct 10, .copy 0, .push 1 9] = some m ∧
        ∀ depth, step depth m (.assign 0 1) = none :=
  ⟨rfl, _, rfl, fun _ => rfl⟩

end StackInh
end CppTricks.Sutter
