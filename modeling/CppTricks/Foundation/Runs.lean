import Mathlib.Data.List.Induction
import Mathlib.Data.Option.Basic
import Mathlib.Order.Bounds.Basic

/-! Runs of machines that refuse some actions, and of objects that answer calls. -/
namespace Foundation

variable {S S' A C R : Type*}

section Run

variable {step : S → A → Option S}

/-- The state after a sequence of actions, each enabled when its turn comes. -/
def run (step : S → A → Option S) (s : S) (as : List A) : Option S := as.foldlM step s

@[simp] theorem run_nil (s : S) : run step s [] = some s := rfl

@[simp] theorem run_cons (s : S) (a : A) (as : List A) :
    run step s (a :: as) = (step s a).bind fun t => run step t as := by
  unfold run
  rw [List.foldlM_cons]
  rfl

theorem run_concat (s : S) (as : List A) (a : A) :
    run step s (as ++ [a]) = (run step s as).bind fun t => step t a := by
  unfold run
  rw [List.foldlM_append]
  simp

/-- What every step preserves, every run preserves. -/
theorem run_invariant {P : S → Prop} (hstep : ∀ s a t, P s → step s a = some t → P t)
    (as : List A) {s t : S} (hs : P s) (h : run step s as = some t) : P t := by
  induction as generalizing s with
  | nil =>
    obtain rfl : s = t := by simpa using h
    exact hs
  | cons a as ih =>
    rw [run_cons] at h
    cases hsa : step s a with
    | none =>
      rw [hsa] at h
      cases h
    | some s' =>
      rw [hsa] at h
      exact ih (hstep s a s' hs hsa) h

/-- Where every step is enabled and preserves a property, so is and does every run. -/
theorem exists_run_invariant {P : S → Prop} (hstep : ∀ s a, P s → ∃ t, step s a = some t ∧ P t)
    (as : List A) {s : S} (hs : P s) : ∃ t, run step s as = some t ∧ P t := by
  induction as generalizing s with
  | nil => exact ⟨s, rfl, hs⟩
  | cons a as ih =>
    obtain ⟨u, hu, hP⟩ := hstep s a hs
    obtain ⟨t, ht, hP'⟩ := ih hP
    exact ⟨t, by rw [run_cons, hu, Option.bind_some, ht], hP'⟩

theorem run_append (s : S) (as bs : List A) :
    run step s (as ++ bs) = (run step s as).bind fun t => run step t bs := by
  unfold run
  rw [List.foldlM_append]
  rfl

theorem run_prefix {s t : S} {p as : List A} (hp : p <+: as) (h : run step s as = some t) :
    ∃ u, run step s p = some u := by
  obtain ⟨q, rfl⟩ := hp
  unfold run at h ⊢
  rw [List.foldlM_append] at h
  obtain ⟨u, hu, -⟩ := Option.bind_eq_some_iff.mp h
  exact ⟨u, hu⟩

/-- Where a step keeps up with its specification exactly on good actions, a run keeps up exactly
when all its actions are good. -/
theorem run_simulates_iff {spec : S' → A → Option S'} {rel : S → S' → Prop} {good : S' → A → Prop}
    (hstep : ∀ s s' a t', rel s s' → good s' a → spec s' a = some t' →
      ∃ t, step s a = some t ∧ rel t t')
    (hgood : ∀ s s' a t, rel s s' → step s a = some t → good s' a) {s : S} {s' t' : S'}
    (hs : rel s s') (as : List A) (hlegal : run spec s' as = some t') :
    (∀ p u', p <+: as → run spec s' p = some u' → ∃ u, run step s p = some u ∧ rel u u') ↔
      ∀ p a u', p ++ [a] <+: as → run spec s' p = some u' → good u' a := by
  constructor
  · intro hruns p a u' hp hu'
    obtain ⟨u, hu, hrel⟩ := hruns p u' ((List.prefix_append p [a]).trans hp) hu'
    obtain ⟨w', hw'⟩ := run_prefix hp hlegal
    obtain ⟨w, hw, -⟩ := hruns (p ++ [a]) w' hp hw'
    rw [run_concat, hu, Option.bind_some] at hw
    exact hgood u u' a w hrel hw
  · intro hall p
    induction p using List.reverseRecOn with
    | nil =>
      intro u' _ hu'
      obtain rfl := Option.some.inj hu'
      exact ⟨s, rfl, hs⟩
    | append_singleton p a ih =>
      intro w' hp hw'
      rw [run_concat, Option.bind_eq_some_iff] at hw'
      obtain ⟨u', hu', hspec⟩ := hw'
      obtain ⟨u, hu, hrel⟩ := ih u' ((List.prefix_append p [a]).trans hp) hu'
      obtain ⟨w, hw, hrel'⟩ := hstep u u' a w' hrel (hall p a u' hp hu') hspec
      exact ⟨w, by rw [run_concat, hu, Option.bind_some, hw], hrel'⟩

end Run

section Serve

variable {call : S → C → Option (R × S)} {call' : S' → C → Option (R × S')} {rel : S → S' → Prop}

def serve (call : S → C → Option (R × S)) (s : S) : List C → Option (List R × S)
  | [] => some ([], s)
  | c :: cs => do
    let (r, s) ← call s c
    let (rs, s) ← serve call s cs
    return (r :: rs, s)

@[simp] theorem serve_nil (s : S) : serve call s [] = some ([], s) := rfl

theorem serve_cons (s : S) (c : C) (cs : List C) :
    serve call s (c :: cs) = (call s c).bind fun p =>
      (serve call p.2 cs).bind fun q => some (p.1 :: q.1, q.2) := rfl

theorem serve_cons_eq_some {s t : S} {c : C} {cs : List C} {rs : List R}
    (h : serve call s (c :: cs) = some (rs, t)) :
    ∃ r u rs', call s c = some (r, u) ∧ serve call u cs = some (rs', t) ∧ rs = r :: rs' := by
  rw [serve_cons, Option.bind_eq_some_iff] at h
  obtain ⟨⟨r, u⟩, hcall, h⟩ := h
  obtain ⟨⟨rs', t'⟩, hserve, h⟩ := Option.bind_eq_some_iff.mp h
  obtain ⟨rfl, rfl⟩ := Prod.mk.inj (Option.some.inj h)
  exact ⟨r, u, rs', hcall, hserve, rfl⟩

/-- Every call that is served is answered in some state. -/
theorem exists_call_of_mem {s t : S} {cs : List C} {rs : List R} {c : C}
    (h : serve call s cs = some (rs, t)) (hc : c ∈ cs) :
    ∃ s' r t', call s' c = some (r, t') ∧ r ∈ rs := by
  induction cs generalizing s rs with
  | nil => exact absurd hc List.not_mem_nil
  | cons c' cs ih =>
    obtain ⟨r', u, rs, hcall', hserve, rfl⟩ := serve_cons_eq_some h
    cases List.mem_cons.mp hc with
    | inl heq =>
      subst heq
      exact ⟨s, r', u, hcall', List.mem_cons_self⟩
    | inr hmem =>
      obtain ⟨s', r, t', hcall, hr⟩ := ih hserve hmem
      exact ⟨s', r, t', hcall, List.mem_cons_of_mem r' hr⟩

theorem serve_append_singleton {s t u : S} {cs : List C} {rs : List R} {c : C} {r : R}
    (h : serve call s cs = some (rs, t)) (hc : call t c = some (r, u)) :
    serve call s (cs ++ [c]) = some (rs ++ [r], u) := by
  induction cs generalizing s rs with
  | nil =>
    obtain ⟨rfl, rfl⟩ : [] = rs ∧ s = t := by simpa using h
    simp [serve_cons, hc]
  | cons c' cs ih =>
    obtain ⟨r', u', rs, hcall', hserve, rfl⟩ := serve_cons_eq_some h
    rw [List.cons_append, serve_cons, hcall', Option.bind_some, ih hserve]
    rfl

theorem serve_concat {s u : S} {cs : List C} {c : C} {rs : List R}
    (h : serve call s (cs ++ [c]) = some (rs, u)) :
    ∃ rs' r t, rs = rs' ++ [r] ∧ serve call s cs = some (rs', t) ∧ call t c = some (r, u) := by
  induction cs generalizing s rs with
  | nil =>
    obtain ⟨r, u', rs', hcall, hserve, rfl⟩ := serve_cons_eq_some h
    obtain ⟨rfl, rfl⟩ : [] = rs' ∧ u' = u := by simpa using hserve
    exact ⟨[], r, s, rfl, rfl, hcall⟩
  | cons c' cs ih =>
    obtain ⟨r', u', rs', hcall', hserve, rfl⟩ := serve_cons_eq_some h
    obtain ⟨rs, r, t, rfl, ht, hcall⟩ := ih hserve
    refine ⟨r' :: rs, r, t, rfl, ?_, hcall⟩
    rw [serve_cons, hcall', Option.bind_some, ht]
    rfl

/-- The object was in the state `t` before, between or after the calls. -/
def Passed (call : S → C → Option (R × S)) (s : S) (cs : List C) (t : S) : Prop :=
  ∃ p rs, p <+: cs ∧ serve call s p = some (rs, t)

theorem passed_nil {s t : S} : Passed call s [] t ↔ t = s := by
  constructor
  · intro h
    obtain ⟨p, rs, hp, hrun⟩ := h
    rw [List.prefix_nil.mp hp] at hrun
    obtain ⟨-, rfl⟩ : [] = rs ∧ s = t := by simpa using hrun
    rfl
  · intro h
    exact ⟨[], [], List.prefix_rfl, by rw [h, serve_nil]⟩

theorem passed_concat {s t u : S} {cs : List C} {c : C} {rs : List R}
    (hrun : serve call s (cs ++ [c]) = some (rs, u)) :
    Passed call s (cs ++ [c]) t ↔ Passed call s cs t ∨ t = u := by
  constructor
  · intro h
    obtain ⟨p, rs', hp, hserve⟩ := h
    rcases List.prefix_concat_iff.mp hp with hall | hpre
    · rw [hall, hrun] at hserve
      obtain ⟨-, rfl⟩ : rs = rs' ∧ u = t := by simpa using hserve
      exact Or.inr rfl
    · exact Or.inl ⟨p, rs', hpre, hserve⟩
  · intro h
    rcases h with ⟨p, rs', hp, hserve⟩ | rfl
    · exact ⟨p, rs', hp.trans (List.prefix_append cs [c]), hserve⟩
    · exact ⟨cs ++ [c], rs, List.prefix_rfl, hrun⟩

/-- `n` is the largest value that `size` had before, between or after the calls. -/
def Peak (call : S → C → Option (R × S)) (s : S) (cs : List C) (size : S → ℕ) (n : ℕ) : Prop :=
  IsGreatest {n | ∃ t, Passed call s cs t ∧ size t = n} n

theorem peak_nil (s : S) (size : S → ℕ) : Peak call s [] size (size s) := by
  constructor
  · exact ⟨s, passed_nil.mpr rfl, rfl⟩
  · intro n hn
    obtain ⟨t, ht, rfl⟩ := hn
    rw [passed_nil.mp ht]

theorem Peak.concat {s u : S} {cs : List C} {c : C} {rs : List R} {size : S → ℕ} {n : ℕ}
    (h : Peak call s cs size n) (hrun : serve call s (cs ++ [c]) = some (rs, u)) :
    Peak call s (cs ++ [c]) size (max n (size u)) := by
  constructor
  · rcases le_total (size u) n with hle | hle
    · obtain ⟨t, ht, htn⟩ := h.1
      exact ⟨t, (passed_concat hrun).mpr (Or.inl ht), by rw [htn, max_eq_left hle]⟩
    · exact ⟨u, (passed_concat hrun).mpr (Or.inr rfl), (max_eq_right hle).symm⟩
  · intro m hm
    obtain ⟨t, ht, rfl⟩ := hm
    rcases (passed_concat hrun).mp ht with hold | rfl
    · exact (h.2 ⟨t, hold, rfl⟩).trans (le_max_left n _)
    · exact le_max_right n _

/-- What every call preserves, of the record so far and the state, every record of calls has. -/
theorem serve_invariant {P : List (C × R) → S → Prop} {s t : S} (cs : List C) {rs : List R}
    (hcall : ∀ l s c r t, P l s → call s c = some (r, t) → P (l ++ [(c, r)]) t) (hs : P [] s)
    (h : serve call s cs = some (rs, t)) : P (cs.zip rs) t := by
  suffices hall : ∀ l, P l s → P (l ++ cs.zip rs) t from hall [] hs
  clear hs
  induction cs generalizing s rs with
  | nil =>
    obtain ⟨rfl, rfl⟩ : [] = rs ∧ s = t := by simpa using h
    intro l hl
    simpa using hl
  | cons c cs ih =>
    obtain ⟨r, u, rs, hserved, hserve, rfl⟩ := serve_cons_eq_some h
    intro l hl
    rw [List.zip_cons_cons, List.append_cons]
    exact ih hserve _ (hcall l s c r u hl hserved)

/-- Two outcomes that agree: both refused, or the same answer and related states. -/
def Agree (rel : S → S' → Prop) : Option (R × S) → Option (R × S') → Prop :=
  Option.Rel fun p p' => p.1 = p'.1 ∧ rel p.2 p'.2

/-- From related states every call has outcomes that agree. -/
def Simulates (rel : S → S' → Prop) (call : S → C → Option (R × S))
    (call' : S' → C → Option (R × S')) : Prop :=
  ∀ s s' c, rel s s' → Agree rel (call s c) (call' s' c)

namespace Agree

variable {o : Option (R × S)} {r : R} {s : S} {s' : S'}

theorem some (h : rel s s') : Agree rel (Option.some (r, s)) (Option.some (r, s')) :=
  Option.Rel.some ⟨rfl, h⟩

theorem of_eq_some (h : Agree rel o (Option.some (r, s'))) :
    ∃ s, o = Option.some (r, s) ∧ rel s s' := by
  cases h with
  | some hp =>
    obtain ⟨rfl, hrel⟩ := hp
    exact ⟨_, rfl, hrel⟩

theorem eq_some {o' : Option (R × S')} (h : Agree rel (Option.some (r, s)) o') :
    ∃ s', o' = Option.some (r, s') ∧ rel s s' := by
  cases h with
  | some hp =>
    obtain ⟨rfl, hrel⟩ := hp
    exact ⟨_, rfl, hrel⟩

theorem bind {T T' : Type*} {Q : Type*} {rel' : T → T' → Prop} {o' : Option (R × S')}
    {f : R × S → Option (Q × T)} {f' : R × S' → Option (Q × T')} (h : Agree rel o o')
    (hf : ∀ r s s', rel s s' → Agree rel' (f (r, s)) (f' (r, s'))) :
    Agree rel' (o.bind f) (o'.bind f') := by
  cases h with
  | none => exact Option.Rel.none
  | @some p p' hp =>
    obtain ⟨r, s⟩ := p
    obtain ⟨r', s'⟩ := p'
    obtain ⟨rfl, hrel⟩ := hp
    exact hf r s s' hrel

end Agree

/-- Objects that agree on every call agree on every sequence of calls. -/
theorem Simulates.serve (h : Simulates rel call call') (cs : List C) (s : S) (s' : S')
    (hs : rel s s') : Agree rel (serve call s cs) (Foundation.serve call' s' cs) := by
  induction cs generalizing s s' with
  | nil => exact Agree.some hs
  | cons c cs ih =>
    rw [serve_cons, serve_cons]
    apply (h s s' c hs).bind
    intro r t t' ht
    apply (ih t t' ht).bind
    intro rs u u' hu
    exact Agree.some hu

end Serve

end Foundation
