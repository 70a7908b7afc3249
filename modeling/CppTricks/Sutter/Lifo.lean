import CppTricks.Foundation.Runs
import CppTricks.Sutter.StackSafety

/-! `Stack<T>` against a list with the most recent value last. -/
namespace CppTricks.Sutter
open Foundation

inductive Call (T : Type) where
  | push (t : T)
  | top
  | pop
  | popBetterBut
  | popNosafe
  | count

inductive Answer (T : Type) where
  | done
  | value (x : T)
  | count (n : ℕ)

variable {T : Type}

/-- What a stack answers; `none` is a pop, or a look at the top, without a value left. -/
def lifo (l : List T) : Call T → Option (Answer T × List T)
  | .push t => some (.done, l ++ [t])
  | .top => l.getLast?.map fun x => (.value x, l)
  | .pop => l.getLast?.map fun _ => (.done, l.dropLast)
  | .popBetterBut => l.getLast?.map fun x => (.value x, l.dropLast)
  | .popNosafe => l.getLast?.map fun x => (.value x, l.dropLast)
  | .count => some (.count l.length, l)

/-- An answer, the accesses to arrays it took, `vused_` before it and `vsize_` after it. -/
structure Reply (T : Type) where
  answer : Answer T
  accesses : List Access
  vused : ℕ
  vsize : ℕ

def Reply.InRange (r : Reply T) : Prop := ∀ access ∈ r.accesses, access.Below r.vused r.vsize

namespace Call

def Delivers : Call T → Prop
  | .top => True
  | .popBetterBut => True
  | .popNosafe => True
  | _ => False

def run (env : Conduct T) : Call T → Member T (Answer T)
  | .push t => do
    Stack.push env t
    return .done
  | .top => do
    let x ← Stack.top
    return .value x
  | .pop => do
    Stack.pop
    return .done
  | .popBetterBut => do
    let x ← Stack.popBetterBut env
    return .value x
  | .popNosafe => do
    let x ← Stack.popNosafe env
    return .value x
  | .count => do
    let n ← Stack.count
    return .count n

end Call

namespace Stack

/-- One call, with a record of its own accesses; `none` is an exception or undefined. -/
def call (env : Conduct T) (s : Counted (World T)) (c : Call T) :
    Option (Reply T × Counted (World T)) :=
  match c.run env ⟨s.made, { s.world with accesses := [] }⟩ with
  | .ok answer t => some (⟨answer, t.world.accesses, s.world.this.vused, t.world.this.vsize⟩, t)
  | .error _ _ => none

/-- `Stack<T> stack;` in an empty heap. -/
def start (env : Conduct T) : Option (Counted (World T)) :=
  match construct env ⟨0, ⟨⟨0, 0, 0⟩, .empty, []⟩⟩ with
  | .ok this t => some ⟨t.made, t.world.setThis this⟩
  | .error _ _ => none

variable {env : Conduct T} {s t : Counted (World T)} {c : Call T} {r : Reply T}
  {array l l' : List T} {answer : Answer T}

def Holds (s : Counted (World T)) (l : List T) : Prop :=
  ∃ array, s.world.this.Owns s.world.heap array ∧ array.take s.world.this.vused = l

/-- With the log cleared, a call adds what is in range. -/
private theorem inRange_of_added {used size : ℕ} {w w' : World T} (hw : w.accesses = [])
    (h : Added (Access.Below used size) w w') : ∀ access ∈ w'.accesses, access.Below used size := by
  obtain ⟨new, heq, hnew⟩ := h
  rw [heq, hw, List.nil_append]
  exact hnew

theorem call_of_ok {u : Counted (World T)}
    (h : c.run env ⟨s.made, { s.world with accesses := [] }⟩ = .ok answer u) :
    call env s c =
      some (⟨answer, u.world.accesses, s.world.this.vused, u.world.this.vsize⟩, u) := by
  unfold call
  rw [h]

/-! ### Calls that deliver nothing -/

theorem Holds.length (h : Holds s l) : l.length = s.world.this.vused := by
  obtain ⟨array, howns, rfl⟩ := h
  have hlen := howns.length
  have hle := howns.le
  rw [List.length_take]
  omega

theorem Holds.push (h : Holds s l) (hthrows : ∀ k, env.throws k = false) (x : T) :
    ∃ r t, call env s (.push x) = some (r, t) ∧ r.answer = .done ∧ r.InRange ∧
      Holds t (l ++ [x]) := by
  obtain ⟨array, howns, rfl⟩ := h
  let cleared : Counted (World T) := ⟨s.made, { s.world with accesses := [] }⟩
  have howns' : cleared.world.this.Owns cleared.world.heap array := howns
  obtain ⟨_, u, hrun, hvused, hholds, -, hadded⟩ :=
    (propagates_push x).returns hthrows (ends_push howns' env x)
  have hok : (Call.push x).run env cleared = .ok .done u := bind_of_ok hrun
  obtain ⟨array', howns'', htake⟩ := hholds
  exact ⟨_, u, call_of_ok hok, rfl, inRange_of_added rfl hadded, array', howns'', htake⟩

theorem Holds.pop (h : Holds s l) {x : T} (hlast : l.getLast? = some x) (env : Conduct T) :
    ∃ r t, call env s .pop = some (r, t) ∧ r.answer = .done ∧ r.InRange ∧
      Holds t l.dropLast := by
  have hlen := h.length
  have hpos : s.world.this.vused ≠ 0 := by
    intro hzero
    rw [hzero, List.length_eq_zero_iff] at hlen
    rw [hlen] at hlast
    cases hlast
  obtain ⟨array, howns, rfl⟩ := h
  let cleared : Counted (World T) := ⟨s.made, { s.world with accesses := [] }⟩
  have hok : Call.pop.run env cleared =
      .ok .done ⟨s.made, cleared.world.setVused (s.world.this.vused - 1)⟩ := by
    apply bind_of_ok
    change (if s.world.this.vused = 0 then throw .empty else
      update (World.setVused (s.world.this.vused - 1)) : Member T Unit) cleared = _
    rw [if_neg hpos]
    rfl
  refine ⟨_, _, call_of_ok hok, rfl, ?_, array, ⟨howns.live, howns.length, ?_⟩, ?_⟩
  · intro access hmem
    exact absurd hmem List.not_mem_nil
  · exact Nat.le_trans (Nat.sub_le _ 1) howns.le
  · rw [List.dropLast_eq_take, List.take_take, hlen]
    change array.take (s.world.this.vused - 1) = _
    rw [Nat.min_eq_left (Nat.sub_le _ 1)]

theorem Holds.count (h : Holds s l) (env : Conduct T) :
    ∃ r t, call env s .count = some (r, t) ∧ r.answer = .count l.length ∧ r.InRange ∧
      Holds t l := by
  rw [h.length]
  refine ⟨_, _, call_of_ok rfl, rfl, ?_, h⟩
  intro access hmem
  exact absurd hmem List.not_mem_nil

/-- A call that delivers nothing answers as the list does. -/
theorem Holds.call (h : Holds s l) (hthrows : ∀ k, env.throws k = false) (hc : ¬ c.Delivers)
    (hlifo : lifo l c = some (answer, l')) :
    ∃ r t, call env s c = some (r, t) ∧ r.answer = answer ∧ r.InRange ∧ Holds t l' := by
  cases c with
  | push x =>
    obtain ⟨rfl, rfl⟩ : .done = answer ∧ l ++ [x] = l' := by simpa [lifo] using hlifo
    exact h.push hthrows x
  | pop =>
    obtain ⟨x, hlast, heq⟩ := Option.map_eq_some_iff.mp hlifo
    obtain ⟨rfl, rfl⟩ : .done = answer ∧ l.dropLast = l' := by simpa using heq
    exact h.pop hlast env
  | count =>
    obtain ⟨rfl, rfl⟩ : .count l.length = answer ∧ l = l' := by simpa [lifo] using hlifo
    exact h.count env
  | top => exact absurd trivial hc
  | popBetterBut => exact absurd trivial hc
  | popNosafe => exact absurd trivial hc

/-! ### Calls that deliver an element -/

theorem ends_delivers (hc : c.Delivers) (env : Conduct T) (s : Counted (World T)) :
    Ends (c.run env) s (fun _ t => .read s.world.this.vused ∈ t.world.accesses)
      (fun _ _ => True) := by
  have hread : Ends (read s.world.this.v s.world.this.vused) s
      (fun _ t => .read s.world.this.vused ∈ t.world.accesses) (fun _ _ => True) := by
    apply (ends_read _ _ s).mono
    · intro _ t ht
      rw [ht.1]
      exact List.mem_append_right _ (List.mem_singleton_self _)
    · intro _ _ _
      trivial
  cases c with
  | push x => exact hc.elim
  | pop => exact hc.elim
  | count => exact hc.elim
  | top =>
    apply Ends.bind (Q := fun _ t => .read s.world.this.vused ∈ t.world.accesses)
    · apply Ends.world_bind
      split
      · exact Ends.throw trivial
      · exact hread
    · intro _ t ht
      exact Ends.pure ht
  | popBetterBut =>
    apply Ends.bind (Q := fun _ t => .read s.world.this.vused ∈ t.world.accesses)
    · apply Ends.world_bind
      split
      · exact Ends.throw trivial
      · apply hread.bind
        intro _ u hu
        apply Ends.mayThrow_bind _ trivial
        apply Ends.update_bind
        exact Ends.pure hu
    · intro _ t ht
      exact Ends.pure ht
  | popNosafe =>
    apply Ends.bind (Q := fun _ t => .read s.world.this.vused ∈ t.world.accesses)
    · apply Ends.world_bind
      split
      · exact Ends.throw trivial
      · apply hread.bind
        intro _ u hu
        apply Ends.mayThrow_bind _ trivial
        apply Ends.update_bind
        apply Ends.mayThrow_bind _ trivial
        exact Ends.pure hu
    · intro _ t ht
      exact Ends.pure ht

theorem not_inRange_of_delivers (hc : c.Delivers) (h : call env s c = some (r, t)) :
    ¬ r.InRange := by
  have hends := ends_delivers hc env ⟨s.made, { s.world with accesses := [] }⟩
  unfold call at h
  cases hrun : c.run env ⟨s.made, { s.world with accesses := [] }⟩ with
  | error e u =>
    rw [hrun] at h
    cases h
  | ok answer u =>
    rw [hrun] at h
    obtain ⟨rfl, -⟩ := Prod.mk.inj (Option.some.inj h)
    have hread := hends.ok hrun
    intro hrange
    exact Nat.lt_irrefl _ (hrange _ hread)

/-! ### Sequences of calls -/

theorem exists_start (hthrows : ∀ k, env.throws k = false) :
    ∃ s, start env = some s ∧ Holds s [] := by
  obtain ⟨a, t, hrun, hmade, -⟩ := (propagates_newArray 10).returns hthrows
    (ends_newArray env 10 ⟨0, ⟨⟨0, 0, 0⟩, .empty, []⟩⟩)
  have hok : construct env ⟨0, ⟨⟨0, 0, 0⟩, .empty, []⟩⟩ = .ok ⟨a, 10, 0⟩ t := bind_of_ok hrun
  refine ⟨_, by unfold start; rw [hok], List.replicate 10 env.default, ⟨hmade.live, ?_, ?_⟩, ?_⟩
  · exact List.length_replicate
  · exact Nat.zero_le 10
  · exact List.take_zero

/-- A sequence of calls that deliver nothing answers as the list does, with every access in
range. -/
theorem Holds.serve (h : Holds s l) (hthrows : ∀ k, env.throws k = false) {calls : List (Call T)}
    {answers : List (Answer T)} (hcalls : ∀ c ∈ calls, ¬ c.Delivers)
    (hlifo : Foundation.serve lifo l calls = some (answers, l')) :
    ∃ replies t, Foundation.serve (Stack.call env) s calls = some (replies, t) ∧
      replies.map Reply.answer = answers ∧ ∀ r ∈ replies, r.InRange := by
  induction calls generalizing s l answers with
  | nil =>
    obtain ⟨rfl, -⟩ : [] = answers ∧ l = l' := by simpa using hlifo
    exact ⟨[], s, rfl, rfl, by simp⟩
  | cons c calls ih =>
    obtain ⟨answer, l₁, answers', hone, hrest, rfl⟩ := serve_cons_eq_some hlifo
    obtain ⟨r, t, hcall, hanswer, hrange, hholds⟩ := h.call hthrows (hcalls c (by simp)) hone
    obtain ⟨replies, u, hserve, hanswers, hranges⟩ :=
      ih hholds (fun c hc => hcalls c (List.mem_cons_of_mem _ hc)) hrest
    refine ⟨r :: replies, u, ?_, ?_, ?_⟩
    · rw [serve_cons, hcall, Option.bind_some, hserve]
      rfl
    · rw [List.map_cons, hanswer, hanswers]
    · intro r' hmem
      cases List.mem_cons.mp hmem with
      | inl heq => exact heq ▸ hrange
      | inr hmem => exact hranges r' hmem

/-- Where nothing throws, a legal sequence of calls from the empty stack gets the answers of a list
and keeps its accesses in range exactly when no call in it delivers an element. -/
theorem serve_lifo_iff (default torn : T) (calls : List (Call T)) (answers : List (Answer T))
    (l : List T) (hlegal : serve lifo [] calls = some (answers, l)) :
    ∃ s, start ⟨fun _ => false, default, torn⟩ = some s ∧
      ((∃ replies t,
          serve (call ⟨fun _ => false, default, torn⟩) s calls = some (replies, t) ∧
          replies.map Reply.answer = answers ∧ ∀ r ∈ replies, r.InRange) ↔
        ∀ c ∈ calls, ¬ c.Delivers) := by
  obtain ⟨s, hstart, hholds⟩ := @exists_start T ⟨fun _ => false, default, torn⟩
    fun _ => rfl
  refine ⟨s, hstart, ?_⟩
  constructor
  · intro h c hc hdelivers
    obtain ⟨replies, t, hserve, -, hranges⟩ := h
    obtain ⟨s', r, t', hcall, hmem⟩ := exists_call_of_mem hserve hc
    exact not_inRange_of_delivers hdelivers hcall (hranges r hmem)
  · intro hcalls
    exact hholds.serve (fun _ => rfl) hcalls hlegal

theorem serve_lifo_iff_push :
    ∃ s, start (⟨fun _ => false, 0, 0⟩ : Conduct ℕ) = some s ∧
      ((∃ replies t, serve (call ⟨fun _ => false, 0, 0⟩) s [.push 5, .count] =
          some (replies, t) ∧ replies.map Reply.answer = [.done, .count 1] ∧
          ∀ r ∈ replies, r.InRange) ↔
        ∀ c ∈ ([.push 5, .count] : List (Call ℕ)), ¬ c.Delivers) :=
  serve_lifo_iff 0 0 [.push 5, .count] [.done, .count 1] [5] rfl

/-- After one push `Top` delivers what the array was made with. -/
theorem top_after_push_not_lifo :
    ¬ ∀ (calls : List (Call ℕ)) (answers : List (Answer ℕ)) (l : List ℕ),
      serve lifo [] calls = some (answers, l) → ∃ s replies t,
        start ⟨fun _ => false, 0, 0⟩ = some s ∧
        serve (call ⟨fun _ => false, 0, 0⟩) s calls = some (replies, t) ∧
        replies.map Reply.answer = answers := by
  intro h
  obtain ⟨s, replies, t, hstart, hserve, hanswers⟩ :=
    h [.push 5, .top] [.done, .value 5] [5] rfl
  obtain rfl := Option.some.inj hstart
  obtain ⟨rfl, -⟩ := Prod.mk.inj (Option.some.inj hserve)
  cases hanswers

end Stack
end CppTricks.Sutter
