import CppTricks.Sutter.Stack
import Mathlib.Data.List.TakeDrop

/-! What the members of `Stack<T>` leave behind where they return and where they throw. -/
namespace CppTricks.Sutter
open Foundation

/-- Reads below `used` and writes below `size`. -/
def Access.Below (used size : ℕ) : Access → Prop
  | .read i => i < used
  | .write i => i < size

variable {T : Type}

/-- `w'` has the accesses of `w` and some more, all with the property. -/
def Added (P : Access → Prop) (w w' : World T) : Prop :=
  ∃ new, w'.accesses = w.accesses ++ new ∧ ∀ access ∈ new, P access

theorem Added.refl (P : Access → Prop) (w : World T) : Added P w w := ⟨[], by simp, by simp⟩

theorem Added.trans {P : Access → Prop} {w w₁ w₂ : World T} (h₁ : Added P w w₁)
    (h₂ : Added P w₁ w₂) : Added P w w₂ := by
  obtain ⟨new₁, heq₁, hnew₁⟩ := h₁
  obtain ⟨new₂, heq₂, hnew₂⟩ := h₂
  refine ⟨new₁ ++ new₂, by rw [heq₂, heq₁, List.append_assoc], ?_⟩
  intro access hmem
  cases List.mem_append.mp hmem with
  | inl h => exact hnew₁ access h
  | inr h => exact hnew₂ access h

theorem Added.one {P : Access → Prop} {w w' : World T} {access : Access}
    (heq : w'.accesses = w.accesses ++ [access]) (h : P access) : Added P w w' :=
  ⟨[access], heq, by simpa using h⟩

theorem Added.congr {P : Access → Prop} {w w₁ w₂ : World T} (h : Added P w w₁)
    (heq : w₂.accesses = w₁.accesses) : Added P w w₂ := by
  unfold Added
  rwa [heq]

namespace Stack

/-- The stack holds a live array of `vsize_` elements, of which it uses the first `vused_`. -/
structure Owns (s : Stack) (heap : Heap (List T)) (array : List T) : Prop where
  live : heap.objects s.v = some array
  length : array.length = s.vsize
  le : s.vused ≤ s.vsize

/-- Only the array of `this` has changed, or has been replaced by a new one and freed. -/
structure Moves (w w' : World T) : Prop where
  agree : w.heap.Agree w'.heap [w.this.v, w'.this.v]
  freed : w'.this.v ≠ w.this.v →
    w'.heap.objects w.this.v = none ∧ w.heap.objects w'.this.v = none

/-- The stack is as before, but for the place of its elements and what lies behind them. -/
structure Kept (array : List T) (w w' : World T) : Prop where
  vused : w'.this.vused = w.this.vused
  owns : ∃ array', w'.this.Owns w'.heap array' ∧
    array'.take w.this.vused = array.take w.this.vused
  moves : Moves w w'

structure Restored (w w' : World T) : Prop where
  this : w'.this = w.this
  agree : w.heap.Agree w'.heap []

/-- `w'` has one more array, at `a`. -/
structure Made (a : ℕ) (array : List T) (w w' : World T) : Prop where
  this : w'.this = w.this
  dead : w.heap.objects a = none
  live : w'.heap.objects a = some array
  agree : w.heap.Agree w'.heap [a]

/-- The step from `w` to `w'` was the assignment `a[i] = x`. -/
structure Assigned (a i : ℕ) (x : T) (w w' : World T) : Prop where
  this : w'.this = w.this
  objects : w'.heap.objects a = (w.heap.objects a).map fun array => array.set i x
  agree : w.heap.Agree w'.heap [a]
  accesses : w'.accesses = w.accesses ++ [.write i]

variable {env : Conduct T} {s : Counted (World T)} {w w₁ w₂ : World T} {a i n : ℕ} {x : T}
  {array : List T}

theorem Restored.refl (w : World T) : Restored w w := ⟨rfl, .refl _ _⟩

theorem Restored.kept (h : Restored w w₁) (howns : w.this.Owns w.heap array) :
    Kept array w w₁ where
  vused := by rw [h.this]
  owns := by
    refine ⟨array, ⟨?_, ?_, ?_⟩, rfl⟩
    · rw [h.this, h.agree _ List.not_mem_nil, howns.live]
    · rw [h.this, howns.length]
    · rw [h.this]
      exact howns.le
  moves := by
    refine ⟨h.agree.mono (List.nil_subset _), ?_⟩
    intro hne
    exact absurd (congrArg Stack.v h.this) hne

theorem Made.delete (h : Made a array w w₁) : Restored w (w₁.delete a) :=
  ⟨h.this, h.agree.free_of_dead h.dead⟩

theorem Made.assign (h : Made a array w w₁) (hassign : Assigned a i x w₁ w₂) :
    Made a (array.set i x) w w₂ where
  this := hassign.this.trans h.this
  dead := h.dead
  live := by rw [hassign.objects, h.live, Option.map_some]
  agree := h.agree.trans hassign.agree

/-! ### The members -/

theorem ends_read (a i : ℕ) (s : Counted (World T)) :
    Ends (read a i) s
      (fun x t => t.world = s.world.log (.read i) ∧
        (s.world.heap.objects a).bind (·[i]?) = some x)
      (fun e _ => e = .undefined ∧ (s.world.heap.objects a).bind (·[i]?) = none) := by
  apply Ends.update_bind
  apply Ends.world_bind
  cases hx : ((s.world.log (.read i)).heap.objects a).bind (·[i]?) with
  | some x => exact Ends.pure ⟨rfl, hx⟩
  | none => exact Ends.throw ⟨rfl, hx⟩

theorem ends_assignAt (env : Conduct T) (a i : ℕ) (x : T) (s : Counted (World T)) :
    Ends (assignAt env a i x) s (fun _ t => Assigned a i x s.world t.world)
      (fun e t => e = .thrown ∧ Assigned a i env.torn s.world t.world) := by
  have htorn : Assigned a i env.torn s.world ((s.world.log (.write i)).store a i env.torn) :=
    ⟨rfl, Heap.objects_modify_self _ _ _, .modify _ _ _, rfl⟩
  apply Ends.update_bind
  apply Ends.update_bind
  apply Ends.mayThrow_bind _ ⟨rfl, htorn⟩
  apply Ends.update
  refine ⟨rfl, ?_, htorn.agree.trans (.modify _ _ _), rfl⟩
  change (Heap.modify _ _ _).objects a = _
  rw [Heap.objects_modify_self, htorn.objects, Option.map_map]
  congr 1
  funext array
  exact List.set_set _

theorem ends_newArray (env : Conduct T) (n : ℕ) (s : Counted (World T)) :
    Ends (newArray env n) s
      (fun a t => Made a (List.replicate n env.default) s.world t.world ∧
        t.world.accesses = s.world.accesses)
      (fun e t => e = .thrown ∧ Restored s.world t.world ∧
        t.world.accesses = s.world.accesses) := by
  apply Ends.mayThrow_bind _ ⟨rfl, .refl _, rfl⟩
  apply Ends.world_bind
  let after := s.world.setHeap (s.world.heap.allocate (List.replicate n env.default)).2
  have hmade : Made s.world.heap.fresh (List.replicate n env.default) s.world after :=
    ⟨rfl, s.world.heap.objects_fresh, Heap.objects_allocate_self _ _, .allocate _ _⟩
  apply Ends.update_bind
  have hconstruct : Ends ((List.range n).forM fun _ => operation env) ⟨s.made + 1, after⟩
      (fun _ u => u.world = after) (fun e u => e = .thrown ∧ u.world = after) := by
    apply Ends.forM_range (I := fun _ (u : Counted (World T)) => u.world = after)
    · intro _ u _ hu
      exact Ends.mayThrow hu ⟨rfl, hu⟩
    · rfl
  apply Ends.bind (Q := fun _ u => u.world = after)
  · apply hconstruct.tryCatch
    intro e u hu
    apply Ends.update_bind
    apply Ends.throw
    rw [hu.2]
    exact ⟨hu.1, hmade.delete, rfl⟩
  · intro _ u hu
    apply Ends.pure
    rw [hu]
    exact ⟨hmade, rfl⟩

/-- Overwriting a list from the left, one more element. -/
private theorem set_overwritten {src init : List T} (hi : i < src.length)
    (hlen : src.length ≤ init.length) :
    (src.take i ++ init.drop i).set i src[i] = src.take (i + 1) ++ init.drop (i + 1) := by
  have htake : (src.take i).length = i := List.length_take_of_le (Nat.le_of_lt hi)
  rw [List.set_append_right i _ (Nat.le_of_eq htake), htake, Nat.sub_self,
    List.drop_eq_getElem_cons (by omega), List.set_cons_zero, List.take_succ_eq_append_getElem hi,
    List.append_assoc, List.singleton_append]

/-- The copy loop overwrites the front of the new array. -/
theorem ends_copy {src : ℕ} {source init : List T} (hsrc : w.heap.objects src = some source)
    (hn : source.length = n) (hlen : n ≤ init.length) (hmade : Made a init w s.world)
    (env : Conduct T) :
    Ends (copy env src n a) s
      (fun _ t => Made a (source ++ init.drop n) w t.world ∧
        Added (Access.Below n init.length) s.world t.world)
      (fun e t => e = .thrown ∧ (∃ array, Made a array w t.world) ∧
        Added (Access.Below n init.length) s.world t.world) := by
  subst hn
  have hloop := @Ends.forM_range Failure (Counted (World T)) s
    (fun e t => e = .thrown ∧ (∃ array, Made a array w t.world) ∧
      Added (Access.Below source.length init.length) s.world t.world)
    (fun i t => Made a (source.take i ++ init.drop i) w t.world ∧
      Added (Access.Below source.length init.length) s.world t.world)
    (fun i => do
      let x ← read src i
      assignAt env a i x)
    source.length ?_ ?_
  · rwa [List.take_length] at hloop
  · intro i t hi ht
    obtain ⟨hmade, hadded⟩ := ht
    have hne : src ≠ a := by
      intro heq
      rw [heq, hmade.dead] at hsrc
      cases hsrc
    have hvalue : (t.world.heap.objects src).bind (·[i]?) = some source[i] := by
      rw [hmade.agree src (by simpa using hne), hsrc, Option.bind_some,
        List.getElem?_eq_getElem hi]
    apply Ends.bind (Q := fun x u => x = source[i] ∧
        Made a (source.take i ++ init.drop i) w u.world ∧
        Added (Access.Below source.length init.length) s.world u.world)
    · apply (ends_read src i t).mono
      · intro x u hu
        rw [hvalue] at hu
        have hread : Access.Below source.length init.length (.read i) := hi
        refine ⟨(Option.some.inj hu.2).symm, ?_, hadded.trans (.one (by rw [hu.1]; rfl) hread)⟩
        rw [hu.1]
        exact ⟨hmade.this, hmade.dead, hmade.live, hmade.agree⟩
      · intro e u hu
        rw [hvalue] at hu
        cases hu.2
    · intro x u hu
      obtain ⟨rfl, hmade, hadded⟩ := hu
      have hwrite : Access.Below source.length init.length (.write i) := Nat.lt_of_lt_of_le hi hlen
      apply (ends_assignAt env a i source[i] u).mono
      · intro _ v hv
        have hstep := hmade.assign hv
        rw [set_overwritten hi hlen] at hstep
        exact ⟨hstep, hadded.trans (.one hv.accesses hwrite)⟩
      · intro e v hv
        exact ⟨hv.1, ⟨_, hmade.assign hv.2⟩, hadded.trans (.one hv.2.accesses hwrite)⟩
  · exact ⟨hmade, .refl _ _⟩

/-- A new array with the elements of the source in front; a failure leaves nothing behind. -/
theorem ends_newCopy {src destsize : ℕ} {source : List T}
    (hsrc : s.world.heap.objects src = some source) (hn : source.length = n) (hle : n ≤ destsize)
    (env : Conduct T) :
    Ends (newCopy env src n destsize) s
      (fun a t => (∃ array, Made a array s.world t.world ∧ array.length = destsize ∧
          array.take n = source) ∧ Added (Access.Below n destsize) s.world t.world)
      (fun e t => e = .thrown ∧ Restored s.world t.world ∧
        Added (Access.Below n destsize) s.world t.world) := by
  unfold newCopy
  rw [if_neg (Nat.not_lt.mpr hle)]
  have hnew : Ends (newArray env destsize) s
      (fun a t => Made a (List.replicate destsize env.default) s.world t.world ∧
        Added (Access.Below n destsize) s.world t.world)
      (fun e t => e = .thrown ∧ Restored s.world t.world ∧
        Added (Access.Below n destsize) s.world t.world) := by
    apply (ends_newArray env destsize s).mono
    · intro a t ht
      exact ⟨ht.1, (Added.refl _ _).congr ht.2⟩
    · intro e t ht
      exact ⟨ht.1, ht.2.1, (Added.refl _ _).congr ht.2.2⟩
  apply hnew.bind
  intro dest t ht
  have hcopy := ends_copy hsrc hn (by rwa [List.length_replicate]) ht.1 env
  rw [List.length_replicate] at hcopy
  have hcaught : Ends (tryCatch (copy env src n dest) fun e => do
      update (World.delete dest)
      throw e) t
      (fun _ u => (∃ array, Made dest array s.world u.world ∧ array.length = destsize ∧
          array.take n = source) ∧ Added (Access.Below n destsize) s.world u.world)
      (fun e u => e = .thrown ∧ Restored s.world u.world ∧
        Added (Access.Below n destsize) s.world u.world) := by
    apply (hcopy.mono _ fun _ _ h => h).tryCatch
    · intro e u hu
      obtain ⟨hthrown, ⟨array, hmade⟩, hadded⟩ := hu
      apply Ends.update_bind
      apply Ends.throw
      exact ⟨hthrown, hmade.delete, ht.2.trans (hadded.congr rfl)⟩
    · intro _ u hu
      refine ⟨⟨_, hu.1, ?_, ?_⟩, ht.2.trans hu.2⟩
      · rw [List.length_append, List.length_drop, List.length_replicate, hn]
        omega
      · rw [← hn]
        exact List.take_left
  apply hcaught.bind
  intro _ u hu
  exact Ends.pure hu

theorem Kept.assign (h : Kept array w w₁)
    (hassign : Assigned w₁.this.v w₁.this.vused x w₁ w₂) : Kept array w w₂ where
  vused := by rw [hassign.this, h.vused]
  owns := by
    obtain ⟨array', howns, htake⟩ := h.owns
    refine ⟨array'.set w₁.this.vused x, ⟨?_, ?_, ?_⟩, ?_⟩
    · rw [hassign.this, hassign.objects, howns.live, Option.map_some]
    · rw [List.length_set, hassign.this, howns.length]
    · rw [hassign.this]
      exact howns.le
    · rw [h.vused, List.take_set_of_le (Nat.le_refl _), htake]
  moves := by
    have hv : w₂.this.v = w₁.this.v := congrArg Stack.v hassign.this
    constructor
    · rw [hv]
      exact h.moves.agree.trans (hassign.agree.mono (by simp))
    · intro hne
      rw [hv] at hne ⊢
      obtain ⟨hfreed, hdead⟩ := h.moves.freed hne
      rw [hassign.agree _ (by simpa using hne.symm)]
      exact ⟨hfreed, hdead⟩

theorem Made.replace {array' : List T} (hmade : Made a array' w w₁)
    (howns : w.this.Owns w.heap array) {size used : ℕ} (hlen : array'.length = size)
    (hle : used ≤ size) (hw : w₂ = (w₁.delete w.this.v).setThis ⟨a, size, used⟩) :
    Moves w w₂ ∧ w₂.this.Owns w₂.heap array' := by
  subst hw
  have hne : a ≠ w.this.v := by
    intro heq
    have hlive := howns.live
    rw [← heq, hmade.dead] at hlive
    cases hlive
  have hself : ((w₁.delete w.this.v).setThis ⟨a, size, used⟩).heap.objects w.this.v = none :=
    Heap.objects_free_self _ _
  refine ⟨⟨?_, fun _ => ⟨hself, hmade.dead⟩⟩, ⟨?_, hlen, hle⟩⟩
  · exact (hmade.agree.mono (by simp [World.setThis])).trans
      ((Heap.Agree.free w₁.heap w.this.v).mono (by simp))
  · exact (Heap.objects_free_of_ne hne).trans hmade.live

variable {other : Stack} {source : List T}

theorem ends_grow (howns : s.world.this.Owns s.world.heap array) (env : Conduct T) :
    Ends (grow env) s
      (fun _ t => Kept array s.world t.world ∧ t.world.this.vused < t.world.this.vsize ∧
        Added (Access.Below s.world.this.vused t.world.this.vsize) s.world t.world)
      (fun e t => e = .thrown ∧ Kept array s.world t.world) := by
  apply Ends.world_bind
  by_cases hfull : s.world.this.vused = s.world.this.vsize
  · rw [if_pos hfull]
    have hcopy := ends_newCopy howns.live howns.length
      (show s.world.this.vsize ≤ s.world.this.vsize * 2 + 1 by omega) env
    apply (hcopy.mono (fun _ _ h => h) fun e u hu => ⟨hu.1, hu.2.1.kept howns⟩).bind
    intro vNew u hu
    obtain ⟨⟨array', hmade, hlen, htake⟩, hadded⟩ := hu
    apply Ends.update_bind
    apply Ends.update
    obtain ⟨hmoves, howns'⟩ := hmade.replace howns hlen
      (show s.world.this.vused ≤ s.world.this.vsize * 2 + 1 by omega) rfl
    refine ⟨⟨rfl, ⟨array', howns', ?_⟩, hmoves⟩, ?_, ?_⟩
    · rw [hfull, htake, ← howns.length, List.take_length]
    · change s.world.this.vused < s.world.this.vsize * 2 + 1
      omega
    · rw [hfull]
      exact hadded.congr rfl
  · rw [if_neg hfull]
    have hle := howns.le
    refine Ends.pure ⟨(Restored.refl s.world).kept howns, ?_, .refl _ _⟩
    omega

/-- `Push` appends its argument; where it throws, at most the room has grown. -/
theorem ends_push (howns : s.world.this.Owns s.world.heap array) (env : Conduct T) (x : T) :
    Ends (push env x) s
      (fun _ t => t.world.this.vused = s.world.this.vused + 1 ∧
        (∃ array', t.world.this.Owns t.world.heap array' ∧
          array'.take t.world.this.vused = array.take s.world.this.vused ++ [x]) ∧
        Moves s.world t.world ∧
        Added (Access.Below s.world.this.vused t.world.this.vsize) s.world t.world)
      (fun e t => e = .thrown ∧ Kept array s.world t.world) := by
  apply (ends_grow howns env).bind
  intro _ u hu
  obtain ⟨hkept, hlt, hadded⟩ := hu
  apply Ends.world_bind
  apply ((ends_assignAt env u.world.this.v u.world.this.vused x u).mono (fun _ _ h => h)
    fun e v hv => ⟨hv.1, hkept.assign hv.2⟩).bind
  intro _ v hv
  have hkept' := hkept.assign hv
  obtain ⟨array', howns', htake⟩ := hkept.owns
  have hlen := howns'.length
  apply Ends.update
  refine ⟨?_, ⟨array'.set u.world.this.vused x, ⟨?_, ?_, ?_⟩, ?_⟩, ⟨hkept'.moves.agree,
    hkept'.moves.freed⟩, ?_⟩
  · change u.world.this.vused + 1 = _
    rw [hkept.vused]
  · change v.world.heap.objects v.world.this.v = _
    rw [hv.this, hv.objects, howns'.live, Option.map_some]
  · change _ = v.world.this.vsize
    rw [List.length_set, hv.this, hlen]
  · change _ ≤ v.world.this.vsize
    rw [hv.this]
    exact hlt
  · change (array'.set u.world.this.vused x).take (u.world.this.vused + 1) = _
    have hset : u.world.this.vused < (array'.set u.world.this.vused x).length := by
      rw [List.length_set, hlen]
      exact hlt
    rw [List.take_succ_eq_append_getElem hset, List.getElem_set_self,
      List.take_set_of_le (Nat.le_refl _), hkept.vused, htake]
  · have hwrite : Access.Below s.world.this.vused v.world.this.vsize
        (.write u.world.this.vused) := by
      rw [hv.this]
      exact hlt
    rw [← hv.this] at hadded
    exact (hadded.trans (.one hv.accesses hwrite)).congr rfl

theorem ends_assign (howns : s.world.this.Owns s.world.heap array)
    (hother : other.Owns s.world.heap source) (env : Conduct T) (same : Bool) :
    Ends (assign env same other) s
      (fun _ t => if same then t = s else t.world.this.vused = other.vused ∧
        (∃ array', t.world.this.Owns t.world.heap array' ∧
          array'.take other.vused = source.take other.vused) ∧ Moves s.world t.world)
      (fun e t => e = .thrown ∧ Restored s.world t.world) := by
  unfold assign
  cases same with
  | true => exact Ends.pure rfl
  | false =>
    have hcopy := ends_newCopy hother.live hother.length (Nat.le_refl other.vsize) env
    apply (hcopy.mono (fun _ _ h => h) fun e u hu => ⟨hu.1, hu.2.1⟩).bind
    intro vNew u hu
    obtain ⟨array', hmade, hlen, htake⟩ := hu.1
    apply Ends.world_bind
    apply Ends.update_bind
    apply Ends.update
    obtain ⟨hmoves, howns'⟩ := hmade.replace howns hlen hother.le rfl
    rw [hmade.this]
    refine ⟨rfl, ⟨array', howns', ?_⟩, hmoves⟩
    rw [← htake, List.take_take, Nat.min_eq_left hother.le]

theorem ends_copyConstruct (hother : other.Owns s.world.heap source) (env : Conduct T) :
    Ends (copyConstruct env other) s
      (fun new t => new.vused = other.vused ∧ ∃ array', Made new.v array' s.world t.world ∧
        new.Owns t.world.heap array' ∧ array'.take other.vused = source.take other.vused)
      (fun e t => e = .thrown ∧ Restored s.world t.world) := by
  have hcopy := ends_newCopy hother.live hother.length (Nat.le_refl other.vsize) env
  apply (hcopy.mono (fun _ _ h => h) fun e u hu => ⟨hu.1, hu.2.1⟩).bind
  intro v u hu
  obtain ⟨array', hmade, hlen, htake⟩ := hu.1
  refine Ends.pure ⟨rfl, array', hmade, ⟨hmade.live, hlen, hother.le⟩, ?_⟩
  rw [← htake, List.take_take, Nat.min_eq_left hother.le]

/-- `v_[vused_]` is in the array unless the stack is full. -/
theorem Owns.read_vused {other : Stack} {heap : Heap (List T)} (h : other.Owns heap array) :
    (heap.objects other.v).bind (·[other.vused]?) = none ↔ other.vused = other.vsize := by
  have hle := h.le
  rw [h.live, Option.bind_some, List.getElem?_eq_none_iff, h.length]
  omega

/-- A stack that is not full, or that is empty. -/
theorem ends_popBetterBut (howns : s.world.this.Owns s.world.heap array)
    (hroom : s.world.this.vused = s.world.this.vsize → s.world.this.vused = 0) (env : Conduct T) :
    Ends (popBetterBut env) s (fun _ t => t.world.this.vused + 1 = s.world.this.vused)
      (fun e t => (e = .thrown ∨ e = .empty ∧ s.world.this.vused = 0) ∧
        Kept array s.world t.world) := by
  apply Ends.world_bind
  by_cases hempty : s.world.this.vused = 0
  · rw [if_pos hempty]
    exact Ends.throw ⟨.inr ⟨rfl, hempty⟩, (Restored.refl s.world).kept howns⟩
  · rw [if_neg hempty]
    have hread := ends_read s.world.this.v s.world.this.vused s
    apply (hread.mono (fun _ _ h => h.1) fun e u h =>
      absurd (hroom (howns.read_vused.mp h.2)) hempty).bind
    intro x u hu
    have hrestored : Restored s.world u.world := by
      rw [hu]
      exact ⟨rfl, .refl _ _⟩
    apply Ends.mayThrow_bind _ ⟨.inl rfl, hrestored.kept howns⟩
    apply Ends.update_bind
    apply Ends.pure
    change s.world.this.vused - 1 + 1 = s.world.this.vused
    omega

/-- On a full stack the read comes before anything can throw. -/
theorem ends_popBetterBut_full (howns : s.world.this.Owns s.world.heap array)
    (hfull : s.world.this.vused = s.world.this.vsize) (hne : s.world.this.vused ≠ 0)
    (env : Conduct T) :
    Ends (popBetterBut env) s (fun _ _ => False) (fun e _ => e = .undefined) := by
  apply Ends.world_bind
  rw [if_neg hne]
  have hread := ends_read s.world.this.v s.world.this.vused s
  have hnone := howns.read_vused.mpr hfull
  have hundefined : Ends (read s.world.this.v s.world.this.vused) s (fun _ _ => False)
      (fun e _ => e = .undefined) := by
    apply hread.mono
    · intro x u hu
      rw [hnone] at hu
      cases hu.2
    · intro e u hu
      exact hu.1
  apply hundefined.bind
  intro x u hu
  exact hu.elim

/-! ### The points where they throw -/

theorem propagates_read (a i : ℕ) :
    Propagates env.throws .thrown (read a i : Member T T) := by
  apply Propagates.update_bind
  apply Propagates.world_bind
  intro w
  split
  · exact .pure _
  · exact .throw (by decide)

theorem propagates_assignAt (a i : ℕ) (x : T) :
    Propagates env.throws .thrown (assignAt env a i x) := by
  apply Propagates.update_bind
  apply Propagates.update_bind
  apply Propagates.mayThrow_bind
  exact .update _

theorem propagates_newArray (n : ℕ) : Propagates env.throws .thrown (newArray env n) := by
  apply Propagates.mayThrow_bind
  apply Propagates.world_bind
  intro w
  apply Propagates.update_bind
  have hconstruct : Propagates env.throws .thrown
      ((List.range n).forM fun _ => operation env) :=
    .forM _ fun _ => .mayThrow
  apply hconstruct.tryCatch_throw.bind
  intro _
  exact .pure _

theorem propagates_newCopy (src srcsize destsize : ℕ) :
    Propagates env.throws .thrown (newCopy env src srcsize destsize) := by
  apply (Propagates.throw (by decide)).ite
  apply (propagates_newArray destsize).bind
  intro dest
  have hcopy : Propagates env.throws .thrown (copy env src srcsize dest) := by
    apply Propagates.forM
    intro i
    exact (propagates_read src i).bind fun x => propagates_assignAt dest i x
  apply hcopy.tryCatch_throw.bind
  intro _
  exact .pure _

theorem propagates_push (x : T) : Propagates env.throws .thrown (push env x) := by
  have hgrow : Propagates env.throws .thrown (grow env) := by
    apply Propagates.world_bind
    intro w
    apply Propagates.ite
    · apply (propagates_newCopy _ _ _).bind
      intro _
      apply Propagates.update_bind
      exact .update _
    · exact .pure _
  apply hgrow.bind
  intro _
  apply Propagates.world_bind
  intro w
  apply (propagates_assignAt _ _ x).bind
  intro _
  exact .update _

theorem propagates_assign (same : Bool) (other : Stack) :
    Propagates env.throws .thrown (assign env same other) := by
  apply (Propagates.pure _).ite
  apply (propagates_newCopy _ _ _).bind
  intro _
  apply Propagates.world_bind
  intro w
  apply Propagates.update_bind
  exact .update _

theorem propagates_copyConstruct (other : Stack) :
    Propagates env.throws .thrown (copyConstruct env other) := by
  apply (propagates_newCopy _ _ _).bind
  intro _
  exact .pure _

theorem propagates_popBetterBut : Propagates env.throws .thrown (popBetterBut env) := by
  apply Propagates.world_bind
  intro w
  apply (Propagates.throw (by decide)).ite
  apply (propagates_read _ _).bind
  intro _
  apply Propagates.mayThrow_bind
  apply Propagates.update_bind
  exact .pure _

/-! ### Failed operations -/

/-- The operations that may fail half-way. -/
inductive Op (T : Type) where
  | push (t : T)
  | assign (same : Bool) (other : Stack)
  | copyConstruct (other : Stack)
  | popBetterBut

namespace Op

def source? : Op T → Option Stack
  | .push _ => none
  | .assign _ other => some other
  | .copyConstruct other => some other
  | .popBetterBut => none

def run (env : Conduct T) : Op T → Member T Unit
  | .push t => Stack.push env t
  | .assign same other => Stack.assign env same other
  | .copyConstruct other => do
    let _ ← Stack.copyConstruct env other
    return ()
  | .popBetterBut => do
    let _ ← Stack.popBetterBut env
    return ()

theorem propagates_run (op : Op T) : Propagates env.throws .thrown (op.run env) := by
  cases op with
  | push t => exact propagates_push t
  | assign same other => exact propagates_assign same other
  | copyConstruct other => exact (propagates_copyConstruct other).bind fun _ => .pure _
  | popBetterBut => exact propagates_popBetterBut.bind fun _ => .pure _

end Op

theorem Kept.owns_other (h : Kept array w w₁) (hother : other.Owns w.heap source)
    (hne : other.v ≠ w.this.v) : other.Owns w₁.heap source := by
  have hne₁ : other.v ≠ w₁.this.v := by
    intro heq
    have hlive := hother.live
    rw [heq, (h.moves.freed (heq ▸ hne)).2] at hlive
    cases hlive
  exact ⟨by rw [h.moves.agree _ (by simp [hne, hne₁]), hother.live], hother.length, hother.le⟩

/-- An operation that returns has passed no point that throws. One that fails throws what `T` or
`new` has thrown, or else nothing has and the stack is empty; it leaves the stack with its elements
in an array of its own, frees what else it has allocated and leaves other stacks alone, the source
among them. -/
def Keeps (env : Conduct T) (op : Op T) (s : Counted (World T)) (array : List T) : Prop :=
  Ends (op.run env) s (fun _ t => Quiet env.throws s.made t.made)
    (fun e t => (e = .thrown ∨
        e = .empty ∧ s.world.this.vused = 0 ∧ Quiet env.throws s.made t.made) ∧
      Kept array s.world t.world ∧
      ∀ other source, other.Owns s.world.heap source →
        op.source? = some other ∨ other.v ≠ s.world.this.v → other.Owns t.world.heap source)

variable {op : Op T}

private theorem ends_run (env : Conduct T) (howns : s.world.this.Owns s.world.heap array)
    (hsource : ∀ other, op.source? = some other → ∃ source, other.Owns s.world.heap source)
    (hroom : op = .popBetterBut → s.world.this.vused = s.world.this.vsize →
      s.world.this.vused = 0) :
    Ends (op.run env) s (fun _ _ => True)
      (fun e t => (e = .thrown ∨ e = .empty ∧ s.world.this.vused = 0) ∧
        Kept array s.world t.world ∧ (op.source?.isSome → Restored s.world t.world)) := by
  cases op with
  | push t =>
    apply (ends_push howns env t).mono
    · intro _ _ _
      trivial
    · intro e u hu
      exact ⟨.inl hu.1, hu.2, fun h => absurd h (by simp [Op.source?])⟩
  | assign same other =>
    obtain ⟨source, hother⟩ := hsource other rfl
    apply (ends_assign howns hother env same).mono
    · intro _ _ _
      trivial
    · intro e u hu
      exact ⟨.inl hu.1, hu.2.kept howns, fun _ => hu.2⟩
  | copyConstruct other =>
    obtain ⟨source, hother⟩ := hsource other rfl
    apply ((ends_copyConstruct hother env).mono (fun _ _ h => h) fun e u hu =>
      ⟨.inl hu.1, hu.2.kept howns, fun _ => hu.2⟩).bind
    intro _ _ _
    exact Ends.pure trivial
  | popBetterBut =>
    apply ((ends_popBetterBut howns (hroom rfl) env).mono (fun _ _ h => h) fun e u hu =>
      ⟨hu.1, hu.2, fun h => absurd h (by simp [Op.source?])⟩).bind
    intro _ _ _
    exact Ends.pure trivial

/-- A full stack with the element 5, when the assignment of the pushed element throws. -/
private def pushing : Counted (World ℕ) := ⟨0, ⟨0, 1, 1⟩, (Heap.empty.allocate [5]).2, []⟩

private def filled : Counted (World ℕ) :=
  ⟨0, ⟨0, 10, 10⟩, (Heap.empty.allocate (List.replicate 10 5)).2, []⟩

end Stack
end CppTricks.Sutter
