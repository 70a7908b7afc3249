import CppTricks.Foundation.Loops

/-! Programs over a state that may throw: what holds where they end, and numbered points at which
they throw. -/
namespace Foundation

variable {ε σ τ α β : Type}

/-- Started in `s`, the program returns into `Q` or throws into `E`. -/
def Ends (x : EStateM ε σ α) (s : σ) (Q : α → σ → Prop) (E : ε → σ → Prop) : Prop :=
  match x s with
  | .ok a t => Q a t
  | .error e t => E e t

section

variable {x : EStateM ε σ α} {f : α → EStateM ε σ β} {s t : σ} {a : α} {e : ε}

theorem bind_of_ok (hrun : x s = .ok a t) : (x >>= f) s = f a t := by
  change EStateM.bind x f s = f a t
  unfold EStateM.bind
  rw [hrun]

theorem bind_of_error (hrun : x s = .error e t) : (x >>= f) s = .error e t := by
  change EStateM.bind x f s = .error e t
  unfold EStateM.bind
  rw [hrun]

end

namespace Ends

variable {x : EStateM ε σ α} {f : α → EStateM ε σ β} {s t : σ} {Q Q' : α → σ → Prop}
  {R : β → σ → Prop} {E E' : ε → σ → Prop} {a : α} {e : ε}

theorem ok (h : Ends x s Q E) (hrun : x s = .ok a t) : Q a t := by
  unfold Ends at h
  rwa [hrun] at h

theorem error (h : Ends x s Q E) (hrun : x s = .error e t) : E e t := by
  unfold Ends at h
  rwa [hrun] at h

theorem of_ok (hrun : x s = .ok a t) (h : Q a t) : Ends x s Q E := by
  unfold Ends
  rwa [hrun]

theorem of_error (hrun : x s = .error e t) (h : E e t) : Ends x s Q E := by
  unfold Ends
  rwa [hrun]

theorem mono (h : Ends x s Q' E') (hQ : ∀ a t, Q' a t → Q a t) (hE : ∀ e t, E' e t → E e t) :
    Ends x s Q E := by
  cases hrun : x s with
  | ok a t => exact of_ok hrun (hQ a t (h.ok hrun))
  | error e t => exact of_error hrun (hE e t (h.error hrun))

theorem and (h : Ends x s Q E) (h' : Ends x s Q' E') :
    Ends x s (fun a t => Q a t ∧ Q' a t) (fun e t => E e t ∧ E' e t) := by
  cases hrun : x s with
  | ok a t => exact of_ok hrun ⟨h.ok hrun, h'.ok hrun⟩
  | error e t => exact of_error hrun ⟨h.error hrun, h'.error hrun⟩

theorem pure (h : Q a s) : Ends (pure a) s Q E := h

theorem throw (h : E e s) : Ends (throw e) s Q E := h

theorem bind (hx : Ends x s Q E) (hf : ∀ a t, Q a t → Ends (f a) t R E) :
    Ends (x >>= f) s R E := by
  cases hrun : x s with
  | ok a t =>
    unfold Ends
    rw [bind_of_ok hrun]
    exact hf a t (hx.ok hrun)
  | error e t => exact of_error (bind_of_error hrun) (hx.error hrun)

/-- What is thrown goes to the handler, in the state it was thrown in. -/
theorem tryCatch {handle : ε → EStateM ε σ α} (hx : Ends x s Q E')
    (hhandle : ∀ e t, E' e t → Ends (handle e) t Q E) : Ends (tryCatch x handle) s Q E := by
  cases hrun : x s with
  | ok a t =>
    have hok : (MonadExcept.tryCatch x handle) s = .ok a t := by
      change EStateM.tryCatch x handle s = .ok a t
      unfold EStateM.tryCatch
      rw [hrun]
    exact of_ok hok (hx.ok hrun)
  | error e t =>
    have hcaught : (MonadExcept.tryCatch x handle) s = handle e t := by
      change EStateM.tryCatch x handle s = handle e t
      unfold EStateM.tryCatch
      rw [hrun]
      rfl
    unfold Ends
    rw [hcaught]
    exact hhandle e t (hx.error hrun)

/-- A loop keeps what each step keeps, of the elements seen so far and the state. -/
theorem forM {I : List β → σ → Prop} {body : β → EStateM ε σ PUnit} (xs : List β)
    (hbody : ∀ done b t, done ++ [b] <+: xs → I done t →
      Ends (body b) t (fun _ t' => I (done ++ [b]) t') E)
    (hs : I [] s) : Ends (xs.forM body) s (fun _ t => I xs t) E := by
  suffices hrest : ∀ done rest, done ++ rest = xs → ∀ t, I done t →
      Ends (rest.forM body) t (fun _ t' => I xs t') E from hrest [] xs rfl s hs
  intro done rest
  induction rest generalizing done with
  | nil =>
    intro hsplit t ht
    rw [List.append_nil] at hsplit
    exact pure (hsplit ▸ ht)
  | cons b rest ih =>
    intro hsplit t ht
    have hsplit' : done ++ [b] ++ rest = xs := by rw [List.append_assoc, ← hsplit]; rfl
    apply bind (hbody done b t ⟨rest, hsplit'⟩ ht)
    intro _ t' ht'
    exact ih (done ++ [b]) hsplit' t' ht'

theorem forM_range {I : ℕ → σ → Prop} {body : ℕ → EStateM ε σ PUnit} (n : ℕ)
    (hbody : ∀ i t, i < n → I i t → Ends (body i) t (fun _ => I (i + 1)) E) (hs : I 0 s) :
    Ends ((List.range n).forM body) s (fun _ => I n) E := by
  have hloop : Ends ((List.range n).forM body) s (fun _ => I (List.range n).length) E := by
    apply forM (I := fun done => I done.length)
    · intro done i t hdone ht
      obtain ⟨rfl, hi⟩ := eq_length_of_prefix_range hdone
      rw [List.length_append, List.length_singleton]
      exact hbody done.length t hi ht
    · exact hs
  rwa [List.length_range] at hloop

end Ends

/-- The program ends in `t`, whether it returns or throws. -/
def Leaves (x : EStateM ε σ α) (s t : σ) : Prop := (∃ a, x s = .ok a t) ∨ ∃ e, x s = .error e t

theorem Ends.leaves {x : EStateM ε σ α} {s t : σ} {P : σ → Prop}
    (h : Ends x s (fun _ => P) (fun _ => P)) (ht : Leaves x s t) : P t := by
  cases ht with
  | inl hok => exact h.ok hok.choose_spec
  | inr herror => exact h.error herror.choose_spec

/-! ### Numbered points -/

structure Counted (τ : Type) where
  made : ℕ
  world : τ

/-- A point that throws `e` when `throws` says so of its number. -/
def mayThrow (throws : ℕ → Bool) (e : ε) : EStateM ε (Counted τ) Unit := fun s =>
  if throws s.made then .error e ⟨s.made + 1, s.world⟩ else .ok () ⟨s.made + 1, s.world⟩

def update (f : τ → τ) : EStateM ε (Counted τ) Unit := modify fun s => ⟨s.made, f s.world⟩

def world : EStateM ε (Counted τ) τ := do
  let s ← get
  return s.world

/-- None of the points from `m` on and before `n` throws. -/
def Quiet (throws : ℕ → Bool) (m n : ℕ) : Prop := ∀ k, m ≤ k → k < n → throws k = false

/-- The program throws `e` exactly when it has come to a point that throws. -/
def Propagates (throws : ℕ → Bool) (e : ε) (x : EStateM ε (Counted τ) α) : Prop :=
  ∀ s, Ends x s (fun _ t => s.made ≤ t.made ∧ Quiet throws s.made t.made)
    (fun e' t => s.made ≤ t.made ∧
      (e' = e → ∃ k, s.made ≤ k ∧ k < t.made ∧ throws k = true) ∧
      (e' ≠ e → Quiet throws s.made t.made))

variable {throws : ℕ → Bool} {e : ε} {m n k : ℕ}

theorem Quiet.refl (m : ℕ) : Quiet throws m m := fun k hm hk => by omega

theorem Quiet.trans (h₁ : Quiet throws m n) (h₂ : Quiet throws n k) : Quiet throws m k := by
  intro j hm hj
  by_cases hn : j < n
  · exact h₁ j hm hn
  · exact h₂ j (by omega) hj

theorem Ends.mayThrow {s : Counted τ} {Q : Unit → Counted τ → Prop} {E : ε → Counted τ → Prop}
    (hQ : Q () ⟨s.made + 1, s.world⟩) (hE : E e ⟨s.made + 1, s.world⟩) :
    Ends (mayThrow throws e) s Q E := by
  unfold Ends Foundation.mayThrow
  cases throws s.made with
  | true => exact hE
  | false => exact hQ

theorem Ends.update {s : Counted τ} {f : τ → τ} {Q : Unit → Counted τ → Prop}
    {E : ε → Counted τ → Prop} (h : Q () ⟨s.made, f s.world⟩) : Ends (update f) s Q E := h

theorem Ends.world {s : Counted τ} {Q : τ → Counted τ → Prop} {E : ε → Counted τ → Prop}
    (h : Q s.world s) : Ends world s Q E := h

section

variable {s : Counted τ} {R : β → Counted τ → Prop} {E : ε → Counted τ → Prop}

theorem Ends.world_bind {f : τ → EStateM ε (Counted τ) β} (h : Ends (f s.world) s R E) :
    Ends (Foundation.world >>= f) s R E := h

theorem Ends.update_bind {g : τ → τ} {f : Unit → EStateM ε (Counted τ) β}
    (h : Ends (f ()) ⟨s.made, g s.world⟩ R E) : Ends (Foundation.update g >>= f) s R E := h

theorem Ends.mayThrow_bind {f : Unit → EStateM ε (Counted τ) β}
    (hf : Ends (f ()) ⟨s.made + 1, s.world⟩ R E) (hE : E e ⟨s.made + 1, s.world⟩) :
    Ends (Foundation.mayThrow throws e >>= f) s R E := by
  apply Ends.bind (Q := fun _ t => t = ⟨s.made + 1, s.world⟩) (.mayThrow rfl hE)
  intro _ t ht
  rw [ht]
  exact hf

end

namespace Propagates

variable {x : EStateM ε (Counted τ) α} {f : α → EStateM ε (Counted τ) β}

theorem pure (a : α) : Propagates throws e (pure a : EStateM ε (Counted τ) α) := fun _ =>
  Ends.pure ⟨Nat.le_refl _, Quiet.refl _⟩

theorem throw {e' : ε} (hne : e' ≠ e) :
    Propagates throws e (throw e' : EStateM ε (Counted τ) α) := fun _ =>
  Ends.throw ⟨Nat.le_refl _, fun heq => absurd heq hne, fun _ => Quiet.refl _⟩

theorem update (f : τ → τ) : Propagates throws e (update f) := fun _ =>
  Ends.update ⟨Nat.le_refl _, Quiet.refl _⟩

theorem world : Propagates throws e (world : EStateM ε (Counted τ) τ) := fun _ =>
  Ends.world ⟨Nat.le_refl _, Quiet.refl _⟩

theorem mayThrow : Propagates throws e (mayThrow throws e : EStateM ε (Counted τ) Unit) := by
  intro s
  cases hpoint : throws s.made with
  | true =>
    have hrun : Foundation.mayThrow throws e s = .error e ⟨s.made + 1, s.world⟩ := if_pos hpoint
    exact .of_error hrun ⟨Nat.le_succ _, fun _ => ⟨s.made, Nat.le_refl _, Nat.lt_succ_self _,
      hpoint⟩, fun hne => absurd rfl hne⟩
  | false =>
    have hrun : Foundation.mayThrow throws e s = .ok () ⟨s.made + 1, s.world⟩ := by
      unfold Foundation.mayThrow
      rw [hpoint]
      rfl
    refine .of_ok hrun ⟨Nat.le_succ _, fun k hm hk => ?_⟩
    obtain rfl : k = s.made := Nat.le_antisymm (Nat.le_of_lt_succ hk) hm
    exact hpoint

theorem bind (hx : Propagates throws e x) (hf : ∀ a, Propagates throws e (f a)) :
    Propagates throws e (x >>= f) := by
  intro s
  cases hrun : x s with
  | ok a t =>
    have hxs := (hx s).ok hrun
    unfold Ends
    rw [bind_of_ok hrun]
    apply (hf a t).mono
    · intro b u h
      exact ⟨Nat.le_trans hxs.1 h.1, hxs.2.trans h.2⟩
    · intro e' u h
      refine ⟨Nat.le_trans hxs.1 h.1, ?_, fun hne => hxs.2.trans (h.2.2 hne)⟩
      intro heq
      obtain ⟨k, hk, hkt, hpoint⟩ := h.2.1 heq
      exact ⟨k, Nat.le_trans hxs.1 hk, hkt, hpoint⟩
  | error e' t => exact .of_error (bind_of_error hrun) ((hx s).error hrun)

theorem world_bind {g : τ → EStateM ε (Counted τ) β} (hg : ∀ w, Propagates throws e (g w)) :
    Propagates throws e (Foundation.world >>= g) := world.bind hg

theorem update_bind {clean : τ → τ} {g : Unit → EStateM ε (Counted τ) β}
    (hg : Propagates throws e (g ())) : Propagates throws e (Foundation.update clean >>= g) :=
  (update clean).bind fun _ => hg

theorem mayThrow_bind {g : Unit → EStateM ε (Counted τ) β} (hg : Propagates throws e (g ())) :
    Propagates throws e (Foundation.mayThrow throws e >>= g) := mayThrow.bind fun _ => hg

/-- A handler that cleans up and throws on what it has caught. -/
theorem tryCatch_throw {clean : τ → τ} (hx : Propagates throws e x) :
    Propagates throws e (tryCatch x fun e' => do
      Foundation.update clean
      MonadExcept.throw e') := by
  intro s
  apply (hx s).tryCatch
  intro e' t h
  exact h

theorem ite {p : Prop} [Decidable p] {y : EStateM ε (Counted τ) α} (hx : Propagates throws e x)
    (hy : Propagates throws e y) : Propagates throws e (if p then x else y) := by
  split
  · exact hx
  · exact hy

theorem forM (xs : List β) {body : β → EStateM ε (Counted τ) PUnit}
    (hbody : ∀ b, Propagates throws e (body b)) : Propagates throws e (xs.forM body) := by
  induction xs with
  | nil => exact pure _
  | cons b rest ih => exact (hbody b).bind fun _ => ih

/-- Where no point throws, a program that could only throw `e` returns. -/
theorem returns {s : Counted τ} {Q : α → Counted τ → Prop} {E : ε → Counted τ → Prop}
    (hx : Propagates throws e x) (hthrows : ∀ k, throws k = false)
    (h : Ends x s Q fun e' t => e' = e ∧ E e' t) : ∃ a t, x s = .ok a t ∧ Q a t := by
  cases hrun : x s with
  | ok a t => exact ⟨a, t, rfl, h.ok hrun⟩
  | error e' t =>
    obtain ⟨k, -, -, hpoint⟩ := ((hx s).error hrun).2.1 (h.error hrun).1
    rw [hthrows k] at hpoint
    cases hpoint

end Propagates
end Foundation
