import Mathlib.Data.List.Basic
import Mathlib.Data.List.Induction

/-! Rules for loops that may fail, and for loops that fill an array. -/
namespace Foundation

variable {A σ β : Type}

/-- A loop over indices that reads a row at each is a loop over the rows. -/
theorem foldlM_getElem? (rows : List A) (f : σ → A → Option σ) (k m : ℕ) (h : k + m = rows.length)
    (st : σ) :
    (List.range' k m).foldlM (fun st i => rows[i]?.bind (f st)) st = (rows.drop k).foldlM f st := by
  induction m generalizing k st with
  | zero => rw [List.range'_zero, List.drop_eq_nil_of_le (by omega)]; rfl
  | succ m ih =>
    have hk : k < rows.length := by omega
    rw [List.range'_succ, List.drop_eq_getElem_cons hk, List.foldlM_cons, List.foldlM_cons,
      List.getElem?_eq_getElem hk, Option.bind_some]
    refine congrArg (f st rows[k] >>= ·) (funext fun st' => ?_)
    exact ih (k + 1) (by omega) st'

/-- A loop whose steps go through and preserve a property of the elements seen so far. -/
theorem foldlM_pure {m : Type → Type} [Monad m] [LawfulMonad m] {f : σ → β → m σ}
    {P : List β → σ → Prop} (xs : List β)
    (hstep : ∀ t x st, t ++ [x] <+: xs → P t st → ∃ st', f st x = pure st' ∧ P (t ++ [x]) st')
    (st : σ) (hst : P [] st) : ∃ st', xs.foldlM f st = pure st' ∧ P xs st' := by
  induction xs using List.reverseRecOn with
  | nil => exact ⟨st, rfl, hst⟩
  | append_singleton xs x ih =>
    obtain ⟨st₁, hrun, hP⟩ := ih fun t y st' ht =>
      hstep t y st' (ht.trans (List.prefix_append xs [x]))
    obtain ⟨st₂, hlast, hP₂⟩ := hstep xs x st₁ List.prefix_rfl hP
    exact ⟨st₂, by simp [hrun, hlast], hP₂⟩

theorem foldlM_prefix {f : σ → β → Option σ} {P : List β → σ → Prop} (xs : List β)
    (hstep : ∀ t x st, t ++ [x] <+: xs → P t st → ∃ st', f st x = some st' ∧ P (t ++ [x]) st')
    (st : σ) (hst : P [] st) : ∃ st', xs.foldlM f st = some st' ∧ P xs st' :=
  foldlM_pure xs hstep st hst

/-- A loop whose steps preserve a property, or fail and then `Q` holds. -/
theorem foldlM_or_none {f : σ → β → Option σ} {P : List β → σ → Prop} {Q : Prop} (xs : List β)
    (hstep : ∀ t x st, t ++ [x] <+: xs → P t st →
      (∃ st', f st x = some st' ∧ P (t ++ [x]) st') ∨ f st x = none ∧ Q)
    (st : σ) (hst : P [] st) :
    (∃ st', xs.foldlM f st = some st' ∧ P xs st') ∨ xs.foldlM f st = none ∧ Q := by
  induction xs using List.reverseRecOn with
  | nil => exact .inl ⟨st, rfl, hst⟩
  | append_singleton xs x ih =>
    have hfront := ih fun t y st' ht => hstep t y st' (ht.trans (List.prefix_append xs [x]))
    rcases hfront with ⟨st₁, hrun, hP⟩ | ⟨hnone, hQ⟩
    · rcases hstep xs x st₁ List.prefix_rfl hP with ⟨st₂, hlast, hP₂⟩ | ⟨hlast, hQ⟩
      · exact .inl ⟨st₂, by simp [hrun, hlast], hP₂⟩
      · exact .inr ⟨by simp [hrun, hlast], hQ⟩
    · exact .inr ⟨by simp [hnone], hQ⟩

/-- What every step that goes through keeps, a run that goes through keeps. -/
theorem foldlM_preserves {f : σ → β → Option σ} {P : σ → Prop}
    (hstep : ∀ st x st', f st x = some st' → P st → P st') {xs : List β} {st st' : σ}
    (hrun : xs.foldlM f st = some st') (hst : P st) : P st' := by
  induction xs generalizing st with
  | nil => exact Option.some.inj hrun ▸ hst
  | cons x xs ih =>
    rw [List.foldlM_cons] at hrun
    obtain ⟨st₁, hx, hrest⟩ := Option.bind_eq_some_iff.mp hrun
    exact ih hrest (hstep st x st₁ hx hst)

theorem foldlM_eq_none {f : σ → β → Option σ} {xs : List β} {x : β} (hx : x ∈ xs)
    (h : ∀ st, f st x = none) (st : σ) : xs.foldlM f st = none := by
  induction xs generalizing st with
  | nil => exact absurd hx List.not_mem_nil
  | cons y xs ih =>
    rw [List.foldlM_cons]
    rcases List.mem_cons.mp hx with rfl | hmem
    · rw [h]
      rfl
    · cases f st y with
      | none => rfl
      | some st' => exact ih hmem st'

/-- A loop that counts the elements for which a computation gives `true`. -/
theorem foldlM_count {p : β → Option Bool} {q : β → Prop} [DecidablePred q] (xs : List β)
    (h : ∀ x ∈ xs, p x = some (decide (q x))) (n : ℕ) :
    xs.foldlM (fun count x => do return if ← p x then count + 1 else count) n =
      some (n + xs.countP fun x => q x) := by
  induction xs generalizing n with
  | nil => rfl
  | cons x xs ih =>
    rw [List.forall_mem_cons] at h
    rw [List.foldlM_cons, h.1, List.countP_cons]
    by_cases hq : q x
    · rw [decide_eq_true hq, if_pos rfl]
      refine (ih h.2 (n + 1)).trans ?_
      congr 1
      omega
    · rw [decide_eq_false hq, if_neg Bool.false_ne_true]
      exact ih h.2 n

theorem length_lt_of_append {t xs : List β} {x : β} (h : t ++ [x] <+: xs) :
    t.length < xs.length := by
  have hle := h.length_le
  rw [List.length_append, List.length_singleton] at hle
  exact hle

theorem eq_add_length_of_prefix_range' {t : List ℕ} {x s n : ℕ}
    (h : t ++ [x] <+: List.range' s n) : x = s + t.length ∧ t.length < n := by
  have hlt : t.length < n := by simpa using length_lt_of_append h
  obtain ⟨u, hu⟩ := h
  have hget := congrArg (fun l => l[t.length]?) hu
  simpa [hlt, List.getElem?_range'] using hget

theorem eq_length_of_prefix_range {t : List ℕ} {x n : ℕ} (h : t ++ [x] <+: List.range n) :
    x = t.length ∧ t.length < n := by
  rw [List.range_eq_range'] at h
  simpa using eq_add_length_of_prefix_range' h

theorem of_getElem?_range {n j x : ℕ} (h : (List.range n)[j]? = some x) : j < n ∧ x = j := by
  obtain ⟨hj, hx⟩ := List.getElem?_eq_some_iff.mp h
  rw [List.getElem_range] at hx
  exact ⟨by simpa using hj, hx.symm⟩

/-- A loop that breaks exactly when `m` steps have been made in all, from a state with `n` made. -/
theorem forIn_break (body : β → σ → Option (ForInStep σ)) {P : ℕ → σ → Prop} {m : ℕ}
    (xs : List β) (n : ℕ)
    (hbreak : ∀ j x st, xs[j]? = some x → P (n + j) st → m ≤ n + j →
      body x st = some (.done st))
    (hbody : ∀ j x st, xs[j]? = some x → P (n + j) st → n + j < m →
      ∃ st', body x st = some (.yield st') ∧ P (n + j + 1) st')
    (hn : n ≤ m) (st : σ) (hst : P n st) :
    ∃ st', forIn xs st body = some st' ∧ P (min (n + xs.length) m) st' := by
  induction xs generalizing n st with
  | nil => exact ⟨st, rfl, by simpa [hn] using hst⟩
  | cons x xs ih =>
    rw [List.forIn_cons]
    by_cases hm : n < m
    · obtain ⟨st₁, hstep, hP⟩ := hbody 0 x st rfl hst hm
      have hassoc : ∀ j, n + 1 + j = n + (j + 1) := fun j => by omega
      obtain ⟨st₂, hrun, hP₂⟩ := ih (n + 1)
        (fun j y st hy hP hle => by
          rw [hassoc] at hP hle
          exact hbreak (j + 1) y st hy hP hle)
        (fun j y st hy hP hlt => by
          rw [hassoc] at hP hlt ⊢
          exact hbody (j + 1) y st hy hP hlt)
        hm st₁ hP
      refine ⟨st₂, by simpa [hstep] using hrun, ?_⟩
      rwa [List.length_cons, show n + (xs.length + 1) = n + 1 + xs.length by omega]
    · obtain rfl : n = m := by omega
      have hstop := hbreak 0 x st rfl hst (by omega)
      refine ⟨st, by simp [hstop], ?_⟩
      rwa [Nat.min_eq_right (by simp)]

/-- A loop that may be left early: it is left with `Q`, or its steps preserve `P`, or one fails. -/
theorem forIn_until_or_none {body : β → σ → Option (ForInStep σ)} {P : List β → σ → Prop}
    {Q : σ → Prop} {R : Prop} (t xs : List β)
    (hbody : ∀ t' x st, t' ++ [x] <+: t ++ xs → P t' st →
      (∃ st', body x st = some (.done st') ∧ Q st') ∨
        (∃ st', body x st = some (.yield st') ∧ P (t' ++ [x]) st') ∨ body x st = none ∧ R)
    (st : σ) (hst : P t st) :
    (∃ st', forIn xs st body = some st' ∧ (Q st' ∨ P (t ++ xs) st')) ∨
      forIn xs st body = none ∧ R := by
  induction xs generalizing t st with
  | nil => exact .inl ⟨st, rfl, .inr (by rwa [List.append_nil])⟩
  | cons x xs ih =>
    have hsplit : t ++ x :: xs = t ++ [x] ++ xs := by rw [List.append_assoc, List.singleton_append]
    rw [List.forIn_cons]
    rcases hbody t x st (hsplit ▸ List.prefix_append _ _) hst with hdone | hyield | hnone
    · obtain ⟨st', hrun, hQ⟩ := hdone
      exact .inl ⟨st', by simp [hrun], .inl hQ⟩
    · obtain ⟨st₁, hrun, hP⟩ := hyield
      have hrest := ih (t ++ [x]) (fun t' y st ht => hbody t' y st (hsplit ▸ ht)) st₁ hP
      rcases hrest with ⟨st', hrest, hend⟩ | ⟨hrest, hR⟩
      · exact .inl ⟨st', by simpa [hrun] using hrest, hsplit ▸ hend⟩
      · exact .inr ⟨by simpa [hrun] using hrest, hR⟩
    · exact .inr ⟨by simp [hnone.1], hnone.2⟩

/-- An array filled from left to right, each entry from the array so far. -/
def fill (f : List β → ℕ → β) (s n : ℕ) (xs : List β) : List β :=
  (List.range' s n).foldl (fun xs i => xs.set i (f xs i)) xs

theorem length_fill (f : List β → ℕ → β) (s n : ℕ) (xs : List β) :
    (fill f s n xs).length = xs.length := by
  induction n with
  | zero => rfl
  | succ n ih =>
    unfold fill at ih ⊢
    rw [List.range'_concat, List.foldl_append, List.foldl_cons, List.foldl_nil, List.length_set, ih]

/-- Entries with a property that each has when those before it do. -/
theorem fill_getD {f : List β → ℕ → β} {P : ℕ → β → Prop} {s n : ℕ} {xs : List β} (d : β)
    (hlen : s + n ≤ xs.length) (hxs : ∀ j < s, P j (xs.getD j d))
    (hf : ∀ i ys, s ≤ i → i < s + n → (∀ j < i, P j (ys.getD j d)) → P i (f ys i)) :
    ∀ j < s + n, P j ((fill f s n xs).getD j d) := by
  induction n with
  | zero => exact hxs
  | succ n ih =>
    have hprev := ih (by omega) fun i ys hi hlt => hf i ys hi (by omega)
    have hstep : fill f s (n + 1) xs = (fill f s n xs).set (s + n) (f (fill f s n xs) (s + n)) := by
      unfold fill
      rw [List.range'_concat, Nat.one_mul, List.foldl_append]
      rfl
    intro j hj
    rw [hstep, List.getD_eq_getElem?_getD]
    by_cases heq : j = s + n
    · rw [heq, List.getElem?_set_self (by rw [length_fill]; omega), Option.getD_some]
      exact hf (s + n) _ (by omega) (by omega) hprev
    · rw [List.getElem?_set_ne (Ne.symm heq), ← List.getD_eq_getElem?_getD]
      exact hprev j (by omega)

end Foundation
