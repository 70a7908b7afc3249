import CppTricks.Foundation.Heap
import Mathlib.Algebra.BigOperators.Group.Finset.Piecewise
import Mathlib.Algebra.Order.BigOperators.Group.Finset
import Mathlib.Algebra.Ring.Nat
import Mathlib.Logic.Relation

/-! Objects that are shared and never changed: each has the number of pointers to it, and goes with
the last of them. -/
namespace Foundation

structure SharedObject (A : Type) where
  uses : ℕ
  value : A

abbrev SharedHeap (A : Type) := Heap (SharedObject A)

namespace SharedHeap

variable {A : Type} {h h' : SharedHeap A} {a b : ℕ} {as roots : List ℕ} {c : SharedObject A} {x : A}

def make (h : SharedHeap A) (x : A) : ℕ × SharedHeap A := h.allocate ⟨1, x⟩

def recount (f : ℕ → ℕ) (h : SharedHeap A) (a : ℕ) : SharedHeap A :=
  h.modify a fun c => { c with uses := f c.uses }

/-- A pointer is copied. `none` is a pointer to what is not live. -/
def share (h : SharedHeap A) (a : ℕ) : Option (SharedHeap A) := do
  let _ ← h.objects a
  return recount (· + 1) h a

def shareAll (h : SharedHeap A) (as : List ℕ) : Option (SharedHeap A) := as.foldlM share h

/-- The pointers go one after another. The last one to an object takes it along, and the pointers
that it holds, which `refs` gives, come next. -/
def release (refs : A → List ℕ) : ℕ → List ℕ → SharedHeap A → Option (SharedHeap A)
  | _, [], h => some h
  | 0, _ :: _, _ => none
  | fuel + 1, a :: as, h => do
    let c ← h.objects a
    if c.uses = 1 then release refs fuel (refs c.value ++ as) (h.free a)
    else release refs fuel as (recount (· - 1) h a)

def valueAt (h : SharedHeap A) (a : ℕ) : Option A := (h.objects a).map SharedObject.value

def usesAt (h : SharedHeap A) (a : ℕ) : ℕ := (h.objects a).elim 0 SharedObject.uses

def pointers (h : SharedHeap A) : ℕ := ∑ a ∈ Finset.range h.fresh, usesAt h a

theorem valueAt_eq_some (ha : h.objects a = some c) : valueAt h a = some c.value := by
  rw [valueAt, ha, Option.map_some]

theorem usesAt_eq (ha : h.objects a = some c) : usesAt h a = c.uses := by
  rw [usesAt, ha, Option.elim_some]

theorem usesAt_eq_zero (ha : h.objects a = none) : usesAt h a = 0 := by
  rw [usesAt, ha, Option.elim_none]

theorem live_of_usesAt (ha : usesAt h a ≠ 0) : h.objects a ≠ none :=
  fun hnone => ha (usesAt_eq_zero hnone)

theorem lt_fresh (ha : h.objects a = some c) : a < h.fresh := by
  by_contra hle
  rw [h.dead_of_fresh_le a (Nat.le_of_not_lt hle)] at ha
  cases ha

@[simp] theorem valueAt_recount (f : ℕ → ℕ) (h : SharedHeap A) (a b : ℕ) :
    valueAt (recount f h a) b = valueAt h b := by
  unfold valueAt recount
  by_cases hb : b = a
  · subst hb
    rw [Heap.objects_modify_self, Option.map_map]
    rfl
  · rw [Heap.objects_modify_of_ne hb]

theorem usesAt_recount_self (f : ℕ → ℕ) (ha : h.objects a = some c) :
    usesAt (recount f h a) a = f c.uses := by
  unfold usesAt recount
  rw [Heap.objects_modify_self, ha]
  rfl

theorem usesAt_recount_of_ne (f : ℕ → ℕ) (hb : b ≠ a) :
    usesAt (recount f h a) b = usesAt h b := by
  unfold usesAt recount
  rw [Heap.objects_modify_of_ne hb]

theorem usesAt_free_of_ne (hb : b ≠ a) : usesAt (h.free a) b = usesAt h b := by
  unfold usesAt
  rw [Heap.objects_free_of_ne hb]

theorem valueAt_free_of_ne (hb : b ≠ a) : valueAt (h.free a) b = valueAt h b := by
  unfold valueAt
  rw [Heap.objects_free_of_ne hb]

theorem valueAt_free_self (h : SharedHeap A) (a : ℕ) : valueAt (h.free a) a = none := by
  unfold valueAt
  rw [Heap.objects_free_self]
  rfl

theorem objects_ne_none_iff : h.objects a ≠ none ↔ valueAt h a ≠ none := by
  rw [valueAt, ne_eq, ne_eq, Option.map_eq_none_iff]

theorem valueAt_make_self (h : SharedHeap A) (x : A) : valueAt (make h x).2 h.fresh = some x :=
  valueAt_eq_some (Heap.objects_allocate_self h _)

theorem valueAt_make_of_ne (ha : a ≠ h.fresh) : valueAt (make h x).2 a = valueAt h a := by
  unfold valueAt make
  rw [Heap.objects_allocate_of_ne ha]

/-- What is live has the value it had. -/
def Fewer (h h' : SharedHeap A) : Prop := ∀ a x, valueAt h' a = some x → valueAt h a = some x

theorem Fewer.refl (h : SharedHeap A) : Fewer h h := fun _ _ hx => hx

theorem Fewer.valueAt_eq (hfewer : Fewer h h') (ha : h'.objects a ≠ none) :
    valueAt h' a = valueAt h a := by
  obtain ⟨c, hc⟩ := Option.ne_none_iff_exists'.mp ha
  have hvalue := valueAt_eq_some hc
  rw [hvalue, hfewer a c.value hvalue]

theorem fewer_free (h : SharedHeap A) (a : ℕ) : Fewer h (h.free a) := by
  intro b x hx
  by_cases hb : b = a
  · subst hb
    rw [valueAt_free_self] at hx
    cases hx
  · rwa [valueAt_free_of_ne hb] at hx

theorem pointers_eq (g : SharedHeap A) (ha : h.objects a = some c) (hfresh : g.fresh = h.fresh)
    (hself : usesAt g a + 1 = c.uses) (hother : ∀ b, b ≠ a → usesAt g b = usesAt h b) :
    pointers g + 1 = pointers h := by
  have hmem : a ∈ Finset.range h.fresh := Finset.mem_range.mpr (lt_fresh ha)
  unfold pointers
  rw [hfresh, ← Finset.add_sum_erase _ _ hmem, ← Finset.add_sum_erase _ (usesAt h) hmem,
    usesAt_eq ha, ← hself]
  have hrest : ∑ b ∈ (Finset.range h.fresh).erase a, usesAt g b =
      ∑ b ∈ (Finset.range h.fresh).erase a, usesAt h b :=
    Finset.sum_congr rfl fun b hb => hother b (Finset.ne_of_mem_erase hb)
  omega

section Refs

variable {refs : A → List ℕ}

def refsAt (refs : A → List ℕ) (h : SharedHeap A) (b : ℕ) : List ℕ := (valueAt h b).elim [] refs

/-- The number of pointers to an object in the other objects. -/
def inside (refs : A → List ℕ) (h : SharedHeap A) (a : ℕ) : ℕ :=
  ∑ b ∈ Finset.range h.fresh, (refsAt refs h b).count a

theorem refsAt_eq (ha : h.objects a = some c) : refsAt refs h a = refs c.value := by
  rw [refsAt, valueAt_eq_some ha, Option.elim_some]

theorem refsAt_eq_nil (ha : h.objects a = none) : refsAt refs h a = [] := by
  unfold refsAt valueAt
  rw [ha]
  rfl

theorem live_of_refs (ha : a ∈ refsAt refs h b) : h.objects b ≠ none := by
  intro hnone
  rw [refsAt_eq_nil hnone] at ha
  cases ha

@[simp] theorem refsAt_recount (f : ℕ → ℕ) (h : SharedHeap A) (a b : ℕ) :
    refsAt refs (recount f h a) b = refsAt refs h b := by
  rw [refsAt, valueAt_recount, refsAt]

theorem refsAt_free_of_ne (hb : b ≠ a) : refsAt refs (h.free a) b = refsAt refs h b := by
  rw [refsAt, valueAt_free_of_ne hb, refsAt]

theorem refsAt_make_self (h : SharedHeap A) (x : A) :
    refsAt refs (make h x).2 h.fresh = refs x := refsAt_eq (Heap.objects_allocate_self h _)

theorem refsAt_make_of_ne (ha : a ≠ h.fresh) :
    refsAt refs (make h x).2 a = refsAt refs h a := by
  rw [refsAt, valueAt_make_of_ne ha, refsAt]

@[simp] theorem inside_recount (f : ℕ → ℕ) (h : SharedHeap A) (a b : ℕ) :
    inside refs (recount f h a) b = inside refs h b := by
  unfold inside
  simp only [refsAt_recount]
  rfl

theorem inside_free (refs : A → List ℕ) (ha : h.objects a = some c) (b : ℕ) :
    inside refs (h.free a) b + (refs c.value).count b = inside refs h b := by
  have hmem : a ∈ Finset.range h.fresh := Finset.mem_range.mpr (lt_fresh ha)
  have hrest : ∑ d ∈ (Finset.range h.fresh).erase a, (refsAt refs (h.free a) d).count b =
      ∑ d ∈ (Finset.range h.fresh).erase a, (refsAt refs h d).count b := by
    apply Finset.sum_congr rfl
    intro d hd
    rw [refsAt_free_of_ne (Finset.ne_of_mem_erase hd)]
  unfold inside
  rw [← Finset.add_sum_erase _ (fun d => (refsAt refs h d).count b) hmem, ← hrest, refsAt_eq ha]
  change ∑ d ∈ Finset.range h.fresh, _ + _ = _
  rw [← Finset.add_sum_erase _ (fun d => (refsAt refs (h.free a) d).count b) hmem,
    refsAt_eq_nil (Heap.objects_free_self h a), List.count_nil]
  omega

theorem inside_make (h : SharedHeap A) (x : A) (b : ℕ) :
    inside refs (make h x).2 b = inside refs h b + (refs x).count b := by
  unfold inside
  change ∑ d ∈ Finset.range (h.fresh + 1), _ = _
  rw [Finset.sum_range_succ, refsAt_make_self]
  congr 1
  apply Finset.sum_congr rfl
  intro d hd
  rw [refsAt_make_of_ne (Finset.mem_range.mp hd).ne]

/-- The counts are those of the pointers that there are, from the roots and from live objects, and
an object points only to older ones. -/
structure Owns (refs : A → List ℕ) (h : SharedHeap A) (roots : List ℕ) : Prop where
  uses : ∀ a, usesAt h a = roots.count a + inside refs h a
  pos : ∀ a c, h.objects a = some c → 0 < c.uses
  older : ∀ a, ∀ b ∈ refsAt refs h a, b < a

namespace Owns

theorem empty : Owns refs Heap.empty [] where
  uses _ := rfl
  pos _ _ ha := nomatch ha
  older _ _ hb := absurd hb List.not_mem_nil

theorem perm (hh : Owns refs h roots) {roots' : List ℕ} (hp : roots'.Perm roots) :
    Owns refs h roots' where
  uses a := by rw [hh.uses, hp.count_eq]
  pos := hh.pos
  older := hh.older

theorem live_of_mem (hh : Owns refs h roots) (ha : a ∈ roots) : h.objects a ≠ none := by
  apply live_of_usesAt
  have hcount := List.count_pos_iff.mpr ha
  rw [hh.uses]
  omega

theorem exists_of_mem (hh : Owns refs h roots) (ha : a ∈ roots) : ∃ c, h.objects a = some c :=
  Option.ne_none_iff_exists'.mp (hh.live_of_mem ha)

theorem count_le_inside (refs : A → List ℕ) (h : SharedHeap A) (a : ℕ) (hb : b < h.fresh) :
    (refsAt refs h b).count a ≤ inside refs h a :=
  Finset.single_le_sum (fun d _ => Nat.zero_le ((refsAt refs h d).count a))
    (Finset.mem_range.mpr hb)

theorem live_of_mem_refsAt (hh : Owns refs h roots) (ha : a ∈ refsAt refs h b) :
    h.objects a ≠ none := by
  apply live_of_usesAt
  obtain ⟨c, hc⟩ := Option.ne_none_iff_exists'.mp (live_of_refs ha)
  have hcount := List.count_pos_iff.mpr ha
  have hle := count_le_inside refs h a (lt_fresh hc)
  rw [hh.uses]
  omega

theorem mem_or_exists (hh : Owns refs h roots) (ha : h.objects a = some c) :
    a ∈ roots ∨ ∃ b, a ∈ refsAt refs h b := by
  have hpos := hh.pos a c ha
  rw [← usesAt_eq ha, hh.uses] at hpos
  by_cases hroot : a ∈ roots
  · exact .inl hroot
  · rw [List.count_eq_zero.mpr hroot, Nat.zero_add] at hpos
    obtain ⟨b, -, hb⟩ := Finset.exists_ne_zero_of_sum_ne_zero hpos.ne'
    exact .inr ⟨b, List.count_pos_iff.mp (Nat.pos_of_ne_zero hb)⟩

/-- No leaks and no dangling pointers: what is live is what can be reached from the roots. -/
theorem live_iff (hh : Owns refs h roots) (a : ℕ) : h.objects a ≠ none ↔
    ∃ r ∈ roots, Relation.ReflTransGen (fun b d => d ∈ refsAt refs h b) r a := by
  constructor
  · intro ha
    obtain ⟨c, hc⟩ := Option.ne_none_iff_exists'.mp ha
    -- Upwards: a pointer to `a` is a root or comes from a younger object.
    induction hn : h.fresh - a using Nat.strong_induction_on generalizing a c with
    | _ n ih =>
      subst hn
      rcases hh.mem_or_exists hc with hroot | ⟨b, hb⟩
      · exact ⟨a, hroot, .refl⟩
      · have hab := hh.older b a hb
        have hlive := live_of_refs hb
        obtain ⟨d, hd⟩ := Option.ne_none_iff_exists'.mp hlive
        have hlt := lt_fresh hd
        obtain ⟨r, hr, hpath⟩ := ih (h.fresh - b) (by omega) b hlive d hd rfl
        exact ⟨r, hr, hpath.tail hb⟩
  · rintro ⟨r, hr, hpath⟩
    cases hpath with
    | refl => exact hh.live_of_mem hr
    | tail _ hlast => exact hh.live_of_mem_refsAt hlast

theorem lt_fresh_of_mem (hh : Owns refs h roots) (ha : a ∈ roots) : a < h.fresh := by
  obtain ⟨c, hc⟩ := hh.exists_of_mem ha
  exact lt_fresh hc

/-- A new object takes over the pointers to what it points to. -/
theorem make (hh : Owns refs h (refs x ++ roots)) :
    Owns refs (make h x).2 (h.fresh :: roots) where
  uses := by
    intro a
    have huses := hh.uses a
    rw [List.count_append] at huses
    rw [inside_make, List.count_cons]
    by_cases ha : a = h.fresh
    · subst ha
      have hnew : usesAt (SharedHeap.make h x).2 h.fresh = 1 :=
        usesAt_eq (Heap.objects_allocate_self h _)
      rw [usesAt_eq_zero h.objects_fresh] at huses
      rw [hnew, beq_self_eq_true, if_pos rfl]
      omega
    · have hold : usesAt (SharedHeap.make h x).2 a = usesAt h a := by
        unfold usesAt SharedHeap.make
        rw [Heap.objects_allocate_of_ne ha]
      rw [hold, huses, if_neg (by simpa using Ne.symm ha)]
      omega
  pos := by
    intro a c hc
    by_cases ha : a = h.fresh
    · subst ha
      obtain rfl := Option.some.inj ((Heap.objects_allocate_self h _).symm.trans hc)
      exact Nat.one_pos
    · exact hh.pos a c ((Heap.objects_allocate_of_ne ha _).symm.trans hc)
  older := by
    intro a b hb
    by_cases ha : a = h.fresh
    · subst ha
      rw [refsAt_make_self] at hb
      exact hh.lt_fresh_of_mem (List.mem_append_left _ hb)
    · apply hh.older a b
      rwa [refsAt_make_of_ne ha] at hb

theorem share (hh : Owns refs h roots) (ha : h.objects a ≠ none) :
    ∃ h', share h a = some h' ∧ Owns refs h' (a :: roots) ∧ valueAt h' = valueAt h := by
  obtain ⟨c, hc⟩ := Option.ne_none_iff_exists'.mp ha
  refine ⟨recount (· + 1) h a, ?_, ⟨?_, ?_, ?_⟩, funext fun b => valueAt_recount _ h a b⟩
  · rw [SharedHeap.share, hc]
    rfl
  · intro b
    rw [inside_recount, List.count_cons]
    by_cases hb : b = a
    · subst hb
      rw [usesAt_recount_self _ hc, ← usesAt_eq hc, hh.uses, beq_self_eq_true, if_pos rfl]
      omega
    · rw [usesAt_recount_of_ne _ hb, hh.uses, if_neg (by simpa using Ne.symm hb)]
      omega
  · intro b d hd
    by_cases hb : b = a
    · subst hb
      rw [← usesAt_eq hd, usesAt_recount_self _ hc]
      exact Nat.succ_pos _
    · exact hh.pos b d ((Heap.objects_modify_of_ne hb _).symm.trans hd)
  · intro b d hd
    apply hh.older b d
    rwa [refsAt_recount] at hd

theorem shareAll (hh : Owns refs h roots) (has : ∀ a ∈ as, h.objects a ≠ none) :
    ∃ h', shareAll h as = some h' ∧ Owns refs h' (as ++ roots) ∧ valueAt h' = valueAt h := by
  unfold SharedHeap.shareAll
  induction as generalizing h roots with
  | nil => exact ⟨h, rfl, hh, rfl⟩
  | cons a as ih =>
    rw [List.forall_mem_cons] at has
    obtain ⟨h₁, hshare, hh₁, hvalue⟩ := hh.share has.1
    have hlive : ∀ b ∈ as, h₁.objects b ≠ none := by
      intro b hb
      rw [objects_ne_none_iff, hvalue, ← objects_ne_none_iff]
      exact has.2 b hb
    obtain ⟨h₂, hshares, hh₂, hvalue'⟩ := ih hh₁ hlive
    refine ⟨h₂, ?_, hh₂.perm List.perm_middle.symm, hvalue'.trans hvalue⟩
    rw [List.foldlM_cons, hshare]
    exact hshares

/-- The last pointer to an object goes: its place among the roots is taken by what it pointed to. -/
theorem free (hh : Owns refs h (a :: roots)) (hc : h.objects a = some c) (huses : c.uses = 1) :
    Owns refs (h.free a) (refs c.value ++ roots) where
  uses := by
    intro b
    have hold := hh.uses b
    have hinside := inside_free refs hc b
    rw [List.count_cons] at hold
    rw [List.count_append]
    by_cases hb : b = a
    · subst hb
      have hself : b ∉ refs c.value := fun hmem => (hh.older b b (refsAt_eq hc ▸ hmem)).false
      rw [usesAt_eq hc, huses, beq_self_eq_true, if_pos rfl] at hold
      rw [usesAt_eq_zero (Heap.objects_free_self h b), List.count_eq_zero.mpr hself] at *
      omega
    · rw [if_neg (by simpa using Ne.symm hb)] at hold
      rw [usesAt_free_of_ne hb]
      omega
  pos := by
    intro b d hd
    by_cases hb : b = a
    · subst hb
      rw [Heap.objects_free_self] at hd
      cases hd
    · exact hh.pos b d ((Heap.objects_free_of_ne hb).symm.trans hd)
  older := by
    intro b d hd
    by_cases hb : b = a
    · subst hb
      rw [refsAt_eq_nil (Heap.objects_free_self h b)] at hd
      cases hd
    · apply hh.older b d
      rwa [refsAt_free_of_ne hb] at hd

theorem drop (hh : Owns refs h (a :: roots)) (hc : h.objects a = some c) (huses : c.uses ≠ 1) :
    Owns refs (recount (· - 1) h a) roots where
  uses := by
    intro b
    have hold := hh.uses b
    rw [List.count_cons] at hold
    rw [inside_recount]
    by_cases hb : b = a
    · subst hb
      rw [usesAt_eq hc, beq_self_eq_true, if_pos rfl] at hold
      rw [usesAt_recount_self _ hc]
      omega
    · rw [if_neg (by simpa using Ne.symm hb)] at hold
      rw [usesAt_recount_of_ne _ hb]
      omega
  pos := by
    intro b d hd
    by_cases hb : b = a
    · subst hb
      have hpos := hh.pos b c hc
      rw [← usesAt_eq hd, usesAt_recount_self _ hc]
      omega
    · exact hh.pos b d ((Heap.objects_modify_of_ne hb _).symm.trans hd)
  older := by
    intro b d hd
    apply hh.older b d
    rwa [refsAt_recount] at hd

/-- As many steps as there are pointers are enough for any release. -/
theorem release {fuel : ℕ} (hh : Owns refs h (as ++ roots)) (hfuel : pointers h ≤ fuel) :
    ∃ h', release refs fuel as h = some h' ∧ Owns refs h' roots ∧ Fewer h h' := by
  induction fuel generalizing h as with
  | zero =>
    cases as with
    | nil => exact ⟨h, by rw [SharedHeap.release], hh, .refl h⟩
    | cons a as =>
      obtain ⟨c, hc⟩ := hh.exists_of_mem List.mem_cons_self
      have hpos := hh.pos a c hc
      have hle : usesAt h a ≤ pointers h :=
        Finset.single_le_sum (fun d _ => Nat.zero_le (usesAt h d))
          (Finset.mem_range.mpr (lt_fresh hc))
      rw [usesAt_eq hc] at hle
      omega
  | succ fuel ih =>
    cases as with
    | nil => exact ⟨h, by rw [SharedHeap.release], hh, .refl h⟩
    | cons a as =>
      obtain ⟨c, hc⟩ := hh.exists_of_mem List.mem_cons_self
      have hpos := hh.pos a c hc
      rw [SharedHeap.release, hc]
      by_cases huses : c.uses = 1
      · have hcount : pointers (h.free a) + 1 = pointers h := by
          apply pointers_eq (h.free a) hc rfl _ fun b hb => usesAt_free_of_ne hb
          rw [usesAt_eq_zero (Heap.objects_free_self h a), huses]
        have hh₁ : Owns refs (h.free a) ((refs c.value ++ as) ++ roots) := by
          rw [List.append_assoc]
          exact hh.free hc huses
        obtain ⟨h', hrelease, hh', hfewer⟩ := ih hh₁ (by omega)
        refine ⟨h', ?_, hh', fun b x hx => fewer_free h a b x (hfewer b x hx)⟩
        rw [Option.bind_eq_bind, Option.bind_some, if_pos huses]
        exact hrelease
      · have hcount : pointers (recount (· - 1) h a) + 1 = pointers h := by
          apply pointers_eq (recount (· - 1) h a) hc rfl _ fun b hb => usesAt_recount_of_ne _ hb
          rw [usesAt_recount_self _ hc]
          omega
        obtain ⟨h', hrelease, hh', hfewer⟩ := ih (hh.drop hc huses) (by omega)
        refine ⟨h', ?_, hh', fun b x hx => ?_⟩
        · rw [Option.bind_eq_bind, Option.bind_some, if_neg huses]
          exact hrelease
        · have hx' := hfewer b x hx
          rwa [valueAt_recount] at hx'

theorem dead_of_nil (hh : Owns refs h []) (a : ℕ) : h.objects a = none := by
  by_contra ha
  obtain ⟨r, hr, -⟩ := (hh.live_iff a).mp ha
  cases hr

end Owns
end Refs
end SharedHeap
end Foundation
