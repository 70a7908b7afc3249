import CppTricks.Foundation.Heap
import CppTricks.Foundation.Loops

/-! `StackInh<T>`: raw memory owned by a base class, with elements constructed in place. -/
namespace CppTricks.Sutter
open Foundation

/-- A buffer is a list of cells, each with the element constructed there; `none` is a null
pointer. -/
structure StackImpl where
  v : Option ℕ
  vsize : ℕ
  vused : ℕ

abbrev Buffers (T : Type) := Heap (List (Option T))

namespace StackImpl

variable {T : Type}

def create (size : ℕ) (h : Buffers T) : StackImpl × Buffers T :=
  if size = 0 then (⟨none, size, 0⟩, h)
  else
    let made := h.allocate (List.replicate size none)
    (⟨some made.1, size, 0⟩, made.2)

/-- `construct(v + i, x)`; `none` is a write outside the buffer. -/
def constructAt (h : Buffers T) (v : Option ℕ) (i : ℕ) (x : T) : Option (Buffers T) := do
  let a ← v
  let cells ← h.objects a
  if i < cells.length then some (h.modify a fun cells => cells.set i (some x)) else none

/-- `v[i]`; `none` is a read outside the buffer, or where no element is. -/
def elementAt (h : Buffers T) (v : Option ℕ) (i : ℕ) : Option T := do
  let a ← v
  let cells ← h.objects a
  let cell ← cells[i]?
  cell

/-- `destroy(v + i)`; `none` is a place where no element is. -/
def destroyAt (v : Option ℕ) (h : Buffers T) (i : ℕ) : Option (Buffers T) := do
  let a ← v
  let _ ← elementAt h v i
  return h.modify a fun cells => cells.set i none

def destruct (s : StackImpl) (h : Buffers T) : Option (Buffers T) := do
  let h ← (List.range s.vused).foldlM (destroyAt s.v) h
  match s.v with
  | none => some h
  | some a => some (h.free a)

end StackImpl

namespace StackInh

variable {T : Type}

open StackImpl

/-- The base is made by `StackImpl()`. -/
def copyConstruct (other : StackImpl) (h : Buffers T) : Option (StackImpl × Buffers T) :=
  (List.range other.vused).foldlM (fun p _ => do
    let x ← elementAt p.2 other.v p.1.vused
    let h ← constructAt p.2 p.1.v p.1.vused x
    return ({ p.1 with vused := p.1.vused + 1 }, h)) (create 0 h)

/-- `*this = other`, where `other` may be `*this`. -/
def assign (this other : StackImpl) (h : Buffers T) : Option (StackImpl × Buffers T) := do
  let (temp, h) ← copyConstruct other h
  -- after the swap `temp` has what was in `*this`
  let h ← this.destruct h
  return (temp, h)

/-- `none` is also a reallocation inside `depth` others. -/
def push : ℕ → StackImpl → T → Buffers T → Option (StackImpl × Buffers T)
  | depth, this, t, h =>
    if this.vused = this.vsize then
      match depth with
      | 0 => none
      | depth + 1 => do
        -- `temp.Count()` goes up by one in each round
        let (temp, h) ← (List.range this.vused).foldlM (fun p _ => do
          let x ← elementAt p.2 this.v p.1.vused
          push depth p.1 x p.2) (create (this.vsize * 2 + 1) h)
        let (temp, h) ← push depth temp t h
        let h ← this.destruct h
        return (temp, h)
    else do
      let h ← constructAt h this.v this.vused t
      return ({ this with vused := this.vused + 1 }, h)

end StackInh

/-! ### The members -/

def cells {T : Type} (l : List T) (n : ℕ) : List (Option T) :=
  l.map some ++ List.replicate (n - l.length) none

namespace StackImpl

/-- The stack holds `l`, in the front of a live buffer of `vsize_` cells unless that is 0. -/
structure Represents {T : Type} (s : StackImpl) (h : Buffers T) (l : List T) : Prop where
  vused : s.vused = l.length
  le : l.length ≤ s.vsize
  buffer : s.v = none ∧ s.vsize = 0 ∨ ∃ a, s.v = some a ∧ h.objects a = some (cells l s.vsize)

end StackImpl

/-- The change of a heap when the buffer `old` of a stack gives way to `new`. -/
structure Renews {T : Type} (h h' : Buffers T) (old new : Option ℕ) : Prop where
  agree : h.Agree h' (old.toList ++ new.toList)
  owned : ∀ a, new = some a → old = some a ∨ h.objects a = none

variable {T : Type} {l : List T} {n i : ℕ} {x : T} {s : StackImpl} {h h' : Buffers T}

theorem Renews.dead {new : Option ℕ} (hrenews : Renews h h' none new) {a : ℕ}
    (ha : new = some a) : h.objects a = none := (hrenews.owned a ha).resolve_left nofun

theorem length_cells (hle : l.length ≤ n) : (cells l n).length = n := by
  unfold cells
  rw [List.length_append, List.length_map, List.length_replicate]
  omega

theorem cells_getElem? (hi : i < l.length) : (cells l n)[i]? = some (some l[i]) := by
  have hmap : i < (l.map some).length := by rwa [List.length_map]
  unfold cells
  rw [List.getElem?_append_left hmap, List.getElem?_map, List.getElem?_eq_getElem hi,
    Option.map_some]

theorem cells_set (hlt : l.length < n) :
    (cells l n).set l.length (some x) = cells (l ++ [x]) n := by
  obtain ⟨k, hk⟩ : ∃ k, n - l.length = k + 1 := ⟨n - l.length - 1, by omega⟩
  have hk' : n - (l ++ [x]).length = k := by
    rw [List.length_append, List.length_singleton]
    omega
  have hle : (l.map some).length ≤ l.length := Nat.le_of_eq (List.length_map _)
  unfold cells
  rw [hk, hk', List.set_append_right _ _ hle, List.length_map, Nat.sub_self, List.replicate_succ,
    List.set_cons_zero, List.map_append, List.append_assoc]
  rfl

namespace StackImpl
namespace Represents

theorem congr (hs : s.Represents h l) (hsame : ∀ a, s.v = some a → h'.objects a = h.objects a) :
    s.Represents h' l where
  vused := hs.vused
  le := hs.le
  buffer := by
    apply hs.buffer.imp_right
    intro hbuffer
    obtain ⟨a, ha, hcells⟩ := hbuffer
    exact ⟨a, ha, (hsame a ha).trans hcells⟩

theorem objects (hs : s.Represents h l) {a : ℕ} (ha : s.v = some a) :
    h.objects a = some (cells l s.vsize) := by
  cases hs.buffer with
  | inl hnull => simp [hnull.1] at ha
  | inr hbuffer =>
    obtain ⟨b, hb, hcells⟩ := hbuffer
    obtain rfl : b = a := Option.some.inj (hb.symm.trans ha)
    exact hcells

theorem live (hs : s.Represents h l) {a : ℕ} (ha : s.v = some a) : h.objects a ≠ none := by
  rw [hs.objects ha]
  exact Option.some_ne_none _

theorem vused_ne_zero (hs : s.Represents h l) (hne : l ≠ []) : s.vused ≠ 0 := by
  rw [hs.vused]
  exact fun hzero => hne (List.eq_nil_of_length_eq_zero hzero)

theorem exists_address (hs : s.Represents h l) (hpos : 0 < s.vsize) : ∃ a, s.v = some a := by
  cases hs.buffer with
  | inl hnull => omega
  | inr hbuffer => exact ⟨hbuffer.choose, hbuffer.choose_spec.1⟩

theorem elementAt (hs : s.Represents h l) (hi : i < l.length) :
    elementAt h s.v i = some l[i] := by
  have hle := hs.le
  obtain ⟨a, ha⟩ := hs.exists_address (by omega)
  unfold StackImpl.elementAt
  rw [ha]
  simp [hs.objects ha, cells_getElem? hi]

/-- The stacks that do not own the old buffer keep their elements. -/
theorem of_renews (hs : s.Represents h l) {old new : Option ℕ} (hrenews : Renews h h' old new)
    (hapart : ∀ a, s.v = some a → old ≠ some a) : s.Represents h' l := by
  apply hs.congr
  intro a ha
  apply hrenews.agree
  intro hmem
  cases List.mem_append.mp hmem with
  | inl hold => exact hapart a ha (Option.mem_toList.mp hold)
  | inr hnew =>
    cases hrenews.owned a (Option.mem_toList.mp hnew) with
    | inl hold => exact hapart a ha hold
    | inr hdead => exact hs.live ha hdead

/-- An element is constructed behind the others, where there is room. -/
theorem constructAt (hs : s.Represents h l) (hroom : s.vused < s.vsize) (x : T) :
    ∃ h', constructAt h s.v s.vused x = some h' ∧
      ({ s with vused := s.vused + 1 } : StackImpl).Represents h' (l ++ [x]) ∧
      h.Agree h' s.v.toList := by
  obtain ⟨a, ha⟩ := hs.exists_address (by omega)
  have hobjects := hs.objects ha
  have hlt : l.length < s.vsize := hs.vused ▸ hroom
  refine ⟨h.modify a fun cells => cells.set s.vused (some x), ?_, ⟨?_, ?_, .inr ⟨a, ha, ?_⟩⟩, ?_⟩
  · unfold StackImpl.constructAt
    rw [ha]
    simp [hobjects, length_cells hs.le, hroom]
  · rw [List.length_append, hs.vused]
    rfl
  · rw [List.length_append]
    exact hlt
  · rw [Heap.objects_modify_self, hobjects, Option.map_some, hs.vused, cells_set hlt]
  · rw [ha]
    exact .modify h a _

end Represents

theorem create_represents (size : ℕ) (h : Buffers T) :
    (create size h).1.Represents (create size h).2 [] ∧ (create size h).1.vsize = size ∧
      Renews h (create size h).2 none (create size h).1.v := by
  by_cases hzero : size = 0
  · have hcreate : create size h = (⟨none, size, 0⟩, h) := if_pos hzero
    rw [hcreate]
    refine ⟨⟨rfl, Nat.zero_le _, .inl ⟨rfl, hzero⟩⟩, rfl, .refl h _, ?_⟩
    intro a ha
    cases ha
  · have hcreate : create size h =
        (⟨some h.fresh, size, 0⟩, (h.allocate (List.replicate size none)).2) := if_neg hzero
    rw [hcreate]
    refine ⟨⟨rfl, Nat.zero_le _, .inr ⟨_, rfl, Heap.objects_allocate_self _ _⟩⟩, rfl,
      .allocate h _, ?_⟩
    intro a ha
    obtain rfl := Option.some.inj ha
    exact .inr h.objects_fresh

private def Intact (h : Buffers T) (a : ℕ) (l : List T) (n k : ℕ) : Prop :=
  ∃ buffer, h.objects a = some buffer ∧ ∀ i, k ≤ i → buffer[i]? = (cells l n)[i]?

private theorem Intact.destroyAt {a k : ℕ} (hintact : Intact h a l n k) (hk : k < l.length) :
    ∃ h', destroyAt (some a) h k = some h' ∧ h.Agree h' [a] ∧ Intact h' a l n (k + 1) := by
  obtain ⟨buffer, hbuffer, hrest⟩ := hintact
  have hcell : buffer[k]? = some (some l[k]) := (hrest k (Nat.le_refl k)).trans (cells_getElem? hk)
  refine ⟨h.modify a fun cells => cells.set k none, ?_, .modify h a _, buffer.set k none, ?_, ?_⟩
  · unfold StackImpl.destroyAt StackImpl.elementAt
    simp [hbuffer, hcell]
  · rw [Heap.objects_modify_self, hbuffer]
    rfl
  · intro i hi
    rw [List.getElem?_set_ne (by omega), hrest i (by omega)]

/-- The destructor finds an element at every place it visits, and frees the buffer. -/
theorem Represents.destruct (hs : s.Represents h l) :
    ∃ h', destruct s h = some h' ∧ Renews h h' s.v none := by
  cases hv : s.v with
  | none =>
    have hzero : s.vused = 0 := by
      have hle := hs.le
      cases hs.buffer with
      | inl hnull =>
        rw [hs.vused]
        omega
      | inr hbuffer =>
        obtain ⟨a, ha, -⟩ := hbuffer
        rw [ha] at hv
        cases hv
    refine ⟨h, ?_, .refl h _, nofun⟩
    unfold StackImpl.destruct
    rw [hzero, hv]
    rfl
  | some a =>
    have hloop : ∃ h', (List.range s.vused).foldlM (destroyAt (some a)) h = some h' ∧
        h.Agree h' [a] ∧ Intact h' a l s.vsize (List.range s.vused).length := by
      apply foldlM_prefix (P := fun done h' => h.Agree h' [a] ∧ Intact h' a l s.vsize done.length)
      · intro done i h₁ hpre hinv
        obtain ⟨rfl, hi⟩ := eq_length_of_prefix_range hpre
        rw [hs.vused] at hi
        obtain ⟨h₂, hdestroy, hagree, hintact⟩ := hinv.2.destroyAt hi
        exact ⟨h₂, hdestroy, hinv.1.trans hagree, by rwa [List.length_append]⟩
      · exact ⟨.refl h _, cells l s.vsize, hs.objects hv, fun i _ => rfl⟩
    obtain ⟨h', hrun, hagree, -⟩ := hloop
    refine ⟨h'.free a, ?_, hagree.trans (.free h' a), nofun⟩
    unfold StackImpl.destruct
    rw [hv, hrun]
    rfl

end StackImpl

namespace StackInh

variable {depth : ℕ} {other : StackImpl} {t : T}

open StackImpl

theorem push_of_room (hs : s.Represents h l) (hroom : s.vused < s.vsize) (depth : ℕ) (t : T) :
    ∃ h', push depth s t h = some ({ s with vused := s.vused + 1 }, h') ∧
      ({ s with vused := s.vused + 1 } : StackImpl).Represents h' (l ++ [t]) ∧
      h.Agree h' s.v.toList := by
  obtain ⟨h', hconstruct, hrep, hagree⟩ := hs.constructAt hroom t
  have hne : s.vused ≠ s.vsize := Nat.ne_of_lt hroom
  refine ⟨h', ?_, hrep, hagree⟩
  unfold push
  rw [if_neg hne, hconstruct]
  rfl

/-- The elements in front have been pushed to `temp`. -/
private structure Refilled (h : Buffers T) (l : List T) (n k : ℕ) (p : StackImpl × Buffers T) :
    Prop where
  represents : p.1.Represents p.2 (l.take k)
  vsize : p.1.vsize = n
  renews : Renews h p.2 none p.1.v

private theorem refill (hs : s.Represents h l) (depth : ℕ) :
    ∃ p, (List.range s.vused).foldlM (fun p _ => do
        let x ← elementAt p.2 s.v p.1.vused
        push depth p.1 x p.2) (create (s.vsize * 2 + 1) h) = some p ∧
      Refilled h l (s.vsize * 2 + 1) s.vused p := by
  have hstart := create_represents (s.vsize * 2 + 1) h
  have hloop := foldlM_prefix (P := fun done => Refilled h l (s.vsize * 2 + 1) done.length)
    (f := fun p _ => do
      let x ← elementAt p.2 s.v p.1.vused
      push depth p.1 x p.2) (List.range s.vused) ?_ _ ⟨hstart.1, hstart.2.1, hstart.2.2⟩
  · rwa [List.length_range] at hloop
  · intro done i p hpre hp
    obtain ⟨-, hlt⟩ := eq_length_of_prefix_range hpre
    rw [hs.vused] at hlt
    have hle := hs.le
    have hvused : p.1.vused = done.length :=
      hp.represents.vused.trans (List.length_take_of_le (by omega))
    have hold : s.Represents p.2 l := hs.of_renews hp.renews fun _ _ => nofun
    have hroom : p.1.vused < p.1.vsize := by
      rw [hp.vsize]
      omega
    obtain ⟨h', hpush, hrep, hagree⟩ := push_of_room hp.represents hroom depth l[done.length]
    refine ⟨({ p.1 with vused := p.1.vused + 1 }, h'), ?_, ?_, hp.vsize, ?_, hp.renews.owned⟩
    · rw [hvused, hold.elementAt hlt, Option.bind_eq_bind, Option.bind_some, hpush, hvused]
    · rw [List.length_append, List.length_singleton, List.take_add_one,
        List.getElem?_eq_getElem hlt]
      exact hrep
    · exact hp.renews.agree.trans hagree

/-- One reallocation is enough: the pushes inside it find room. -/
theorem push_represents (hs : s.Represents h l) (depth : ℕ) (t : T) :
    ∃ s' h', push (depth + 1) s t h = some (s', h') ∧ s'.Represents h' (l ++ [t]) ∧
      Renews h h' s.v s'.v := by
  by_cases hfull : s.vused = s.vsize
  · obtain ⟨p, hrun, hp⟩ := refill hs depth
    have hrep : p.1.Represents p.2 l := by
      have hrep := hp.represents
      rwa [hs.vused, List.take_length] at hrep
    have hroom : p.1.vused < p.1.vsize := by
      rw [hrep.vused, hp.vsize, ← hs.vused]
      omega
    obtain ⟨h₁, hpush, hrep₁, hagree⟩ := push_of_room hrep hroom depth t
    have hrenews : Renews h h₁ none p.1.v := ⟨hp.renews.agree.trans hagree, hp.renews.owned⟩
    have hold : s.Represents h₁ l := hs.of_renews hrenews fun _ _ => nofun
    obtain ⟨h₂, hdestruct, hfreed⟩ := hold.destruct
    refine ⟨{ p.1 with vused := p.1.vused + 1 }, h₂, ?_, ?_, ?_, ?_⟩
    · unfold push
      rw [if_pos hfull]
      dsimp only
      rw [hrun, Option.bind_eq_bind, Option.bind_some]
      simp [hpush, hdestruct]
    · apply hrep₁.of_renews hfreed
      intro a ha hold
      exact hs.live hold (hrenews.dead ha)
    · exact (hrenews.agree.mono (List.subset_append_right _ _)).trans
        (hfreed.agree.mono (by simp))
    · intro a ha
      exact .inr (hrenews.dead ha)
  · have hle := hs.le
    have hvused := hs.vused
    obtain ⟨h', hpush, hrep, hagree⟩ := push_of_room hs (by omega) (depth + 1) t
    refine ⟨_, h', hpush, hrep, hagree.mono (List.subset_append_left _ _), ?_⟩
    intro a ha
    exact .inl ha

theorem copyConstruct_of_empty (hempty : other.vused = 0) (h : Buffers T) :
    copyConstruct other h = some (create 0 h) := by
  unfold copyConstruct
  rw [hempty]
  rfl

/-- The base of a copy has no room for a first element. -/
theorem copyConstruct_of_ne (hne : other.vused ≠ 0) (h : Buffers T) :
    copyConstruct other h = none := by
  obtain ⟨k, hk⟩ : ∃ k, other.vused = k + 1 := Nat.exists_eq_succ_of_ne_zero hne
  unfold copyConstruct
  rw [hk, List.range_succ_eq_map, List.foldlM_cons]
  cases elementAt (create 0 h).2 other.v (create (T := T) 0 h).1.vused <;> rfl

theorem assign_of_empty (hs : s.Represents h l) (hempty : other.vused = 0) :
    ∃ s' h', assign s other h = some (s', h') ∧ s'.Represents h' [] ∧ Renews h h' s.v s'.v := by
  obtain ⟨h', hdestruct, hrenews⟩ := hs.destruct
  refine ⟨⟨none, 0, 0⟩, h', ?_, ⟨rfl, Nat.le_refl 0, .inl ⟨rfl, rfl⟩⟩, hrenews⟩
  unfold assign
  rw [copyConstruct_of_empty hempty]
  simp [create, hdestruct]

theorem assign_of_ne (hne : other.vused ≠ 0) (h : Buffers T) : assign s other h = none := by
  unfold assign
  rw [copyConstruct_of_ne hne]
  rfl

end StackInh
end CppTricks.Sutter
