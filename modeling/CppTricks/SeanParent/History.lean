import CppTricks.Foundation.Runs
import CppTricks.Foundation.SharedHeap
import Mathlib.Data.List.Forall2
import Mathlib.Data.List.Perm.Basic

/-! A history of documents, whose parts are shared between the states that can be gone back to. -/
namespace CppTricks.SeanParent
open Foundation

/-- What a `model<T>` keeps, for the types `T` that are drawn. A document is a list of pointers. -/
inductive Model
  | int (x : ℤ)
  | string (x : String)
  | document (x : List ℕ)
  | myClass

def Model.refs : Model → List ℕ
  | .document x => x
  | _ => []

def line (position : ℕ) (x : String) : String :=
  String.ofList (List.replicate position ' ') ++ x ++ "\n"

def drawElements (draw : ℕ → Option String) : List ℕ → Option String
  | [] => some ""
  | e :: x => do
    let first ← draw e
    let others ← drawElements draw x
    return first ++ others

def drawDocument (draw : ℕ → ℕ → Option String) (position : ℕ) (x : List ℕ) : Option String := do
  let elements ← drawElements (draw (position + 2)) x
  return line position "<document>" ++ elements ++ line position "</document>"

/-- `draw(const object_t &)`, through `draw_` of the model that it points to. `none` is a pointer to
what is not live, or a recursion that is still running. -/
def draw (m : SharedHeap Model) : ℕ → ℕ → ℕ → Option String
  | 0, _, _ => none
  | fuel + 1, position, e => do
    let c ← m.objects e
    match c.value with
    | .int x => return line position (toString x)
    | .string x => return line position x
    | .document x => drawDocument (draw m fuel) position x
    | .myClass => return line position "my_class_t()"

/-- What an `object_t` is made from: a value, `current(h)` or `current(h)[i]`. -/
inductive Data
  | int (x : ℤ)
  | string (x : String)
  | myClass
  | current
  | element (i : ℕ)

/-- `current(h).emplace_back(x)`, `current(h)[i] = x`, `commit(h)`, `undo(h)` and
`draw(current(h), cout, position)`. -/
inductive Command
  | emplaceBack (x : Data)
  | assign (i : ℕ) (x : Data)
  | commit
  | undo
  | draw (position : ℕ)

structure History where
  heap : SharedHeap Model
  documents : List (List ℕ)

def makeObject (m : SharedHeap Model) (current : List ℕ) : Data → Option (ℕ × SharedHeap Model)
  | .int x => some (m.make (.int x))
  | .string x => some (m.make (.string x))
  | .myClass => some (m.make .myClass)
  | .current => do
    let m ← m.shareAll current
    return m.make (.document current)
  | .element i => do
    let e ← current[i]?
    let m ← m.share e
    return (e, m)

def release (m : SharedHeap Model) (x : List ℕ) : Option (SharedHeap Model) :=
  SharedHeap.release Model.refs m.pointers x m

/-- What the command prints. `none` is a failed `assert(x.size())`, or an index outside the
document. -/
def History.call : History → Command → Option (String × History)
  | ⟨_, []⟩, _ => none
  | ⟨m, current :: older⟩, .emplaceBack x => do
    let (e, m) ← makeObject m current x
    return ("", ⟨m, (current ++ [e]) :: older⟩)
  | ⟨m, current :: older⟩, .assign i x => do
    let (e, m) ← makeObject m current x
    let old ← current[i]?
    -- the temporary is moved in, and what was there goes with it
    let m ← release m [old]
    return ("", ⟨m, current.set i e :: older⟩)
  | ⟨m, current :: older⟩, .commit => do
    let m ← m.shareAll current
    return ("", ⟨m, current :: current :: older⟩)
  | ⟨m, current :: older⟩, .undo => do
    let m ← release m current
    return ("", ⟨m, older⟩)
  | ⟨m, current :: older⟩, .draw position => do
    let text ← drawDocument (draw m m.fresh) position current
    return (text, ⟨m, current :: older⟩)

def History.start : History := ⟨Heap.empty, [[]]⟩

/-- The end of the block, where the first document goes first. -/
def History.destroy (h : History) : Option (SharedHeap Model) :=
  release h.heap h.documents.reverse.flatten

/-- The same with values: an object is copied whole. -/
inductive Object
  | int (x : ℤ)
  | string (x : String)
  | document (x : List Object)
  | myClass

mutual

def Object.draw (position : ℕ) : Object → String
  | .int x => line position (toString x)
  | .string x => line position x
  | .document x =>
    line position "<document>" ++ Object.drawAll (position + 2) x ++ line position "</document>"
  | .myClass => line position "my_class_t()"

def Object.drawAll (position : ℕ) : List Object → String
  | [] => ""
  | o :: x => o.draw position ++ Object.drawAll position x

end

def objectOf (current : List Object) : Data → Option Object
  | .int x => some (.int x)
  | .string x => some (.string x)
  | .myClass => some .myClass
  | .current => some (.document current)
  | .element i => current[i]?

/-- A command on a history of values. -/
def callValues : List (List Object) → Command → Option (String × List (List Object))
  | [], _ => none
  | current :: older, .emplaceBack x => do
    let o ← objectOf current x
    return ("", (current ++ [o]) :: older)
  | current :: older, .assign i x => do
    let o ← objectOf current x
    let _ ← current[i]?
    return ("", current.set i o :: older)
  | current :: older, .commit => some ("", current :: current :: older)
  | _ :: older, .undo => some ("", older)
  | current :: older, .draw position =>
    some ((Object.document current).draw position, current :: older)

mutual

/-- The object that a pointer stands for, among the values that are live. -/
def Denotes (v : ℕ → Option Model) : Object → ℕ → Prop
  | .int x, a => v a = some (.int x)
  | .string x, a => v a = some (.string x)
  | .document os, a => ∃ x, v a = some (.document x) ∧ DenotesAll v os x
  | .myClass, a => v a = some .myClass

def DenotesAll (v : ℕ → Option Model) : List Object → List ℕ → Prop
  | [], x => x = []
  | o :: os, x => ∃ e x', x = e :: x' ∧ Denotes v o e ∧ DenotesAll v os x'

end

variable {m m' : SharedHeap Model} {v v' : ℕ → Option Model} {o : Object} {os : List Object}
  {a : ℕ} {x roots : List ℕ}

theorem denotesAll_iff : DenotesAll v os x ↔ List.Forall₂ (Denotes v) os x := by
  induction os generalizing x with
  | nil => rw [DenotesAll, List.forall₂_nil_left_iff]
  | cons o os ih =>
    rw [DenotesAll, List.forall₂_cons_left_iff]
    constructor
    · rintro ⟨e, x', rfl, he, hx⟩
      exact ⟨e, x', he, ih.mp hx, rfl⟩
    · rintro ⟨e, x', he, hx, rfl⟩
      exact ⟨e, x', rfl, he, ih.mpr hx⟩

mutual

/-- An object stands for the same as long as what it consists of is kept. -/
theorem Denotes.kept {P : ℕ → Prop} (hkept : ∀ a, P a → v' a = v a)
    (hparts : ∀ a x, P a → v a = some (.document x) → ∀ e ∈ x, P e) :
    ∀ (o : Object) (a : ℕ), P a → Denotes v o a → Denotes v' o a
  | .int _, a, ha, h => by
    rw [Denotes] at h ⊢
    rwa [hkept a ha]
  | .string _, a, ha, h => by
    rw [Denotes] at h ⊢
    rwa [hkept a ha]
  | .document os, a, ha, h => by
    rw [Denotes] at h ⊢
    obtain ⟨x, hx, hall⟩ := h
    refine ⟨x, (hkept a ha).trans hx, ?_⟩
    exact DenotesAll.kept hkept hparts os x (hparts a x ha hx) hall
  | .myClass, a, ha, h => by
    rw [Denotes] at h ⊢
    rwa [hkept a ha]

theorem DenotesAll.kept {P : ℕ → Prop} (hkept : ∀ a, P a → v' a = v a)
    (hparts : ∀ a x, P a → v a = some (.document x) → ∀ e ∈ x, P e) :
    ∀ (os : List Object) (x : List ℕ), (∀ e ∈ x, P e) → DenotesAll v os x → DenotesAll v' os x
  | [], _, _, h => by
    rw [DenotesAll] at h ⊢
    exact h
  | o :: os, _, hx, h => by
    rw [DenotesAll] at h ⊢
    obtain ⟨e, x, rfl, he, hall⟩ := h
    rw [List.forall_mem_cons] at hx
    exact ⟨e, x, rfl, Denotes.kept hkept hparts o e hx.1 he,
      DenotesAll.kept hkept hparts os x hx.2 hall⟩

end

theorem value_of_valueAt {y : Model} (h : m.valueAt a = some y) :
    ∃ c, m.objects a = some c ∧ c.value = y := Option.map_eq_some_iff.mp h

mutual

/-- Pointers draw as the values that they stand for. Each goes to an older object, and so `a + 1`
calls are enough. -/
theorem draw_eq (holder : ∀ a x, m.valueAt a = some (.document x) → ∀ e ∈ x, e < a) :
    ∀ (o : Object) (fuel position a : ℕ), a < fuel → Denotes m.valueAt o a →
      draw m fuel position a = some (o.draw position)
  | _, 0, _, _, ha, _ => absurd ha (Nat.not_lt_zero _)
  | .int x, fuel + 1, position, a, _, h => by
    rw [Denotes] at h
    obtain ⟨c, hc, hvalue⟩ := value_of_valueAt h
    rw [draw, hc, Option.bind_eq_bind, Option.bind_some, hvalue, Object.draw]
    rfl
  | .string x, fuel + 1, position, a, _, h => by
    rw [Denotes] at h
    obtain ⟨c, hc, hvalue⟩ := value_of_valueAt h
    rw [draw, hc, Option.bind_eq_bind, Option.bind_some, hvalue, Object.draw]
    rfl
  | .document os, fuel + 1, position, a, ha, h => by
    rw [Denotes] at h
    obtain ⟨x, hx, hall⟩ := h
    obtain ⟨c, hc, hvalue⟩ := value_of_valueAt hx
    have hlt : ∀ e ∈ x, e < fuel := fun e he => by
      have hea := holder a x hx e he
      omega
    rw [draw, hc, Option.bind_eq_bind, Option.bind_some, hvalue, Object.draw]
    change drawDocument (draw m fuel) position x = _
    rw [drawDocument, drawElements_eq holder os fuel (position + 2) x hlt hall]
    rfl
  | .myClass, fuel + 1, position, a, _, h => by
    rw [Denotes] at h
    obtain ⟨c, hc, hvalue⟩ := value_of_valueAt h
    rw [draw, hc, Option.bind_eq_bind, Option.bind_some, hvalue, Object.draw]
    rfl

theorem drawElements_eq (holder : ∀ a x, m.valueAt a = some (.document x) → ∀ e ∈ x, e < a) :
    ∀ (os : List Object) (fuel position : ℕ) (x : List ℕ), (∀ e ∈ x, e < fuel) →
      DenotesAll m.valueAt os x →
        drawElements (draw m fuel position) x = some (Object.drawAll position os)
  | [], _, _, _, _, h => by
    rw [DenotesAll] at h
    rw [h, drawElements, Object.drawAll]
  | o :: os, fuel, position, _, hx, h => by
    rw [DenotesAll] at h
    obtain ⟨e, x, rfl, he, hall⟩ := h
    rw [List.forall_mem_cons] at hx
    rw [drawElements, draw_eq holder o fuel position e hx.1 he,
      drawElements_eq holder os fuel position x hx.2 hall, Object.drawAll]
    rfl

end

theorem refsAt_document (h : m.valueAt a = some (.document x)) : m.refsAt Model.refs a = x := by
  rw [SharedHeap.refsAt, h, Option.elim_some]
  rfl

section Owns

open SharedHeap (Owns Fewer valueAt_make_self valueAt_make_of_ne)

variable {e : ℕ} {y : Model} {current : List ℕ} {objects : List Object}

theorem older_of_document (hh : Owns Model.refs m roots) :
    ∀ a x, m.valueAt a = some (.document x) → ∀ e ∈ x, e < a := by
  intro a x hx e he
  apply hh.older a e
  rwa [refsAt_document hx]

/-- What the remaining pointers stand for is untouched when other objects go. -/
theorem denotes_of_fewer (hh : Owns Model.refs m' roots) (hfewer : Fewer m m') (ha : a ∈ roots)
    (h : Denotes m.valueAt o a) : Denotes m'.valueAt o a := by
  have hkept : ∀ b, m'.objects b ≠ none → m'.valueAt b = m.valueAt b :=
    fun _ hb => hfewer.valueAt_eq hb
  refine h.kept hkept ?_ o a (hh.live_of_mem ha)
  intro b x hb hx e he
  have hmem : e ∈ m'.refsAt Model.refs b := by
    rwa [refsAt_document ((hkept b hb).trans hx)]
  exact hh.live_of_mem_refsAt hmem

/-- What a live object stands for is untouched when another one is made. -/
theorem denotes_make (hh : Owns Model.refs m roots) (ha : a ∈ roots)
    (h : Denotes m.valueAt o a) : Denotes (m.make y).2.valueAt o a := by
  refine h.kept (fun b hb => valueAt_make_of_ne (Nat.ne_of_lt hb)) ?_ o a (hh.lt_fresh_of_mem ha)
  intro b x hb hx e he
  exact (older_of_document hh b x hx e he).trans hb

/-- A pointer to an object with this value has been made, and no other has changed. -/
structure Made (m : SharedHeap Model) (roots : List ℕ) (p : ℕ × SharedHeap Model) (o : Object) :
    Prop where
  owns : Owns Model.refs p.2 (p.1 :: roots)
  denotes : Denotes p.2.valueAt o p.1
  kept : ∀ o a, a ∈ roots → Denotes m.valueAt o a → Denotes p.2.valueAt o a

theorem made_make (hh : Owns Model.refs m (y.refs ++ roots))
    (ho : Denotes (m.make y).2.valueAt o m.fresh) : Made m roots (m.make y) o where
  owns := hh.make
  denotes := ho
  kept _ _ ha h := denotes_make hh (List.mem_append_right _ ha) h

theorem getElem?_rel (hall : List.Forall₂ (Denotes v) objects x) (i : ℕ) :
    Option.Rel (Denotes v) objects[i]? x[i]? := by
  induction hall generalizing i with
  | nil => exact .none
  | cons he _ ih =>
    cases i with
    | zero => exact .some he
    | succ i => exact ih i

theorem forall₂_kept {l : List ℕ} (hkept : ∀ o a, a ∈ l → Denotes v o a → Denotes v' o a)
    (hsub : x ⊆ l) (hall : List.Forall₂ (Denotes v) os x) : List.Forall₂ (Denotes v') os x := by
  induction hall with
  | nil => exact .nil
  | cons he _ ih =>
    rw [List.cons_subset] at hsub
    exact .cons (hkept _ _ hsub.1 he) (ih hsub.2)

theorem documents_kept {l : List ℕ} {documents : List (List Object)} {xs : List (List ℕ)}
    (hkept : ∀ o a, a ∈ l → Denotes v o a → Denotes v' o a) (hsub : xs.flatten ⊆ l)
    (hall : List.Forall₂ (List.Forall₂ (Denotes v)) documents xs) :
    List.Forall₂ (List.Forall₂ (Denotes v')) documents xs := by
  induction hall with
  | nil => exact .nil
  | cons hx _ ih =>
    rw [List.flatten_cons, List.append_subset] at hsub
    exact .cons (forall₂_kept hkept hsub.1 hx) (ih hsub.2)

theorem forall₂_set (he : Denotes v o e) (hall : List.Forall₂ (Denotes v) os x) (i : ℕ) :
    List.Forall₂ (Denotes v) (os.set i o) (x.set i e) := by
  induction hall generalizing i with
  | nil => exact .nil
  | cons hfirst hothers ih =>
    cases i with
    | zero => exact .cons he hothers
    | succ i => exact .cons hfirst (ih i)

/-- Either an object is made of the data in both histories, or in neither. -/
theorem makeObject_rel (hh : Owns Model.refs m roots) (hsub : current ⊆ roots)
    (hall : List.Forall₂ (Denotes m.valueAt) objects current) (data : Data) :
    Option.Rel (Made m roots) (makeObject m current data) (objectOf objects data) := by
  cases data with
  | int n =>
    refine .some (made_make hh ?_)
    rw [Denotes, valueAt_make_self]
  | string n =>
    refine .some (made_make hh ?_)
    rw [Denotes, valueAt_make_self]
  | myClass =>
    refine .some (made_make hh ?_)
    rw [Denotes, valueAt_make_self]
  | current =>
    obtain ⟨m₁, hshare, hh₁, hvalue⟩ := hh.shareAll fun a ha => hh.live_of_mem (hsub ha)
    rw [makeObject, hshare]
    refine .some ⟨hh₁.make, ?_, ?_⟩
    · rw [Denotes]
      refine ⟨current, valueAt_make_self m₁ _, denotesAll_iff.mpr ?_⟩
      rw [← hvalue] at hall
      exact forall₂_kept (fun _ _ ha h => denotes_make hh₁ ha h)
        (List.subset_append_left current roots) hall
    · intro o a ha h
      rw [← hvalue] at h
      exact denotes_make hh₁ (List.mem_append_right _ ha) h
  | element i =>
    have hrel := getElem?_rel hall i
    rw [makeObject, objectOf]
    cases hi : current[i]? with
    | none =>
      rw [hi] at hrel
      generalize objects[i]? = found at hrel ⊢
      cases hrel
      exact .none
    | some e =>
      rw [hi] at hrel
      generalize objects[i]? = found at hrel ⊢
      cases hrel with
      | some he =>
        have hlive := hh.live_of_mem (hsub (List.mem_of_getElem? hi))
        obtain ⟨m₁, hshare, hh₁, hvalue⟩ := hh.share hlive
        rw [Option.bind_eq_bind, Option.bind_some, hshare]
        exact .some ⟨hh₁, hvalue ▸ he, fun _ _ _ h => hvalue ▸ h⟩

theorem release_spec (hh : Owns Model.refs m (x ++ roots)) :
    ∃ m', release m x = some m' ∧ Owns Model.refs m' roots ∧ Fewer m m' := hh.release le_rfl

/-- The shared objects are those that the pointers of the documents own, and the documents stand
for these values. -/
structure Represents (s : History) (documents : List (List Object)) : Prop where
  owns : Owns Model.refs s.heap s.documents.flatten
  denotes : List.Forall₂ (List.Forall₂ (Denotes s.heap.valueAt)) documents s.documents

variable {older : List (List ℕ)} {documents : List (List Object)}

theorem emplaceBack_agrees (hh : Owns Model.refs m (current :: older).flatten)
    (hcurrent : List.Forall₂ (Denotes m.valueAt) objects current)
    (holder : List.Forall₂ (List.Forall₂ (Denotes m.valueAt)) documents older) (data : Data) :
    Agree Represents (History.call ⟨m, current :: older⟩ (.emplaceBack data))
      (callValues (objects :: documents) (.emplaceBack data)) := by
  have hrel := makeObject_rel hh (List.subset_append_left current older.flatten) hcurrent data
  rw [History.call, callValues]
  generalize makeObject m current data = p at hrel ⊢
  generalize objectOf objects data = found at hrel ⊢
  cases hrel with
  | none => exact .none
  | @some p o hmade =>
    obtain ⟨e, m₁⟩ := p
    refine .some ⟨?_, ?_⟩
    · apply hmade.owns.perm
      rw [List.flatten_cons, List.flatten_cons, List.append_assoc]
      exact List.perm_middle
    · refine .cons ?_ ?_
      · apply List.rel_append
        · exact forall₂_kept hmade.kept (List.subset_append_left _ _) hcurrent
        · exact .cons hmade.denotes .nil
      · exact documents_kept hmade.kept (List.subset_append_right _ _) holder

theorem assign_agrees (hh : Owns Model.refs m (current :: older).flatten)
    (hcurrent : List.Forall₂ (Denotes m.valueAt) objects current)
    (holder : List.Forall₂ (List.Forall₂ (Denotes m.valueAt)) documents older) (i : ℕ)
    (data : Data) :
    Agree Represents (History.call ⟨m, current :: older⟩ (.assign i data))
      (callValues (objects :: documents) (.assign i data)) := by
  have hrel := makeObject_rel hh (List.subset_append_left current older.flatten) hcurrent data
  rw [History.call, callValues]
  generalize makeObject m current data = p at hrel ⊢
  generalize objectOf objects data = found at hrel ⊢
  cases hrel with
  | none => exact .none
  | @some p o hmade =>
    obtain ⟨e, m₁⟩ := p
    change Agree _ (current[i]?.bind _) (objects[i]?.bind _)
    by_cases hi : i < current.length
    · have hi' : i < objects.length := hcurrent.length_eq ▸ hi
      have hperm : ([current[i]] ++ (current.set i e ++ older.flatten)).Perm
          (e :: (current ++ older.flatten)) := by
        rw [← List.append_assoc, ← List.cons_append, List.singleton_append]
        apply List.Perm.append_right
        apply ((List.set_perm_cons_eraseIdx hi e).cons _).trans
        apply (List.Perm.swap _ _ _).trans
        exact (List.getElem_cons_eraseIdx_perm hi).cons e
      obtain ⟨m₂, hrelease, hh₂, hfewer⟩ := release_spec (hmade.owns.perm hperm)
      have hkept : ∀ o a, a ∈ current.set i e ++ older.flatten → Denotes m₁.valueAt o a →
          Denotes m₂.valueAt o a := fun _ _ ha h => denotes_of_fewer hh₂ hfewer ha h
      rw [List.getElem?_eq_getElem hi, List.getElem?_eq_getElem hi']
      change Agree _ ((release m₁ [current[i]]).bind _) _
      rw [hrelease]
      refine .some ⟨hh₂, .cons ?_ ?_⟩
      · apply forall₂_kept hkept (List.subset_append_left _ _)
        apply forall₂_set hmade.denotes
        exact forall₂_kept hmade.kept (List.subset_append_left _ _) hcurrent
      · apply documents_kept hkept (List.subset_append_right _ _)
        exact documents_kept hmade.kept (List.subset_append_right _ _) holder
    · have hi' : ¬i < objects.length := hcurrent.length_eq ▸ hi
      rw [List.getElem?_eq_none (Nat.le_of_not_lt hi),
        List.getElem?_eq_none (Nat.le_of_not_lt hi')]
      exact .none

theorem commit_agrees (hh : Owns Model.refs m (current :: older).flatten)
    (hcurrent : List.Forall₂ (Denotes m.valueAt) objects current)
    (holder : List.Forall₂ (List.Forall₂ (Denotes m.valueAt)) documents older) :
    Agree Represents (History.call ⟨m, current :: older⟩ .commit)
      (callValues (objects :: documents) .commit) := by
  obtain ⟨m₁, hshare, hh₁, hvalue⟩ :=
    hh.shareAll fun a ha => hh.live_of_mem (List.mem_append_left older.flatten ha)
  rw [← hvalue] at hcurrent holder
  rw [History.call, callValues, hshare]
  exact .some ⟨hh₁, .cons hcurrent (.cons hcurrent holder)⟩

theorem undo_agrees (hh : Owns Model.refs m (current :: older).flatten)
    (holder : List.Forall₂ (List.Forall₂ (Denotes m.valueAt)) documents older) :
    Agree Represents (History.call ⟨m, current :: older⟩ .undo)
      (callValues (objects :: documents) .undo) := by
  obtain ⟨m₁, hrelease, hh₁, hfewer⟩ := release_spec hh
  rw [History.call, callValues, hrelease]
  refine .some ⟨hh₁, ?_⟩
  exact documents_kept (fun _ _ ha h => denotes_of_fewer hh₁ hfewer ha h) (fun _ ha => ha) holder

theorem draw_agrees (hh : Owns Model.refs m (current :: older).flatten)
    (hcurrent : List.Forall₂ (Denotes m.valueAt) objects current)
    (holder : List.Forall₂ (List.Forall₂ (Denotes m.valueAt)) documents older) (position : ℕ) :
    Agree Represents (History.call ⟨m, current :: older⟩ (.draw position))
      (callValues (objects :: documents) (.draw position)) := by
  have hlt : ∀ e ∈ current, e < m.fresh :=
    fun e he => hh.lt_fresh_of_mem (List.mem_append_left _ he)
  rw [History.call, callValues, drawDocument, Object.draw,
    drawElements_eq (older_of_document hh) objects m.fresh (position + 2) current hlt
      (denotesAll_iff.mpr hcurrent)]
  exact .some ⟨hh, .cons hcurrent holder⟩

/-- Sharing cannot be seen: every command has the outcome that it has on values. -/
theorem call_simulates : Simulates Represents History.call callValues := by
  intro s documents c hs
  obtain ⟨m, pointers⟩ := s
  obtain ⟨hh, hdocuments⟩ := hs
  cases hdocuments with
  | nil => exact .none
  | cons hcurrent holder =>
    cases c with
    | emplaceBack data => exact emplaceBack_agrees hh hcurrent holder data
    | assign i data => exact assign_agrees hh hcurrent holder i data
    | commit => exact commit_agrees hh hcurrent holder
    | undo => exact undo_agrees hh holder
    | draw position => exact draw_agrees hh hcurrent holder position

theorem represents_start : Represents .start [[]] := ⟨.empty, .cons .nil .nil⟩

end Owns

/-- Every program on the history prints what it prints on values, where an object is copied whole,
or fails with it. -/
theorem serve_eq_values (cs : List Command) :
    (serve History.call .start cs).map Prod.fst = (serve callValues [[]] cs).map Prod.fst := by
  have hagree := call_simulates.serve cs .start [[]] represents_start
  generalize serve History.call .start cs = p at hagree ⊢
  generalize serve callValues [[]] cs = p' at hagree ⊢
  cases hagree with
  | none => rfl
  | some hp => exact congrArg some hp.1

/-- The number of open commits after the commands, with so many before them. `none` is an `undo` of
what was there before. -/
def opened : ℕ → List Command → Option ℕ
  | n, [] => some n
  | n, .commit :: cs => opened (n + 1) cs
  | 0, .undo :: _ => none
  | n + 1, .undo :: cs => opened n cs
  | n, _ :: cs => opened n cs

/-- Commands do not reach below the commits that they undo themselves. -/
theorem serve_keeps {cs : List Command} {n k : ℕ} (documents : List (List Object))
    {kept after : List (List Object)} {outs : List String} (hcs : opened n cs = some k)
    (hlen : documents.length = n + 1)
    (h : serve callValues (documents ++ kept) cs = some (outs, after)) :
    ∃ documents', after = documents' ++ kept ∧ documents'.length = k + 1 := by
  induction cs generalizing n documents outs with
  | nil =>
    obtain rfl : n = k := by simpa [opened] using hcs
    obtain ⟨-, rfl⟩ : [] = outs ∧ documents ++ kept = after := by simpa using h
    exact ⟨documents, rfl, hlen⟩
  | cons c cs ih =>
    obtain ⟨r, u, rs, hcall, hserve, rfl⟩ := serve_cons_eq_some h
    obtain ⟨current, older, rfl⟩ := List.exists_cons_of_length_eq_add_one hlen
    rw [List.length_cons, Nat.add_right_cancel_iff] at hlen
    rw [List.cons_append] at hcall
    cases c with
    | emplaceBack data =>
      obtain ⟨o, -, hu⟩ := Option.bind_eq_some_iff.mp hcall
      cases hu
      exact ih ((current ++ [o]) :: older) hcs (congrArg (· + 1) hlen) hserve
    | assign i data =>
      obtain ⟨o, -, hcall⟩ := Option.bind_eq_some_iff.mp hcall
      obtain ⟨old, -, hu⟩ := Option.bind_eq_some_iff.mp hcall
      cases hu
      exact ih (current.set i o :: older) hcs (congrArg (· + 1) hlen) hserve
    | commit =>
      cases hcall
      exact ih (current :: current :: older) hcs (congrArg (· + 2) hlen) hserve
    | undo =>
      cases hcall
      cases n with
      | zero => cases hcs
      | succ n => exact ih older hcs hlen hserve
    | draw position =>
      cases hcall
      exact ih (current :: older) hcs (congrArg (· + 1) hlen) hserve

/-- An `undo` brings the documents of its `commit` back. -/
theorem undo_restores {cs : List Command} {current : List Object} {older after : List (List Object)}
    {outs : List String} (hcs : opened 0 cs = some 0)
    (h : serve callValues (current :: older) (.commit :: (cs ++ [.undo])) = some (outs, after)) :
    after = current :: older := by
  obtain ⟨r, u, rs, hcall, hserve, rfl⟩ := serve_cons_eq_some h
  cases hcall
  obtain ⟨rs', t', u, -, hserve, hundo⟩ := serve_concat hserve
  obtain ⟨documents, rfl, hlen⟩ := serve_keeps [current] hcs rfl hserve
  obtain ⟨last, rfl⟩ := List.length_eq_one_iff.mp hlen
  cases hundo
  rfl

/-- What is drawn after an `undo` is what was drawn before its `commit`, whatever was done to the
shared objects in between. -/
theorem draw_undo {before cs : List Command} {position : ℕ} {outs outs' : List String}
    {text text' : String} {s s' : History} (hcs : opened 0 cs = some 0)
    (h : serve History.call .start (before ++ [.draw position]) = some (outs ++ [text], s))
    (h' : serve History.call s (.commit :: (cs ++ [.undo]) ++ [.draw position]) =
      some (outs' ++ [text'], s')) : text' = text := by
  have hagree := call_simulates.serve (before ++ [.draw position]) .start [[]] represents_start
  rw [h] at hagree
  obtain ⟨documents, hvalues, hs⟩ := hagree.eq_some
  have hagree' := call_simulates.serve (.commit :: (cs ++ [.undo]) ++ [.draw position]) s _ hs
  rw [h'] at hagree'
  obtain ⟨after, hvalues', -⟩ := hagree'.eq_some
  obtain ⟨rs, r, t, hlast, -, hdraw⟩ := serve_concat hvalues
  obtain ⟨rs', r', t', hlast', hserve, hdraw'⟩ := serve_concat hvalues'
  obtain rfl := (List.cons.inj (List.append_inj' hlast rfl).2).1
  cases t with
  | nil => cases hdraw
  | cons current older =>
    cases hdraw
    rw [undo_restores hcs hserve] at hdraw'
    cases hdraw'
    exact (List.cons.inj (List.append_inj' hlast' rfl).2).1

/-- What the pointers count: in every state a program comes to, the count of an object is the
number of pointers to it, the objects that are live are those that a document reaches, and at the
end of the block all go, each once. -/
theorem serve_owns (cs : List Command) {outs : List String} {s : History}
    (h : serve History.call .start cs = some (outs, s)) :
    (∀ a, s.heap.usesAt a =
        s.documents.flatten.count a + s.heap.inside Model.refs a) ∧
      (∀ a, s.heap.objects a ≠ none ↔ ∃ r ∈ s.documents.flatten,
        Relation.ReflTransGen (fun b d => d ∈ s.heap.refsAt Model.refs b) r a) ∧
      ∃ m, s.destroy = some m ∧ ∀ a, m.objects a = none := by
  have hagree := call_simulates.serve cs .start [[]] represents_start
  rw [h] at hagree
  obtain ⟨documents, -, hs⟩ := hagree.eq_some
  refine ⟨hs.owns.uses, hs.owns.live_iff, ?_⟩
  have hperm : (s.documents.reverse.flatten ++ []).Perm s.documents.flatten := by
    rw [List.append_nil]
    exact (List.reverse_perm _).flatten
  obtain ⟨m, hrelease, hm, -⟩ := release_spec (hs.owns.perm hperm)
  exact ⟨m, hrelease, hm.dead_of_nil⟩

def app : List Command :=
  [.emplaceBack (.int 0), .emplaceBack (.string "Hello!"), .draw 0, .commit, .emplaceBack .current,
    .emplaceBack .myClass, .assign 1 (.string "World"), .draw 0, .undo, .draw 0]

theorem serve_owns_app : ∃ outs s, serve History.call .start app = some (outs, s) ∧
    (∀ a, s.heap.usesAt a = s.documents.flatten.count a + s.heap.inside Model.refs a) ∧
      (∀ a, s.heap.objects a ≠ none ↔ ∃ r ∈ s.documents.flatten,
        Relation.ReflTransGen (fun b d => d ∈ s.heap.refsAt Model.refs b) r a) ∧
      ∃ m, s.destroy = some m ∧ ∀ a, m.objects a = none := by
  have hsome : (serve History.call .start app).isSome := by rfl
  obtain ⟨⟨outs, s⟩, h⟩ := Option.isSome_iff_exists.mp hsome
  exact ⟨outs, s, h, serve_owns app h⟩

end CppTricks.SeanParent
