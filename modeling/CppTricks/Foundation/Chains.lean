import CppTricks.Foundation.Memory

/-! Singly linked lists in a memory, as lists of their nodes' addresses and elements. -/
namespace Foundation

/-- A null pointer is `none`. -/
structure Node (T : Type) where
  elem : T
  next : Option ℕ

variable {T : Type}

/-- From `p` on the nodes follow one another, up to the pointer `q`. -/
def Segment (m : Memory (Node T)) : Option ℕ → List (ℕ × T) → Option ℕ → Prop
  | p, [], q => p = q
  | p, (a, x) :: nodes, q => p = some a ∧ ∃ next, m.objects a = some ⟨x, next⟩ ∧
      Segment m next nodes q

/-- From `p` on the nodes follow one another, and the last one points nowhere. -/
def Chain (m : Memory (Node T)) (p : Option ℕ) (nodes : List (ℕ × T)) : Prop :=
  Segment m p nodes none

/-- The address is come by following `next` from `p` on. -/
def Reaches (m : Memory (Node T)) (p : Option ℕ) (a : ℕ) : Prop :=
  ∃ nodes, Segment m p nodes (some a)

variable {m m' : Memory (Node T)} {p q r : Option ℕ} {nodes xs ys : List (ℕ × T)} {a t : ℕ}
  {x y : T} {old l : List ℕ}

theorem segment_append :
    Segment m p (xs ++ ys) q ↔ ∃ r, Segment m p xs r ∧ Segment m r ys q := by
  induction xs generalizing p with
  | nil =>
    constructor
    · intro h
      exact ⟨p, rfl, h⟩
    · rintro ⟨r, rfl, h⟩
      exact h
  | cons node xs ih =>
    obtain ⟨a, x⟩ := node
    constructor
    · rintro ⟨hp, next, hnode, hrest⟩
      obtain ⟨r, hxs, hys⟩ := ih.mp hrest
      exact ⟨r, ⟨hp, next, hnode, hxs⟩, hys⟩
    · rintro ⟨r, ⟨hp, next, hnode, hxs⟩, hys⟩
      exact ⟨hp, next, hnode, ih.mpr ⟨r, hxs, hys⟩⟩

theorem Segment.congr (h : Segment m p nodes q)
    (hagree : ∀ a ∈ nodes.map Prod.fst, m'.objects a = m.objects a) : Segment m' p nodes q := by
  induction nodes generalizing p with
  | nil => exact h
  | cons node nodes ih =>
    obtain ⟨a, x⟩ := node
    obtain ⟨hp, next, hnode, hrest⟩ := h
    rw [List.map_cons, List.forall_mem_cons] at hagree
    exact ⟨hp, next, hagree.1.trans hnode, ih hrest hagree.2⟩

theorem Segment.live (h : Segment m p nodes q) :
    ∀ a ∈ nodes.map Prod.fst, m.objects a ≠ none := by
  induction nodes generalizing p with
  | nil => exact fun a ha => absurd ha List.not_mem_nil
  | cons node nodes ih =>
    obtain ⟨a, x⟩ := node
    obtain ⟨-, next, hnode, hrest⟩ := h
    rw [List.map_cons, List.forall_mem_cons]
    refine ⟨?_, ih hrest⟩
    rw [hnode]
    exact Option.some_ne_none _

namespace Chain

theorem eq_none_iff (h : Chain m p nodes) : p = none ↔ nodes = [] := by
  cases nodes with
  | nil => exact iff_of_true h rfl
  | cons node nodes =>
    obtain ⟨hp, -⟩ := h
    rw [hp]
    exact iff_of_false (Option.some_ne_none _) (List.cons_ne_nil _ _)

theorem ne_none_of_concat {node : ℕ × T} (h : Chain m p (xs ++ [node])) : p ≠ none := by
  rw [Ne, h.eq_none_iff]
  exact List.append_ne_nil_of_right_ne_nil xs (List.cons_ne_nil node [])

theorem unique (h : Chain m p xs) (h' : Chain m p ys) : xs = ys := by
  induction xs generalizing p ys with
  | nil => exact (h'.eq_none_iff.mp h).symm
  | cons node xs ih =>
    obtain ⟨a, x⟩ := node
    obtain ⟨rfl, next, hnode, hrest⟩ := h
    cases ys with
    | nil => cases h'
    | cons node' ys =>
      obtain ⟨b, y⟩ := node'
      obtain ⟨hb, next', hnode', hrest'⟩ := h'
      obtain rfl := Option.some.inj hb
      rw [hnode] at hnode'
      obtain ⟨rfl, rfl⟩ := Node.mk.inj (Option.some.inj hnode')
      rw [ih hrest hrest']

/-- From every one of its nodes on, the rest of a chain is a chain. -/
theorem suffix (h : Chain m p (xs ++ (a, x) :: ys)) : Chain m (some a) ((a, x) :: ys) := by
  obtain ⟨r, -, hrest⟩ := segment_append.mp h
  obtain ⟨rfl, hnode⟩ := hrest
  exact ⟨rfl, hnode⟩

theorem nodup (h : Chain m p nodes) : (nodes.map Prod.fst).Nodup := by
  induction nodes generalizing p with
  | nil => exact .nil
  | cons node nodes ih =>
    obtain ⟨a, x⟩ := node
    obtain ⟨rfl, next, hnode, hrest⟩ := h
    rw [List.map_cons, List.nodup_cons]
    refine ⟨?_, ih hrest⟩
    intro hmem
    obtain ⟨⟨b, y⟩, hb, rfl⟩ := List.mem_map.mp hmem
    obtain ⟨us, vs, rfl⟩ := List.append_of_mem hb
    have hwhole : Chain m (some b) ((b, x) :: (us ++ (b, y) :: vs)) := ⟨rfl, next, hnode, hrest⟩
    have hlength := congrArg List.length (hwhole.unique (suffix hrest))
    simp only [List.length_cons, List.length_append] at hlength
    omega

theorem live (h : Chain m p nodes) : ∀ a ∈ nodes.map Prod.fst, m.objects a ≠ none := Segment.live h

/-- Following the pointers one comes to the nodes of the chain, and to nothing else. -/
theorem reaches_iff (h : Chain m p nodes) : Reaches m p a ↔ a ∈ nodes.map Prod.fst := by
  constructor
  · rintro ⟨us, hsegment⟩
    induction us generalizing p nodes with
    | nil =>
      obtain rfl : p = some a := hsegment
      cases nodes with
      | nil => cases h
      | cons node nodes =>
        obtain ⟨hp, -⟩ := h
        rw [Option.some.inj hp]
        exact List.mem_cons_self
    | cons node us ih =>
      obtain ⟨b, y⟩ := node
      obtain ⟨rfl, next, hnode, hrest⟩ := hsegment
      cases nodes with
      | nil => cases h
      | cons node' nodes =>
        obtain ⟨c, z⟩ := node'
        obtain ⟨hc, next', hnode', hrest'⟩ := h
        obtain rfl := Option.some.inj hc
        rw [hnode] at hnode'
        obtain ⟨-, rfl⟩ := Node.mk.inj (Option.some.inj hnode')
        exact List.mem_cons_of_mem _ (ih hrest' hrest)
  · intro hmem
    obtain ⟨⟨b, y⟩, hb, rfl⟩ := List.mem_map.mp hmem
    obtain ⟨us, vs, rfl⟩ := List.append_of_mem hb
    obtain ⟨r, hfront, hrest⟩ := segment_append.mp h
    obtain ⟨rfl, -⟩ := hrest
    exact ⟨us, hfront⟩

/-- Others may do with their nodes what they like. -/
theorem of_replaces (h : Chain m p nodes) (hreplaces : m.Replaces m' old l)
    (hnot : ∀ a ∈ nodes.map Prod.fst, a ∉ old) : Chain m' p nodes :=
  Segment.congr h fun a ha => (hreplaces.objects_eq (hnot a ha) (h.live a ha)).1

theorem last (h : Chain m p (xs ++ [(t, x)])) : m.objects t = some ⟨x, none⟩ := by
  obtain ⟨-, next, hnode, rfl⟩ := suffix h
  exact hnode

/-- The last node is set to point to one that is the last then. -/
theorem concat (h : Chain m p (xs ++ [(t, x)]))
    (hagree : ∀ a ∈ xs.map Prod.fst, m'.objects a = m.objects a)
    (ht : m'.objects t = some ⟨x, some a⟩) (ha : m'.objects a = some ⟨y, none⟩) :
    Chain m' p (xs ++ [(t, x), (a, y)]) := by
  obtain ⟨r, hfront, hlast⟩ := segment_append.mp h
  obtain ⟨rfl, -⟩ := hlast
  exact segment_append.mpr ⟨some t, hfront.congr hagree, rfl, some a, ht, rfl, none, ha, rfl⟩

end Chain
end Foundation
