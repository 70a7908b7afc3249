import Mathlib.Data.Finset.Card
import Mathlib.Data.Finset.Option

/-! Stretches of a sequence of marks, and how those of two sequences are compared. -/
namespace Foundation

/-- What an element says of the stretches of type `τ` around it. -/
inductive Mark (τ : Type*)
  | outside
  | begins (type : τ)
  | inside (type : τ)
  | plain

/-- The elements from `start` on, up to `stop`. -/
structure Stretch (τ : Type*) where
  start : ℕ
  stop : ℕ
  type : τ
  deriving DecidableEq

section Stretches

variable {τ : Type*} [DecidableEq τ]

namespace Mark

/-- An open stretch of this type ends in front of the element. -/
def closes (type : τ) : Mark τ → Bool
  | outside => true
  | begins _ => true
  | inside type' => type ≠ type'
  | plain => false

/-- The type of the stretch that starts at the element. -/
def opens (curr : Option τ) : Mark τ → Option τ
  | begins type => some type
  | inside type => if curr = some type then none else some type
  | _ => none

/-- The open stretch that ends at `i`. -/
def closed (curr : Option (ℕ × τ)) (i : ℕ) (mark : Mark τ) : Option (Stretch τ) :=
  curr.bind fun open_ => if mark.closes open_.2 then some ⟨open_.1, i, open_.2⟩ else none

/-- The stretch that is open behind `i`. -/
def next (curr : Option (ℕ × τ)) (i : ℕ) (mark : Mark τ) : Option (ℕ × τ) :=
  match mark.opens (curr.map Prod.snd) with
  | some type => some (i, type)
  | none => curr.filter fun open_ => !mark.closes open_.2

/-- The stretches that end. One that is open behind the last element does not. -/
def stretches (curr : Option (ℕ × τ)) (i : ℕ) : List (Mark τ) → Finset (Stretch τ)
  | [] => ∅
  | mark :: marks => (closed curr i mark).toFinset ∪ stretches (next curr i mark) (i + 1) marks

variable {curr : Option (ℕ × τ)} {i : ℕ} {mark : Mark τ} {s : Stretch τ}

@[simp] theorem stretches_cons (curr : Option (ℕ × τ)) (i : ℕ) (mark : Mark τ)
    (marks : List (Mark τ)) : stretches curr i (mark :: marks) =
      (closed curr i mark).toFinset ∪ stretches (next curr i mark) (i + 1) marks := rfl

theorem stop_of_mem_closed (h : s ∈ closed curr i mark) : s.stop = i := by
  obtain ⟨open_, -, h⟩ := Option.bind_eq_some_iff.mp h
  split_ifs at h
  rw [← Option.some.inj h]

theorem le_stop_of_mem_stretches {marks : List (Mark τ)} (h : s ∈ stretches curr i marks) :
    i ≤ s.stop := by
  induction marks generalizing curr i with
  | nil => exact absurd h (Finset.notMem_empty s)
  | cons mark marks ih =>
    rcases Finset.mem_union.mp h with hclosed | hrest
    · exact (stop_of_mem_closed (Option.mem_toFinset.mp hclosed)).ge
    · exact (Nat.le_succ i).trans (ih hrest)

/-- What ends at `i` is none of the stretches that end behind it. -/
theorem disjoint_closed (curr curr' : Option (ℕ × τ)) (i : ℕ) (mark : Mark τ)
    (marks : List (Mark τ)) :
    Disjoint (closed curr i mark).toFinset (stretches curr' (i + 1) marks) := by
  rw [Finset.disjoint_left]
  intro s hs hrest
  have hstop := stop_of_mem_closed (Option.mem_toFinset.mp hs)
  have hle := le_stop_of_mem_stretches hrest
  omega

theorem card_stretches_cons (curr : Option (ℕ × τ)) (i : ℕ) (mark : Mark τ)
    (marks : List (Mark τ)) : (stretches curr i (mark :: marks)).card =
      (closed curr i mark).toFinset.card + (stretches (next curr i mark) (i + 1) marks).card :=
  Finset.card_union_of_disjoint (disjoint_closed _ _ _ _ _)

theorem card_inter_stretches_cons (curr curr' : Option (ℕ × τ)) (i : ℕ) (mark mark' : Mark τ)
    (marks marks' : List (Mark τ)) :
    (stretches curr i (mark :: marks) ∩ stretches curr' i (mark' :: marks')).card =
      ((closed curr i mark).toFinset ∩ (closed curr' i mark').toFinset).card +
        (stretches (next curr i mark) (i + 1) marks ∩
          stretches (next curr' i mark') (i + 1) marks').card := by
  have hleft := Finset.disjoint_iff_inter_eq_empty.mp
    (disjoint_closed curr (next curr' i mark') i mark marks')
  have hright := Finset.disjoint_iff_inter_eq_empty.mp
    (disjoint_closed curr' (next curr i mark) i mark' marks).symm
  have hinter : stretches curr i (mark :: marks) ∩ stretches curr' i (mark' :: marks') =
      ((closed curr i mark).toFinset ∩ (closed curr' i mark').toFinset) ∪
        (stretches (next curr i mark) (i + 1) marks ∩
          stretches (next curr' i mark') (i + 1) marks') := by
    rw [stretches_cons, stretches_cons, Finset.union_inter_distrib_right,
      Finset.inter_union_distrib_left, Finset.inter_union_distrib_left, hleft, Finset.union_empty,
      hright, Finset.empty_union]
  rw [hinter, Finset.card_union_of_disjoint]
  exact (disjoint_closed curr (next curr i mark) i mark marks).mono Finset.inter_subset_left
    Finset.inter_subset_left

end Mark

end Stretches

end Foundation
