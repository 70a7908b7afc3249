import Mathlib.Data.List.Sort

/-! Sorting by one key, and then by another one with a sort that is stable. -/
namespace Foundation

variable {α β γ : Type*} [LinearOrder β] [LinearOrder γ] {first : α → β} {second : α → γ}
  {xs ys : List α}

/-- Descending by `first`, and by `second` among equals. -/
def Precedes (first : α → β) (second : α → γ) (a b : α) : Prop :=
  first b < first a ∨ first a = first b ∧ second b ≤ second a

def descending (first : α → β) (a b : α) : Bool := first b ≤ first a

def sortBy (first : α → β) (xs : List α) : List α := xs.mergeSort (descending first)

theorem descending_trans (first : α → β) (a b c : α) (hab : descending first a b = true)
    (hbc : descending first b c = true) : descending first a c = true := by
  rw [descending, decide_eq_true_eq] at hab hbc ⊢
  exact hbc.trans hab

theorem descending_total (first : α → β) (a b : α) :
    (descending first a b || descending first b a) = true := by
  simpa [descending] using le_total (first b) (first a)

theorem sortBy_perm (first : α → β) (xs : List α) : (sortBy first xs).Perm xs :=
  List.mergeSort_perm xs _

theorem pairwise_sortBy (first : α → β) (xs : List α) :
    (sortBy first xs).Pairwise fun a b => first b ≤ first a :=
  (List.pairwise_mergeSort (descending_trans first) (descending_total first) xs).imp
    of_decide_eq_true

/-- Elements with equal keys stay in their order. -/
theorem filter_sortBy (first : α → β) (xs : List α) (k : β) :
    (sortBy first xs).filter (fun x => first x = k) = xs.filter fun x => first x = k := by
  have hequal : (xs.filter fun x => first x = k).Pairwise fun a b => descending first a b := by
    refine List.pairwise_of_forall_mem_list fun a ha b hb => ?_
    rw [List.mem_filter, decide_eq_true_eq] at ha hb
    rw [descending, decide_eq_true_eq, ha.2, hb.2]
  have hsub := List.sublist_mergeSort (descending_trans first) (descending_total first) hequal
    (List.filter_sublist (l := xs))
  have hfilter := hsub.filter fun x => first x = k
  rw [List.filter_filter] at hfilter
  simp only [Bool.and_self] at hfilter
  refine (hfilter.eq_of_length ?_).symm
  exact ((sortBy_perm first xs).filter _).length_eq.symm

/-- The two sorts order by both keys. -/
theorem pairwise_precedes_sortBy (h : xs.Pairwise fun a b => second b ≤ second a) :
    (sortBy first xs).Pairwise (Precedes first second) := by
  rw [List.pairwise_iff_forall_sublist]
  intro a b hab
  have hle := List.pairwise_iff_forall_sublist.mp (pairwise_sortBy first xs) hab
  rcases hle.lt_or_eq with hlt | heq
  · exact Or.inl hlt
  · have hsub : [a, b].Sublist xs := by
      have hfilter := hab.filter fun x => first x = first a
      rw [filter_sortBy] at hfilter
      simp only [List.filter_cons, heq, decide_true, if_true, List.filter_nil] at hfilter
      exact hfilter.trans List.filter_sublist
    exact Or.inr ⟨heq.symm, List.pairwise_iff_forall_sublist.mp h hsub⟩

/-- Where the keys tell the elements apart, there is one order by both. -/
theorem eq_of_pairwise_precedes (hkeys : ∀ a b, first a = first b → second a = second b → a = b)
    (hperm : xs.Perm ys) (hxs : xs.Pairwise (Precedes first second))
    (hys : ys.Pairwise (Precedes first second)) : xs = ys := by
  refine List.Perm.eq_of_pairwise ?_ hxs hys hperm
  rintro a b - - (hab | ⟨hab, hab'⟩) (hba | ⟨hba, hba'⟩)
  · exact absurd (hab.trans hba) (lt_irrefl _)
  · exact absurd hba hab.ne
  · exact absurd hab hba.ne
  · exact hkeys a b hab (le_antisymm hba' hab')

end Foundation
