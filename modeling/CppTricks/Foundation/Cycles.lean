import Mathlib.Data.Set.Insert
import Mathlib.Logic.Function.Basic

/-! A memory permuted in place, one set of places after another. -/
namespace Foundation

variable {ι τ : Type} {σ : ι → ι} {old f f' : ι → τ} {D C : Set ι} {x : ι}

/-- The places in `D` have what was at the place that `σ` gives, the others what they had. -/
structure Moved (σ : ι → ι) (old : ι → τ) (D : Set ι) (f : ι → τ) : Prop where
  moved : ∀ x ∈ D, f x = old (σ x)
  kept : ∀ x ∉ D, f x = old x

theorem moved_empty (σ : ι → ι) (old : ι → τ) : Moved σ old ∅ old :=
  ⟨fun x hx => absurd hx (Set.notMem_empty x), fun _ _ => rfl⟩

/-- Places that `σ` keeps among themselves, none of them moved before, are moved at a time. -/
theorem Moved.union (h : Moved σ old D f) (hdisj : ∀ x ∈ C, x ∉ D) (hσ : ∀ x ∈ C, σ x ∈ C)
    (hmoved : ∀ x ∈ C, f' x = f (σ x)) (hkept : ∀ x ∉ C, f' x = f x) :
    Moved σ old (D ∪ C) f' := by
  constructor
  · intro x hx
    by_cases hC : x ∈ C
    · rw [hmoved x hC]
      exact h.kept _ (hdisj _ (hσ x hC))
    · rw [hkept x hC]
      exact h.moved x (hx.resolve_right hC)
  · intro x hx
    rw [Set.mem_union, not_or] at hx
    rw [hkept x hx.2]
    exact h.kept x hx.1

theorem Moved.eq (h : Moved σ old D f) (hx : x ∉ D → σ x = x) : f x = old (σ x) := by
  by_cases hD : x ∈ D
  · exact h.moved x hD
  · rw [hx hD]
    exact h.kept x hD

/-- Four places hand over in a circle: the first one, whose content is kept aside, takes what the
second one has, and so on. -/
theorem update_circle [DecidableEq ι] {a b c d : ι} {f₁ f₂ f₃ f₄ : ι → τ}
    (hne : [a, b, c, d].Nodup) (hσ : σ a = b ∧ σ b = c ∧ σ c = d ∧ σ d = a)
    (h₁ : f₁ = Function.update f a (f b)) (h₂ : f₂ = Function.update f₁ b (f₁ c))
    (h₃ : f₃ = Function.update f₂ c (f₂ d)) (h₄ : f₄ = Function.update f₃ d (f a)) :
    (∀ x ∈ ({a, b, c, d} : Set ι), f₄ x = f (σ x)) ∧ ∀ x ∉ ({a, b, c, d} : Set ι), f₄ x = f x := by
  obtain ⟨hσa, hσb, hσc, hσd⟩ := hσ
  simp only [List.nodup_cons, List.mem_cons, List.not_mem_nil, or_false, not_or] at hne
  obtain ⟨⟨hab, hac, had⟩, ⟨hbc, hbd⟩, hcd, -⟩ := hne
  -- no place has been written before it is read
  have hc : f₁ c = f c := by rw [h₁, Function.update_of_ne (Ne.symm hac)]
  have hd : f₂ d = f d := by
    rw [h₂, Function.update_of_ne (Ne.symm hbd), h₁, Function.update_of_ne (Ne.symm had)]
  rw [hc] at h₂
  rw [hd] at h₃
  constructor
  · rintro x (rfl | rfl | rfl | rfl)
    · rw [h₄, Function.update_of_ne had, h₃, Function.update_of_ne hac, h₂,
        Function.update_of_ne hab, h₁, Function.update_self, hσa]
    · rw [h₄, Function.update_of_ne hbd, h₃, Function.update_of_ne hbc, h₂, Function.update_self,
        hσb]
    · rw [h₄, Function.update_of_ne hcd, h₃, Function.update_self, hσc]
    · rw [h₄, Function.update_self, hσd]
  · intro x hx
    simp only [Set.mem_insert_iff, Set.mem_singleton_iff, not_or] at hx
    obtain ⟨hxa, hxb, hxc, hxd⟩ := hx
    rw [h₄, Function.update_of_ne hxd, h₃, Function.update_of_ne hxc, h₂,
      Function.update_of_ne hxb, h₁, Function.update_of_ne hxa]

end Foundation
