import Mathlib.Logic.Relation
import Mathlib.Data.Set.Basic
import Mathlib.Tactic.Tauto

/-! Labellings of a set whose fibres are the classes of a growing equivalence. -/
namespace Foundation

variable {α β : Type*}

/-- The equivalence closure of a list of pairs. -/
def Connected (pairs : List (α × α)) : α → α → Prop :=
  Relation.EqvGen fun a b => (a, b) ∈ pairs

namespace Connected

variable {pairs : List (α × α)} {a b c p q : α}

theorem refl (pairs : List (α × α)) (a : α) : Connected pairs a a :=
  Relation.EqvGen.refl a

theorem symm (h : Connected pairs a b) : Connected pairs b a := Relation.EqvGen.symm _ _ h

theorem trans (h : Connected pairs a b) (h' : Connected pairs b c) : Connected pairs a c :=
  Relation.EqvGen.trans _ _ _ h h'

theorem mono {more : List (α × α)} (hsub : ∀ x ∈ pairs, x ∈ more) (h : Connected pairs a b) :
    Connected more a b :=
  Relation.EqvGen.mono (fun x y hxy => hsub (x, y) hxy) a b h

@[simp] theorem nil_iff : Connected [] a b ↔ a = b := by
  constructor
  · intro h
    induction h with
    | rel x y hxy => exact absurd hxy (by simp)
    | refl x => rfl
    | symm x y _ ih => exact ih.symm
    | trans x y z _ _ ihxy ihyz => exact ihxy.trans ihyz
  · rintro rfl
    exact refl _ a

/-- One more pair joins two classes and leaves every other class alone. -/
theorem append_pair_iff :
    Connected (pairs ++ [(p, q)]) a b ↔
      Connected pairs a b ∨ (Connected pairs a p ∧ Connected pairs q b) ∨
        (Connected pairs a q ∧ Connected pairs p b) := by
  constructor
  · intro h
    induction h with
    | rel x y hxy =>
      rcases List.mem_append.mp hxy with hold | hnew
      · exact Or.inl (.rel x y hold)
      · obtain ⟨rfl, rfl⟩ : x = p ∧ y = q := by simpa using hnew
        exact Or.inr (Or.inl ⟨refl _ _, refl _ _⟩)
    | refl x => exact Or.inl (refl _ x)
    | symm x y _ ih =>
      rcases ih with h | ⟨hx, hy⟩ | ⟨hx, hy⟩
      · exact Or.inl h.symm
      · exact Or.inr (Or.inr ⟨hy.symm, hx.symm⟩)
      · exact Or.inr (Or.inl ⟨hy.symm, hx.symm⟩)
    | trans x y z _ _ ihxy ihyz =>
      rcases ihxy with h | ⟨hx, hy⟩ | ⟨hx, hy⟩ <;> rcases ihyz with h' | ⟨hy', hz⟩ | ⟨hy', hz⟩
      · exact Or.inl (h.trans h')
      · exact Or.inr (Or.inl ⟨h.trans hy', hz⟩)
      · exact Or.inr (Or.inr ⟨h.trans hy', hz⟩)
      · exact Or.inr (Or.inl ⟨hx, hy.trans h'⟩)
      · exact Or.inr (Or.inl ⟨hx, hz⟩)
      · exact Or.inl (hx.trans hz)
      · exact Or.inr (Or.inr ⟨hx, hy.trans h'⟩)
      · exact Or.inl (hx.trans hz)
      · exact Or.inr (Or.inr ⟨hx, hz⟩)
  · have hold : ∀ {x y}, Connected pairs x y → Connected (pairs ++ [(p, q)]) x y :=
      fun h => h.mono (by simp +contextual)
    have hnew : Connected (pairs ++ [(p, q)]) p q := .rel p q (by simp)
    rintro (h | ⟨ha, hb⟩ | ⟨ha, hb⟩)
    · exact hold h
    · exact ((hold ha).trans hnew).trans (hold hb)
    · exact ((hold ha).trans hnew.symm).trans (hold hb)

theorem append_pair_of_connected (hpq : Connected pairs p q) :
    Connected (pairs ++ [(p, q)]) a b ↔ Connected pairs a b := by
  rw [append_pair_iff]
  constructor
  · rintro (h | ⟨ha, hb⟩ | ⟨ha, hb⟩)
    · exact h
    · exact (ha.trans hpq).trans hb
    · exact (ha.trans hpq.symm).trans hb
  · exact Or.inl

end Connected

def merge [DecidableEq β] (label : α → β) (p q : α) : α → β :=
  fun x => if label x = label p then label q else label x

/-- On `s`, two elements carry one label exactly when `R` relates them. -/
def Represents (s : Set α) (label : α → β) (R : α → α → Prop) : Prop :=
  ∀ ⦃a⦄, a ∈ s → ∀ ⦃b⦄, b ∈ s → (label a = label b ↔ R a b)

namespace Represents

variable {s : Set α} {label label' : α → β} {pairs : List (α × α)} {p q : α}

theorem congr {R : α → α → Prop} (h : Represents s label R) (he : ∀ x ∈ s, label' x = label x) :
    Represents s label' R := by
  intro a ha b hb
  rw [he a ha, he b hb]
  exact h ha hb

/-- Merging the labels of `p` and `q` represents the closure with the pair `(p, q)` added. -/
theorem merge [DecidableEq β] (h : Represents s label (Connected pairs)) (hp : p ∈ s)
    (hq : q ∈ s) : Represents s (Foundation.merge label p q) (Connected (pairs ++ [(p, q)])) := by
  intro a ha b hb
  rw [Connected.append_pair_iff, ← h ha hb, ← h ha hp, ← h hq hb, ← h ha hq, ← h hp hb]
  unfold Foundation.merge
  by_cases hap : label a = label p <;> by_cases hbp : label b = label p
  · simp [hap, hbp]
  · simp only [hap, hbp, if_true, if_false, true_and]
    constructor
    · exact fun h => Or.inr (Or.inl h)
    · rintro (h | h | ⟨_, h⟩)
      · exact absurd h.symm hbp
      · exact h
      · exact absurd h.symm hbp
  · simp only [hap, hbp, if_true, if_false, false_and, false_or, and_true]
  · simp only [hap, hbp, if_false, false_and, false_or]
    constructor
    · exact Or.inl
    · rintro (h | ⟨_, h⟩)
      · exact h
      · exact absurd h.symm hbp

/-- A pair with equal labels needs no change of the labelling. -/
theorem append_pair (h : Represents s label (Connected pairs)) (hp : p ∈ s) (hq : q ∈ s)
    (hpq : label p = label q) : Represents s label (Connected (pairs ++ [(p, q)])) := by
  intro a ha b hb
  rw [Connected.append_pair_of_connected ((h hp hq).mp hpq)]
  exact h ha hb

end Represents
end Foundation
