import Mathlib.Algebra.Order.Monoid.Canonical.Defs
import Mathlib.Data.List.Perm.Basic
import Mathlib.Order.Bounds.Basic

/-! Packing weights in bins that take at most two of them. -/
namespace Foundation

variable {M : Type*} [AddCommMonoid M] [LinearOrder M]

/-- The bins hold the weights of the list, at most two each, and none is above the capacity. -/
structure Packs (cap : M) (l : List M) (bins : List (List M)) : Prop where
  perm : bins.flatten.Perm l
  pair : ∀ bin ∈ bins, bin.length ≤ 2
  fits : ∀ bin ∈ bins, bin.sum ≤ cap

/-- The least number of bins. -/
def FewestBins (cap : M) (l : List M) (m : ℕ) : Prop :=
  IsLeast {m | ∃ bins, Packs cap l bins ∧ bins.length = m} m

variable {cap x y : M} {l l' mid : List M} {bin : List M} {bins : List (List M)} {m : ℕ}

namespace Packs

theorem nil (cap : M) : Packs cap [] [] := ⟨List.Perm.refl [], nofun, nofun⟩

theorem of_perm (h : Packs cap l bins) (hl : l.Perm l') : Packs cap l' bins :=
  ⟨h.perm.trans hl, h.pair, h.fits⟩

theorem cons (h : Packs cap l bins) (bin : List M) (hpair : bin.length ≤ 2)
    (hfits : bin.sum ≤ cap) : Packs cap (bin ++ l) (bin :: bins) := by
  constructor
  · exact h.perm.append_left bin
  · rw [List.forall_mem_cons]
    exact ⟨hpair, h.pair⟩
  · rw [List.forall_mem_cons]
    exact ⟨hfits, h.fits⟩

/-- The bin of one weight taken out, with what else is in it. -/
theorem take_out (h : Packs cap (x :: l) bins) : ∃ others l' bins', (others ++ l').Perm l ∧
    Packs cap l' bins' ∧ others.length ≤ 1 ∧ x + others.sum ≤ cap ∧
    bins'.length + 1 = bins.length := by
  have hmem : x ∈ bins.flatten := h.perm.mem_iff.mpr List.mem_cons_self
  obtain ⟨bin, hbin, hx⟩ := List.mem_flatten.mp hmem
  obtain ⟨pre, suf, rfl⟩ := List.append_of_mem hbin
  obtain ⟨front, back, rfl⟩ := List.append_of_mem hx
  have hpair := h.pair _ hbin
  have hfits := h.fits _ hbin
  rw [List.length_append, List.length_cons] at hpair
  rw [List.sum_append, List.sum_cons] at hfits
  refine ⟨front ++ back, (pre ++ suf).flatten, pre ++ suf, ?_, ⟨List.Perm.refl _, ?_, ?_⟩, ?_, ?_,
    ?_⟩
  · have hperm := h.perm
    rw [List.perm_iff_count] at hperm ⊢
    intro a
    have hcount := hperm a
    simp only [List.flatten_append, List.flatten_cons, List.count_append, List.count_cons]
      at hcount ⊢
    omega
  · intro bin hmem
    apply h.pair
    rw [List.mem_append, List.mem_cons]
    exact (List.mem_append.mp hmem).imp_right .inr
  · intro bin hmem
    apply h.fits
    rw [List.mem_append, List.mem_cons]
    exact (List.mem_append.mp hmem).imp_right .inr
  · rw [List.length_append]
    omega
  · rwa [List.sum_append, add_left_comm]
  · rw [List.length_append, List.length_append, List.length_cons]
    omega

/-- A weight too great for any other one has its bin for itself. -/
theorem alone (h : Packs cap (x :: l) bins) (hx : ∀ z ∈ l, cap < x + z) :
    ∃ bins', Packs cap l bins' ∧ bins'.length + 1 = bins.length := by
  obtain ⟨others, l', bins', hperm, hrest, hone, hfits, hlen⟩ := h.take_out
  match others with
  | [] => exact ⟨bins', hrest.of_perm hperm, hlen⟩
  | [z] =>
    have hz : z ∈ l := hperm.mem_iff.mp List.mem_cons_self
    rw [List.sum_singleton] at hfits
    exact absurd hfits (not_le.mpr (hx z hz))
  | _ :: _ :: _ => simp at hone

/-- Where the greatest weight and another one fit together, the weights that share their bins fit
together as well. -/
theorem exchange [IsOrderedAddMonoid M] [CanonicallyOrderedAdd M]
    (h : Packs cap (x :: y :: mid) bins) (hx : ∀ w ∈ mid, w ≤ x) :
    ∃ bins', Packs cap mid bins' ∧ bins'.length + 1 = bins.length := by
  obtain ⟨withX, l', bins', hperm, hrest, hone, hfits, hlen⟩ := h.take_out
  by_cases hy : y ∈ withX
  · -- the two are in one bin
    obtain rfl : withX = [y] := by
      match withX with
      | [] => cases hy
      | [z] => rw [List.mem_singleton.mp hy]
      | _ :: _ :: _ => simp at hone
    exact ⟨bins', hrest.of_perm ((List.perm_cons y).mp hperm), hlen⟩
  · have hyl : y ∈ l' := by
      have hmem := hperm.mem_iff.mpr (List.mem_cons_self : y ∈ y :: mid)
      exact (List.mem_append.mp hmem).resolve_left hy
    obtain ⟨withY, l'', bins'', hperm', hrest', hone', hfits', hlen'⟩ :=
      (hrest.of_perm (List.perm_cons_erase hyl)).take_out
    have hmid : (withX ++ withY ++ l'').Perm mid := by
      have herase := List.perm_cons_erase hyl
      rw [List.perm_iff_count] at hperm hperm' herase ⊢
      intro a
      have hcount := hperm a
      have hcount' := hperm' a
      have hcounte := herase a
      simp only [List.count_append, List.count_cons] at hcount hcount' hcounte ⊢
      omega
    have hsum : (withX ++ withY).sum ≤ cap := by
      rw [List.sum_append]
      match withY with
      | [] =>
        rw [List.sum_nil, add_zero]
        exact le_add_self.trans hfits
      | [w] =>
        have hw : w ≤ x := hx w (hmid.mem_iff.mp (by simp))
        rw [List.sum_singleton, add_comm]
        exact (add_le_add_left hw withX.sum).trans hfits
      | _ :: _ :: _ => simp at hone'
    refine ⟨(withX ++ withY) :: bins'', (hrest'.cons _ ?_ hsum).of_perm hmid, ?_⟩
    · rw [List.length_append]
      omega
    · rw [List.length_cons]
      omega

end Packs

namespace FewestBins

theorem nil (cap : M) : FewestBins cap [] 0 := ⟨⟨[], Packs.nil cap, rfl⟩, fun _ _ => Nat.zero_le _⟩

theorem of_perm (h : FewestBins cap l m) (hl : l.Perm l') : FewestBins cap l' m := by
  obtain ⟨⟨bins, hbins, hlen⟩, hleast⟩ := h
  refine ⟨⟨bins, hbins.of_perm hl, hlen⟩, ?_⟩
  intro k hk
  obtain ⟨bins', hbins', hlen'⟩ := hk
  exact hleast ⟨bins', hbins'.of_perm hl.symm, hlen'⟩

theorem cons_alone (h : FewestBins cap l m) (hcap : x ≤ cap) (hx : ∀ z ∈ l, cap < x + z) :
    FewestBins cap (x :: l) (m + 1) := by
  obtain ⟨⟨bins, hbins, rfl⟩, hleast⟩ := h
  refine ⟨⟨[x] :: bins, hbins.cons [x] (Nat.le_succ 1) ?_, rfl⟩, ?_⟩
  · rwa [List.sum_singleton]
  · intro k hk
    obtain ⟨bins', hbins', rfl⟩ := hk
    obtain ⟨bins'', hbins'', hlen⟩ := hbins'.alone hx
    have hle := hleast ⟨bins'', hbins'', rfl⟩
    omega

theorem cons_pair [IsOrderedAddMonoid M] [CanonicallyOrderedAdd M] (h : FewestBins cap mid m)
    (hxy : x + y ≤ cap) (hx : ∀ w ∈ mid, w ≤ x) : FewestBins cap (x :: y :: mid) (m + 1) := by
  obtain ⟨⟨bins, hbins, rfl⟩, hleast⟩ := h
  refine ⟨⟨[x, y] :: bins, hbins.cons [x, y] (Nat.le_refl 2) ?_, rfl⟩, ?_⟩
  · rwa [List.sum_pair]
  · intro k hk
    obtain ⟨bins', hbins', rfl⟩ := hk
    obtain ⟨bins'', hbins'', hlen⟩ := hbins'.exchange hx
    have hle := hleast ⟨bins'', hbins'', rfl⟩
    omega

end FewestBins

end Foundation
