import Mathlib.Data.List.GetD

/-! Sets of numbers as the bits of words, and their members in increasing order. -/
namespace Foundation

variable {w : ℕ} {words : List (BitVec w)} {l : BitVec w} {i o p : ℕ}

def bitAt (words : List (BitVec w)) (p : ℕ) : Bool := (words.getD (p / w) 0).getLsbD (p % w)

def setBit (words : List (BitVec w)) (o : ℕ) : List (BitVec w) :=
  words.set (o / w) (words.getD (o / w) 0 ||| 1#w <<< (o % w))

def positions (words : List (BitVec w)) : List ℕ :=
  (List.range (words.length * w)).filter fun p => bitAt words p

theorem getLsbD_or_shiftLeft (hi : i < w) (l : BitVec w) (j : ℕ) :
    (l ||| 1#w <<< i).getLsbD j = (l.getLsbD j || decide (j = i)) := by
  rw [BitVec.getLsbD_or, ← BitVec.twoPow_eq, BitVec.getLsbD_twoPow, decide_eq_true hi,
    Bool.true_and]
  simp only [eq_comm]

theorem and_shiftLeft_ne_zero_iff (hi : i < w) : l &&& 1#w <<< i ≠ 0 ↔ l.getLsbD i = true := by
  rw [← BitVec.twoPow_eq, BitVec.and_twoPow]
  split
  case isTrue h =>
    refine iff_of_true ?_ h
    intro hzero
    have hbit := congrArg (BitVec.getLsbD · i) hzero
    simp [hi] at hbit
  case isFalse h => exact iff_of_false (fun hne => hne rfl) h

theorem length_setBit (words : List (BitVec w)) (o : ℕ) :
    (setBit words o).length = words.length := List.length_set

theorem bitAt_setBit (ho : o < words.length * w) (p : ℕ) :
    bitAt (setBit words o) p = (bitAt words p || decide (p = o)) := by
  have hw : 0 < w := Nat.pos_of_ne_zero fun h => by simp [h] at ho
  have hword : o / w < words.length := Nat.div_lt_of_lt_mul (by rwa [Nat.mul_comm])
  have hpo : p = o ↔ p / w = o / w ∧ p % w = o % w := by
    constructor
    · rintro rfl
      exact ⟨rfl, rfl⟩
    · rintro ⟨hdiv, hmod⟩
      rw [← Nat.div_add_mod p w, hdiv, hmod, Nat.div_add_mod]
  unfold bitAt setBit
  by_cases hdiv : p / w = o / w
  · rw [hdiv, List.getD_eq_getElem?_getD, List.getElem?_set_self hword, Option.getD_some,
      getLsbD_or_shiftLeft (Nat.mod_lt o hw)]
    simp only [hpo, hdiv, true_and]
  · have hne : p ≠ o := fun h => hdiv (congrArg (· / w) h)
    rw [List.getD_eq_getElem?_getD, List.getElem?_set_ne (Ne.symm hdiv), decide_eq_false hne,
      Bool.or_false, List.getD_eq_getElem?_getD]

theorem bitAt_replicate (n p : ℕ) : bitAt (List.replicate n (0 : BitVec w)) p = false := by
  unfold bitAt
  rw [List.getD_eq_getElem?_getD, List.getElem?_getD_replicate_default_eq]
  exact BitVec.getLsbD_zero

theorem mem_positions : p ∈ positions words ↔ p < words.length * w ∧ bitAt words p = true := by
  unfold positions
  rw [List.mem_filter, List.mem_range]

theorem pairwise_positions (words : List (BitVec w)) : (positions words).Pairwise (· < ·) :=
  List.pairwise_lt_range.filter _

/-- The members that the bits of one more word stand for. -/
theorem positions_concat (words : List (BitVec w)) (l : BitVec w) :
    positions (words ++ [l]) = positions words ++
      ((List.range w).filter fun i => l.getLsbD i).map (words.length * w + ·) := by
  have hfront : ∀ p ∈ List.range (words.length * w), bitAt (words ++ [l]) p = bitAt words p := by
    intro p hp
    rw [List.mem_range] at hp
    unfold bitAt
    rw [List.getD_append _ _ _ _ (Nat.div_lt_of_lt_mul (by rwa [Nat.mul_comm]))]
  have hback : ∀ i ∈ List.range w, bitAt (words ++ [l]) (words.length * w + i) = l.getLsbD i := by
    intro i hi
    rw [List.mem_range] at hi
    unfold bitAt
    rw [Nat.mul_comm, Nat.mul_add_div (by omega), Nat.mul_add_mod, Nat.div_eq_of_lt hi,
      Nat.mod_eq_of_lt hi, Nat.add_zero, List.getD_append_right _ _ _ _ (Nat.le_refl _),
      Nat.sub_self]
    rfl
  unfold positions
  rw [List.length_append, List.length_singleton, Nat.succ_mul, List.range_add, List.filter_append,
    List.filter_congr hfront, List.filter_map]
  congr 2
  exact List.filter_congr hback

end Foundation
