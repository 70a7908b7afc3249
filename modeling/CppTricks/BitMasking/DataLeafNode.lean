import CppTricks.Foundation.Arrays
import CppTricks.Foundation.BitMask
import CppTricks.Foundation.Loops

/-! `DataLeafNode`: a cube of cells with a mask of those that have been set. -/
namespace CppTricks.BitMasking
open Foundation

def dim : ℕ := 8

def log2Dim : ℕ := 3

abbrev Cell : Type := BitVec 8

structure DataLeafNode (T : Type) where
  maskBitBuffer : List Cell
  dataBuffer : List T

/-- `none` is a failed assertion. -/
def toOffset (x y z : ℤ) : Option ℕ :=
  if ¬(x < 8 ∧ y < 8 ∧ z < 8) then none
  else if ¬(0 ≤ x ∧ 0 ≤ y ∧ 0 ≤ z) then none
  else
    let offsetX := (x.toNat &&& (dim - 1)) <<< (2 * log2Dim)
    let offsetXY := offsetX + (y.toNat &&& (dim - 1)) <<< log2Dim
    let offset := offsetXY + (z.toNat &&& (dim - 1))
    some offset

namespace DataLeafNode

variable {T : Type}

def new (zero : T) : DataLeafNode T where
  maskBitBuffer := List.replicate (dim * dim) 0
  dataBuffer := List.replicate (dim * dim * dim) zero

/-- `none` is a failed assertion, or an access outside a buffer. -/
def setActive (node : DataLeafNode T) (x y z : ℤ) (val : T) : Option (DataLeafNode T) := do
  let offset ← toOffset x y z
  let index := offset / dim
  let shift := offset - index * dim
  let cell ← node.maskBitBuffer[index]?
  let maskBitBuffer ← assign node.maskBitBuffer index (cell ||| 1#8 <<< shift)
  let dataBuffer ← assign node.dataBuffer offset val
  return ⟨maskBitBuffer, dataBuffer⟩

/-- The loop over the bits of a cell, with the offsets and `whole_mask_ptr`. -/
def traverseCell (st : List ℕ × ℕ) (l : Cell) : List ℕ × ℕ :=
  (List.range dim).foldl (fun (offsets, wholeMaskPtr) i =>
    (if l &&& 1#8 <<< i ≠ 0 then offsets ++ [wholeMaskPtr] else offsets, wholeMaskPtr + 1)) st

def traverse (node : DataLeafNode T) : List ℕ :=
  (node.maskBitBuffer.foldl traverseCell ([], 0)).1

end DataLeafNode

structure Call (T : Type) where
  x : ℤ
  y : ℤ
  z : ℤ
  val : T

variable {T : Type} {zero : T} {calls : List (Call T)} {call : Call T} {x y z x' y' z' : ℤ}
  {node : DataLeafNode T} {offset : ℕ}

def Call.toOffset (call : Call T) : Option ℕ := BitMasking.toOffset call.x call.y call.z

def run (zero : T) (calls : List (Call T)) : Option (DataLeafNode T) :=
  calls.foldlM (fun node call => node.setActive call.x call.y call.z call.val) (.new zero)

/-- The value of the last call on a cell, or `T(0)`. -/
def lastValue (zero : T) (calls : List (Call T)) (offset : ℕ) : T :=
  ((calls.filter fun call => call.toOffset = some offset).getLast?.map Call.val).getD zero

/-! ### Offsets -/

def InCube (x y z : ℤ) : Prop := (0 ≤ x ∧ x < 8) ∧ (0 ≤ y ∧ y < 8) ∧ 0 ≤ z ∧ z < 8

theorem and_seven {n : ℕ} (h : n < 8) : n &&& (dim - 1) = n := by
  have hmod : n &&& (2 ^ 3 - 1) = n % 2 ^ 3 := Nat.and_two_pow_sub_one_eq_mod n 3
  exact hmod.trans (Nat.mod_eq_of_lt h)

theorem toOffset_natCast {i j k : ℕ} (hi : i < 8) (hj : j < 8) (hk : k < 8) :
    toOffset i j k = some (8 * (8 * i + j) + k) := by
  have hshift : i <<< (2 * log2Dim) + j <<< log2Dim + k = 8 * (8 * i + j) + k := by
    rw [Nat.shiftLeft_eq, Nat.shiftLeft_eq, Nat.mul_add, ← Nat.mul_assoc, Nat.mul_comm i,
      Nat.mul_comm j]
    rfl
  unfold toOffset
  rw [if_neg (by omega), if_neg (by omega), Int.toNat_natCast, Int.toNat_natCast,
    Int.toNat_natCast, and_seven hi, and_seven hj, and_seven hk, ← hshift]

theorem InCube.exists_natCast (h : InCube x y z) :
    ∃ i j k : ℕ, (i < 8 ∧ j < 8 ∧ k < 8) ∧ x = i ∧ y = j ∧ z = k := by
  obtain ⟨hx, hy, hz⟩ := h
  exact ⟨x.toNat, y.toNat, z.toNat, by omega, by omega, by omega, by omega⟩

theorem InCube.exists_toOffset (h : InCube x y z) : ∃ p < 512, toOffset x y z = some p := by
  obtain ⟨i, j, k, ⟨hi, hj, hk⟩, rfl, rfl, rfl⟩ := h.exists_natCast
  exact ⟨_, by omega, toOffset_natCast hi hj hk⟩

theorem digit_lt_iff {q q' r r' : ℕ} (hr : r < 8) (hr' : r' < 8) :
    8 * q + r < 8 * q' + r' ↔ q < q' ∨ q = q' ∧ r < r' := by omega

theorem digit_eq_iff {q q' r r' : ℕ} (hr : r < 8) (hr' : r' < 8) :
    8 * q + r = 8 * q' + r' ↔ q = q' ∧ r = r' := by omega

/-- The order of the offsets is that of the coordinates, `x` first. -/
theorem toOffset_order (h : InCube x y z) (h' : InCube x' y' z') :
    ∃ p p', toOffset x y z = some p ∧ toOffset x' y' z' = some p' ∧
      (p < p' ↔ x < x' ∨ x = x' ∧ (y < y' ∨ y = y' ∧ z < z')) ∧
      (p = p' ↔ x = x' ∧ y = y' ∧ z = z') := by
  obtain ⟨i, j, k, ⟨hi, hj, hk⟩, rfl, rfl, rfl⟩ := h.exists_natCast
  obtain ⟨i', j', k', ⟨hi', hj', hk'⟩, rfl, rfl, rfl⟩ := h'.exists_natCast
  refine ⟨_, _, toOffset_natCast hi hj hk, toOffset_natCast hi' hj' hk', ?_, ?_⟩
  · rw [digit_lt_iff hk hk', digit_lt_iff hj hj', digit_eq_iff hj hj']
    simp only [Int.ofNat_lt, Int.natCast_inj, or_assoc, and_assoc, and_or_left]
  · rw [digit_eq_iff hk hk', digit_eq_iff hj hj']
    simp only [Int.natCast_inj, and_assoc]

/-! ### The mask -/

theorem traverseBits_eq (l : Cell) (offsets : List ℕ) (wholeMaskPtr n : ℕ) (hn : n ≤ 8) :
    (List.range n).foldl (fun (offsets, wholeMaskPtr) i =>
      (if l &&& 1#8 <<< i ≠ 0 then offsets ++ [wholeMaskPtr] else offsets, wholeMaskPtr + 1))
        (offsets, wholeMaskPtr) =
      (offsets ++ ((List.range n).filter fun i => l.getLsbD i).map (wholeMaskPtr + ·),
        wholeMaskPtr + n) := by
  induction n with
  | zero => simp
  | succ n ih =>
    rw [List.range_succ, List.foldl_append, ih (by omega), List.foldl_cons, List.foldl_nil,
      List.filter_append, List.map_append, ← List.append_assoc]
    dsimp only
    by_cases hbit : l.getLsbD n
    · rw [if_pos ((and_shiftLeft_ne_zero_iff hn).mpr hbit), List.filter_cons_of_pos hbit]
      rfl
    · rw [if_neg (fun h => hbit ((and_shiftLeft_ne_zero_iff hn).mp h)),
        List.filter_cons_of_neg hbit, List.filter_nil, List.map_nil, List.append_nil]
      rfl

theorem foldl_traverseCell (words : List Cell) :
    words.foldl DataLeafNode.traverseCell ([], 0) = (positions words, words.length * 8) := by
  induction words using List.reverseRecOn with
  | nil => rfl
  | append_singleton words l ih =>
    rw [List.foldl_append, ih, List.foldl_cons, List.foldl_nil, positions_concat,
      List.length_append, List.length_singleton, Nat.succ_mul]
    exact traverseBits_eq l _ _ 8 le_rfl

theorem traverse_eq (node : DataLeafNode T) : node.traverse = positions node.maskBitBuffer := by
  unfold DataLeafNode.traverse
  rw [foldl_traverseCell]

/-! ### Runs -/

/-- The mask and the values after some calls. -/
structure Holds (zero : T) (calls : List (Call T)) (node : DataLeafNode T) : Prop where
  maskLength : node.maskBitBuffer.length = 64
  dataLength : node.dataBuffer.length = 512
  bitAt_iff : ∀ p, bitAt node.maskBitBuffer p = true ↔ ∃ call ∈ calls, call.toOffset = some p
  data : ∀ p < 512, node.dataBuffer[p]? = some (lastValue zero calls p)

theorem holds_new (zero : T) : Holds zero [] (.new zero) where
  maskLength := List.length_replicate
  dataLength := List.length_replicate
  bitAt_iff p := by
    unfold DataLeafNode.new
    rw [bitAt_replicate]
    simp
  data p hp := List.getElem?_replicate_of_lt hp

theorem lastValue_concat (zero : T) (calls : List (Call T)) (h : call.toOffset = some offset)
    (p : ℕ) : lastValue zero (calls ++ [call]) p =
      if offset = p then call.val else lastValue zero calls p := by
  unfold lastValue
  rw [List.filter_append]
  by_cases hp : offset = p
  · subst hp
    simp [h]
  · have hnot : ¬call.toOffset = some p := by
      rw [h, Option.some_inj]
      exact hp
    rw [if_neg hp, List.filter_cons_of_neg (by simpa using hnot), List.filter_nil,
      List.append_nil]

theorem setActive_eq (hmask : node.maskBitBuffer.length = 64) (hdata : node.dataBuffer.length = 512)
    (hoffset : toOffset x y z = some offset) (hlt : offset < 512) (val : T) :
    node.setActive x y z val =
      some ⟨setBit node.maskBitBuffer offset, node.dataBuffer.set offset val⟩ := by
  have hindex : offset / dim < node.maskBitBuffer.length := by
    unfold dim
    omega
  have hcell : node.maskBitBuffer[offset / dim]? =
      some (node.maskBitBuffer.getD (offset / dim) 0) := by
    rw [List.getD_eq_getElem _ _ hindex, List.getElem?_eq_getElem hindex]
  have hshift : offset - offset / dim * dim = offset % 8 := by
    unfold dim
    omega
  unfold DataLeafNode.setActive
  rw [hoffset, Option.bind_eq_bind, Option.bind_some]
  dsimp only
  rw [hcell, hshift, Option.bind_eq_bind, Option.bind_some, assign_eq hindex, Option.bind_eq_bind,
    Option.bind_some, assign_eq (hdata ▸ hlt)]
  rfl

theorem Holds.setActive (h : Holds zero calls node) (hcall : InCube call.x call.y call.z) :
    ∃ node', node.setActive call.x call.y call.z call.val = some node' ∧
      Holds zero (calls ++ [call]) node' := by
  obtain ⟨offset, hlt, hoffset⟩ := hcall.exists_toOffset
  refine ⟨_, setActive_eq h.maskLength h.dataLength hoffset hlt call.val, ?_, ?_, ?_, ?_⟩
  · exact (length_setBit _ _).trans h.maskLength
  · exact List.length_set.trans h.dataLength
  · intro p
    have hbound : offset < node.maskBitBuffer.length * 8 := by
      rw [h.maskLength]
      exact hlt
    rw [bitAt_setBit hbound, Bool.or_eq_true, h.bitAt_iff, decide_eq_true_eq]
    constructor
    · rintro (⟨other, hmem, hother⟩ | rfl)
      · exact ⟨other, List.mem_append_left _ hmem, hother⟩
      · exact ⟨call, List.mem_append_right _ List.mem_cons_self, hoffset⟩
    · rintro ⟨other, hmem, hother⟩
      rcases List.mem_append.mp hmem with hmem | hmem
      · exact .inl ⟨other, hmem, hother⟩
      · obtain rfl := List.mem_singleton.mp hmem
        exact .inr (Option.some.inj (hother.symm.trans hoffset))
  · intro p hp
    rw [lastValue_concat zero calls hoffset]
    by_cases heq : offset = p
    · subst heq
      rw [if_pos rfl]
      exact List.getElem?_set_self (h.dataLength ▸ hlt)
    · rw [if_neg heq, ← h.data p hp]
      exact List.getElem?_set_ne heq

theorem run_holds (zero : T) (calls : List (Call T))
    (hcalls : ∀ call ∈ calls, InCube call.x call.y call.z) :
    ∃ node, run zero calls = some node ∧ Holds zero calls node :=
  foldlM_prefix (P := fun done node => Holds zero done node) calls (by
    intro done call node hfront h
    have hmem : call ∈ calls := hfront.subset (List.mem_append_right _ List.mem_cons_self)
    exact h.setActive (hcalls call hmem)) _ (holds_new zero)

/-- After any calls on cells: the offsets of the cells that have been set, increasing, which is the
order of the coordinates, and for every cell the last value. -/
theorem run_traverse (zero : T) (calls : List (Call T))
    (hcalls : ∀ call ∈ calls, InCube call.x call.y call.z) :
    ∃ node, run zero calls = some node ∧ node.traverse.Pairwise (· < ·) ∧
      (∀ p, p ∈ node.traverse ↔ ∃ call ∈ calls, call.toOffset = some p) ∧
      (∀ x y z x' y' z', InCube x y z → InCube x' y' z' →
        ∃ p p', toOffset x y z = some p ∧ toOffset x' y' z' = some p' ∧
          (p < p' ↔ x < x' ∨ x = x' ∧ (y < y' ∨ y = y' ∧ z < z')) ∧
          (p = p' ↔ x = x' ∧ y = y' ∧ z = z')) ∧
      node.dataBuffer.length = 512 ∧
      ∀ p < 512, node.dataBuffer[p]? = some (lastValue zero calls p) := by
  obtain ⟨node, hrun, h⟩ := run_holds zero calls hcalls
  refine ⟨node, hrun, ?_, ?_, fun _ _ _ _ _ _ => toOffset_order, h.dataLength, h.data⟩
  · rw [traverse_eq]
    exact pairwise_positions _
  · intro p
    rw [traverse_eq, mem_positions, h.bitAt_iff, h.maskLength, and_iff_right_of_imp]
    rintro ⟨call, hmem, hoffset⟩
    obtain ⟨offset, hlt, hcell⟩ := (hcalls call hmem).exists_toOffset
    obtain rfl := Option.some.inj (hoffset.symm.trans hcell)
    exact hlt

theorem run_traverse_three : ∃ node,
    run 0 [⟨0, 0, 7, 5⟩, ⟨2, 3, 1, 4⟩, ⟨0, 0, 7, 6⟩] = some node ∧ node.traverse.Pairwise (· < ·) ∧
      (∀ p, p ∈ node.traverse ↔
        ∃ call ∈ ([⟨0, 0, 7, 5⟩, ⟨2, 3, 1, 4⟩, ⟨0, 0, 7, 6⟩] : List (Call ℕ)),
          call.toOffset = some p) ∧
      (∀ x y z x' y' z', InCube x y z → InCube x' y' z' →
        ∃ p p', toOffset x y z = some p ∧ toOffset x' y' z' = some p' ∧
          (p < p' ↔ x < x' ∨ x = x' ∧ (y < y' ∨ y = y' ∧ z < z')) ∧
          (p = p' ↔ x = x' ∧ y = y' ∧ z = z')) ∧
      node.dataBuffer.length = 512 ∧
      ∀ p < 512, node.dataBuffer[p]? =
        some (lastValue 0 [⟨0, 0, 7, 5⟩, ⟨2, 3, 1, 4⟩, ⟨0, 0, 7, 6⟩] p) :=
  run_traverse 0 [⟨0, 0, 7, 5⟩, ⟨2, 3, 1, 4⟩, ⟨0, 0, 7, 6⟩] (by
    unfold InCube
    decide)

example : lastValue 0 [⟨0, 0, 7, 5⟩, ⟨2, 3, 1, 4⟩, ⟨0, 0, 7, 6⟩] 7 = 6 := by decide

end CppTricks.BitMasking
