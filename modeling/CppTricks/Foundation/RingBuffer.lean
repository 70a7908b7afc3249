import Mathlib.Data.List.Basic
import Mathlib.Data.Nat.ModEq

/-! A list kept in consecutive slots of a buffer that wraps around. -/
namespace Foundation.RingBuffer

variable {T : Type*} {buffer : List T} {start c : ℕ} {q : List T} {x : T}

/-- The elements of `q` stand in the slots from `start` on. -/
structure Holds (buffer : List T) (start : ℕ) (q : List T) : Prop where
  length_le : q.length ≤ buffer.length
  slot : ∀ i, i < q.length → buffer[(start + i) % buffer.length]? = q[i]?

theorem holds_nil (buffer : List T) (start : ℕ) : Holds buffer start [] :=
  ⟨Nat.zero_le _, fun _ hi => absurd hi (Nat.not_lt_zero _)⟩

/-- Different offsets below the size are different slots. -/
theorem slot_inj {i j : ℕ} (hi : i < c) (hj : j < c) (h : (start + i) % c = (start + j) % c) :
    i = j :=
  (Nat.ModEq.add_left_cancel' start h).eq_of_lt_of_lt hi hj

/-- The slot after the last element is the first one again only if the list is empty or fills the
buffer. -/
theorem slot_eq_start_iff {n : ℕ} (hstart : start < c) (hn : n ≤ c) :
    (start + n) % c = start ↔ n = 0 ∨ n = c := by
  constructor
  · intro h
    by_cases hnc : n = c
    · exact Or.inr hnc
    · have hlt : n < c := Nat.lt_of_le_of_ne hn hnc
      have hzero : (start + 0) % c = start := Nat.mod_eq_of_lt hstart
      exact Or.inl (slot_inj hlt (Nat.zero_lt_of_lt hstart) (h.trans hzero.symm))
  · intro h
    rcases h with rfl | rfl
    · exact Nat.mod_eq_of_lt hstart
    · rw [Nat.add_mod_right, Nat.mod_eq_of_lt hstart]

theorem Holds.write (h : Holds buffer start q) (hroom : q.length < buffer.length) (x : T) :
    Holds (buffer.set ((start + q.length) % buffer.length) x) start (q ++ [x]) := by
  constructor
  · simpa using Nat.succ_le_of_lt hroom
  · intro i hi
    rw [List.length_append, List.length_singleton] at hi
    rw [List.length_set]
    by_cases hlast : i = q.length
    · subst i
      have hslot : (start + q.length) % buffer.length < buffer.length :=
        Nat.mod_lt _ (Nat.zero_lt_of_lt hroom)
      rw [List.getElem?_set_self hslot, List.getElem?_concat_length]
    · have hlt : i < q.length := by omega
      have hne : (start + q.length) % buffer.length ≠ (start + i) % buffer.length := fun heq =>
        hlast (slot_inj hroom (hlt.trans hroom) heq).symm
      rw [List.getElem?_set_ne hne, List.getElem?_append_left hlt]
      exact h.slot i hlt

theorem Holds.front (h : Holds buffer start (x :: q)) : buffer[start % buffer.length]? = some x :=
  h.slot 0 (Nat.succ_pos _)

theorem Holds.tail (h : Holds buffer start (x :: q)) :
    Holds buffer ((start + 1) % buffer.length) q := by
  constructor
  · exact Nat.le_of_succ_le h.length_le
  · intro i hi
    rw [Nat.mod_add_mod, Nat.add_assoc, Nat.add_comm 1 i]
    exact h.slot (i + 1) (Nat.succ_lt_succ hi)

end Foundation.RingBuffer
