import CppTricks.Foundation.FixedWidth
import CppTricks.Foundation.Loops
import Mathlib.Algebra.BigOperators.Group.List.Basic
import Mathlib.Algebra.Ring.Int.Defs

/-! The two loops that sum up a file of `int`s, `TEST(Amazon, OptBigBin)` and
`TEST(Amazon, OptBigBin_mod)`, with exact sums. -/
namespace CppTricks.Amazon
open Foundation

/-- An `ifstream` that was opened: what was not read yet, and the state of the last read. -/
structure Ifstream where
  rest : List UInt8
  gcount : ℕ
  eof : Bool

def Ifstream.openFile (file : List UInt8) : Ifstream := ⟨file, 0, false⟩

def Ifstream.read (file : Ifstream) (n : ℕ) : List UInt8 × Ifstream :=
  if file.eof then ([], { file with gcount := 0 })
  else (file.rest.take n,
    ⟨file.rest.drop n, (file.rest.take n).length, decide (file.rest.length < n)⟩)

/-- What `bytes` leave of the bytes of `buff` when they are stored from its start on. -/
def store (buff bytes : List UInt8) : List UInt8 := bytes ++ buff.drop bytes.length

/-- The `int` that these bytes are, the lowest first. -/
def intOf (bytes : List UInt8) : ℤ := toInt (bytes.foldr (fun b n => b.toNat + 256 * n) 0)

/-- `sizeof(unsigned int)` -/
def pointSizeof : ℕ := 4

def countPoints : ℕ := 1024 * 2 * 2

def zeros (count : ℕ) : List UInt8 := List.replicate (pointSizeof * count) 0

/-- The loop of `OptBigBin`, with the bytes of `i`. `none` is a loop that was cut off. -/
def plainLoop : ℕ → Ifstream → List UInt8 → ℤ → Option ℤ
  | 0, _, _, _ => none
  | fuel + 1, file, i, sum =>
    if file.eof then some sum
    else
      let (bytes, file) := file.read pointSizeof
      let i := store i bytes
      plainLoop fuel file (zeros 1) (sum + intOf i)

def optBigBin (fuel : ℕ) (file : List UInt8) : Option ℤ :=
  plainLoop fuel (.openFile file) (zeros 1) 0

/-- `buffer[j]` -/
def point (buffer : List UInt8) (j : ℕ) : Option ℤ :=
  if (j + 1) * pointSizeof ≤ buffer.length then
    some (intOf ((buffer.drop (j * pointSizeof)).take pointSizeof))
  else none

/-- An access to `buffer[j]` when the latest read stored `gcount` bytes. -/
structure Access where
  j : ℕ
  gcount : ℕ
  deriving DecidableEq

/-- `sum += buffer[j]` -/
def addPoint (buffer : List UInt8) (gcount : ℕ) (st : ℤ × List Access) (j : ℕ) :
    Option (ℤ × List Access) := do
  let x ← point buffer j
  return (st.1 + x, st.2 ++ [⟨j, gcount⟩])

/-- The loop of `OptBigBin_mod`, with the bytes of the buffer and the accesses made so far. `none`
is an access outside the buffer or a loop that was cut off. -/
def bufferedLoop : ℕ → Ifstream → List UInt8 → ℤ × List Access → Option (ℤ × List Access)
  | 0, _, _, _ => none
  | fuel + 1, file, buffer, st =>
    if file.eof then some st
    else do
      let (bytes, file) := file.read (pointSizeof * countPoints)
      let buffer := store buffer bytes
      let st ← (List.range file.gcount).foldlM (addPoint buffer file.gcount) st
      bufferedLoop fuel file buffer st

def optBigBinMod (fuel : ℕ) (file : List UInt8) : Option (ℤ × List Access) :=
  bufferedLoop fuel (.openFile file) (zeros countPoints) (0, [])

/-- The access is within the buffer, to a cell that the latest read filled. -/
def Access.Filled (a : Access) : Prop := a.j < countPoints ∧ (a.j + 1) * pointSizeof ≤ a.gcount

variable {file buffer bytes : List UInt8} {fuel g j k : ℕ} {st st' : ℤ × List Access}

/-! ### The plain loop -/

/-- The first `k` `int`s of the bytes. -/
def ints (bytes : List UInt8) (k : ℕ) : List ℤ :=
  (List.range k).map fun j => intOf ((bytes.drop (j * pointSizeof)).take pointSizeof)

theorem ints_succ (bytes : List UInt8) (k : ℕ) : ints bytes (k + 1) =
    intOf (bytes.take pointSizeof) :: ints (bytes.drop pointSizeof) k := by
  unfold ints
  rw [List.range_succ_eq_map, List.map_cons, List.map_map, Nat.zero_mul, List.drop_zero]
  apply congrArg (List.cons _)
  apply List.map_congr_left
  intro j _
  rw [Function.comp_apply, List.drop_drop, Nat.succ_mul, Nat.add_comm]

theorem intOf_zeros (k : ℕ) : intOf (List.replicate k 0) = 0 := by
  have hfold : (List.replicate k (0 : UInt8)).foldr (fun b n => b.toNat + 256 * n) 0 = 0 := by
    induction k with
    | zero => rfl
    | succ k ih =>
      rw [List.replicate_succ, List.foldr_cons, ih]
      rfl
  unfold intOf
  rw [hfold]
  rfl

theorem store_of_length_eq (h : bytes.length = buffer.length) : store buffer bytes = bytes := by
  unfold store
  rw [List.drop_eq_nil_of_le (Nat.le_of_eq h.symm), List.append_nil]

/-- A file of whole `int`s is summed up, one last read finding nothing. -/
theorem plainLoop_eq (file : List UInt8) (hlen : file.length = k * pointSizeof) (gcount : ℕ)
    (sum : ℤ) (fuel : ℕ) (hfuel : k + 2 ≤ fuel) :
    plainLoop fuel ⟨file, gcount, false⟩ (zeros 1) sum = some (sum + (ints file k).sum) := by
  induction k generalizing file gcount sum fuel with
  | zero =>
    obtain rfl : file = [] := List.eq_nil_of_length_eq_zero (by omega)
    obtain ⟨fuel, rfl⟩ : ∃ f, fuel = f + 2 := ⟨fuel - 2, by omega⟩
    have hzero : intOf (store (zeros 1) []) = 0 := intOf_zeros 4
    simp [plainLoop, Ifstream.read, hzero, ints, pointSizeof]
  | succ k ih =>
    obtain ⟨fuel, rfl⟩ : ∃ f, fuel = f + 1 := ⟨fuel - 1, by omega⟩
    rw [Nat.succ_mul] at hlen
    have htake : (file.take pointSizeof).length = (zeros 1).length := by
      rw [List.length_take, Nat.min_eq_left (by omega)]
      rfl
    have hrest := ih (file.drop pointSizeof) (by rw [List.length_drop]; omega)
      (file.take pointSizeof).length (sum + intOf (file.take pointSizeof)) fuel (by omega)
    unfold plainLoop Ifstream.read
    simp only [Bool.false_eq_true, if_false, store_of_length_eq htake,
      show ¬file.length < pointSizeof by omega, decide_false]
    rw [hrest, ints_succ, List.sum_cons, add_assoc]

theorem optBigBin_eq (hlen : file.length = k * pointSizeof) (hfuel : k + 2 ≤ fuel) :
    optBigBin fuel file = some (ints file k).sum := by
  have hloop := plainLoop_eq file hlen 0 0 fuel hfuel
  rwa [zero_add] at hloop

/-! ### The buffered loop -/

theorem addPoint_loop {f : ℕ → ℤ} (js : List ℕ) (h : ∀ j ∈ js, point buffer j = some (f j))
    (st : ℤ × List Access) : js.foldlM (addPoint buffer g) st =
      some (st.1 + (js.map f).sum, st.2 ++ js.map fun j => ⟨j, g⟩) := by
  induction js generalizing st with
  | nil => simp
  | cons j js ih =>
    have hstep : addPoint buffer g st j = some (st.1 + f j, st.2 ++ [⟨j, g⟩]) := by
      unfold addPoint
      rw [h j List.mem_cons_self]
      rfl
    rw [List.foldlM_cons, hstep, Option.bind_eq_bind, Option.bind_some,
      ih fun j hj => h j (List.mem_cons_of_mem _ hj)]
    simp [add_assoc]

/-- What a block of accesses that all succeed leaves behind. -/
theorem of_addPoint_loop {js : List ℕ} (h : js.foldlM (addPoint buffer g) st = some st') :
    st'.2 = st.2 ++ js.map (fun j => ⟨j, g⟩) ∧
      ∀ j ∈ js, (j + 1) * pointSizeof ≤ buffer.length := by
  induction js generalizing st with
  | nil =>
    obtain rfl : st = st' := by simpa using h
    simp
  | cons j js ih =>
    rw [List.foldlM_cons, Option.bind_eq_bind, Option.bind_eq_some_iff] at h
    obtain ⟨mid, hmid, h⟩ := h
    obtain ⟨hlog, hin⟩ := ih h
    unfold addPoint point at hmid
    by_cases hj : (j + 1) * pointSizeof ≤ buffer.length
    · rw [if_pos hj] at hmid
      obtain rfl := Option.some.inj hmid
      refine ⟨by simp [hlog], ?_⟩
      intro i hi
      cases List.mem_cons.mp hi with
      | inl heq => exact heq ▸ hj
      | inr hi => exact hin i hi
    · rw [if_neg hj] at hmid
      cases hmid

theorem bufferedLoop_subset {file : Ifstream} (h : bufferedLoop fuel file buffer st = some st') :
    st.2 ⊆ st'.2 := by
  induction fuel generalizing file buffer st with
  | zero => cases h
  | succ fuel ih =>
    unfold bufferedLoop at h
    split at h
    · obtain rfl := Option.some.inj h
      exact fun _ ha => ha
    · dsimp only at h
      rw [Option.bind_eq_bind, Option.bind_eq_some_iff] at h
      obtain ⟨mid, hmid, h⟩ := h
      have hlog := (of_addPoint_loop hmid).1
      intro a ha
      apply ih h
      rw [hlog]
      exact List.mem_append_left _ ha

/-- The first block: as many cells are summed up as bytes were read. -/
theorem of_optBigBinMod (h : optBigBinMod fuel file = some st') :
    ∀ j < (file.take (pointSizeof * countPoints)).length, j < countPoints ∧
      ⟨j, (file.take (pointSizeof * countPoints)).length⟩ ∈ st'.2 := by
  unfold optBigBinMod at h
  cases fuel with
  | zero => cases h
  | succ fuel =>
    have hle : (file.take (pointSizeof * countPoints)).length ≤ (zeros countPoints).length := by
      rw [List.length_take, zeros, List.length_replicate]
      exact Nat.min_le_left _ _
    have hbuffer : (store (zeros countPoints) (file.take (pointSizeof * countPoints))).length =
        pointSizeof * countPoints := by
      unfold store
      rw [List.length_append, List.length_drop, Nat.add_sub_cancel' hle, zeros,
        List.length_replicate]
    unfold bufferedLoop Ifstream.read Ifstream.openFile at h
    simp only [Bool.false_eq_true, if_false] at h
    rw [Option.bind_eq_bind, Option.bind_eq_some_iff] at h
    obtain ⟨mid, hmid, h⟩ := h
    obtain ⟨hlog, hin⟩ := of_addPoint_loop hmid
    intro j hj
    have hmem : j ∈ List.range (file.take (pointSizeof * countPoints)).length :=
      List.mem_range.mpr hj
    constructor
    · have hcell := hin j hmem
      rw [hbuffer, Nat.mul_comm pointSizeof] at hcell
      exact Nat.le_of_mul_le_mul_right hcell (by decide)
    · apply bufferedLoop_subset h
      rw [hlog]
      exact List.mem_append_right _ (List.mem_map.mpr ⟨j, hmem, rfl⟩)

/-- In a buffer that a file only begins to fill, the cells past the file are still zero. -/
theorem point_store {total : ℕ} (hlen : file.length = k * pointSizeof)
    (hj : (j + 1) * pointSizeof ≤ total) (htotal : file.length ≤ total) :
    point (store (List.replicate total 0) file) j =
      some (if j < k then intOf ((file.drop (j * pointSizeof)).take pointSizeof) else 0) := by
  have hstore : store (List.replicate total 0) file =
      file ++ List.replicate (total - file.length) 0 := by
    unfold store
    rw [List.drop_replicate]
  unfold point
  rw [if_pos (by rw [hstore, List.length_append, List.length_replicate]; omega), hstore]
  split
  case isTrue hlt =>
    have hin : (j + 1) * pointSizeof ≤ file.length := hlen ▸ Nat.mul_le_mul_right _ hlt
    rw [Nat.succ_mul] at hin
    rw [List.drop_append_of_le_length (by omega), List.take_append_of_le_length]
    rw [List.length_drop]
    omega
  case isFalse hge =>
    have hout : file.length ≤ j * pointSizeof :=
      hlen ▸ Nat.mul_le_mul_right _ (Nat.le_of_not_lt hge)
    rw [List.drop_append, List.drop_eq_nil_of_le hout, List.nil_append, List.drop_replicate,
      List.take_replicate, intOf_zeros]

private theorem sum_range_ite (c : ℕ → ℤ) {m : ℕ} (h : k ≤ m) :
    ((List.range m).map fun j => if j < k then c j else 0).sum = ((List.range k).map c).sum := by
  obtain ⟨d, rfl⟩ := Nat.exists_eq_add_of_le h
  have hfirst : (List.range k).map (fun j => if j < k then c j else 0) = (List.range k).map c := by
    apply List.map_congr_left
    intro j hj
    exact if_pos (List.mem_range.mp hj)
  have hrest : (List.range d).map ((fun j => if j < k then c j else 0) ∘ (k + ·)) =
      (List.range d).map fun _ => 0 := by
    apply List.map_congr_left
    intro j _
    exact if_neg (Nat.not_lt.mpr (Nat.le_add_right k j))
  rw [List.range_add, List.map_append, List.map_map, List.sum_append, hfirst, hrest]
  simp

/-- A file of no more bytes than the buffer has cells is summed up with zeros after it. -/
theorem optBigBinMod_eq (hlen : file.length = k * pointSizeof) (hle : file.length ≤ countPoints)
    (hfuel : 2 ≤ fuel) : optBigBinMod fuel file = some ((ints file k).sum,
      (List.range file.length).map fun j => ⟨j, file.length⟩) := by
  obtain ⟨fuel, rfl⟩ : ∃ f, fuel = f + 2 := ⟨fuel - 2, by omega⟩
  have hcount : countPoints = 4096 := rfl
  have hbytes : pointSizeof * countPoints = 16384 := rfl
  have hints : k * pointSizeof = k * 4 := rfl
  have hlt : file.length < pointSizeof * countPoints := by omega
  have hpoints : ∀ j ∈ List.range file.length, point (store (zeros countPoints) file) j =
      some (if j < k then intOf ((file.drop (j * pointSizeof)).take pointSizeof) else 0) := by
    intro j hj
    have hlast := Nat.mul_le_mul_right pointSizeof (List.mem_range.mp hj)
    have hcells := Nat.mul_le_mul_right pointSizeof hle
    rw [Nat.mul_comm countPoints] at hcells
    exact point_store hlen (Nat.le_trans hlast hcells) (Nat.le_of_lt hlt)
  have hloop := addPoint_loop (g := file.length) (List.range file.length) hpoints (0, [])
  rw [sum_range_ite _ (by omega), zero_add] at hloop
  unfold optBigBinMod bufferedLoop Ifstream.read Ifstream.openFile
  simp only [Bool.false_eq_true, if_false, List.take_of_length_le (Nat.le_of_lt hlt), hlt,
    decide_true]
  rw [hloop, Option.bind_eq_bind, Option.bind_some]
  rfl

/-- The sums agree exactly for the files that no read takes past the buffer's cells. -/
theorem sums_agree_iff (hlen : file.length = k * pointSizeof) (hfuel : file.length + 2 ≤ fuel) :
    (∃ sum log, optBigBin fuel file = some sum ∧ optBigBinMod fuel file = some (sum, log)) ↔
      file.length ≤ countPoints := by
  have hcount : countPoints = 4096 := rfl
  have hbytes : pointSizeof * countPoints = 16384 := rfl
  have hints : k * pointSizeof = k * 4 := rfl
  constructor
  · intro h
    obtain ⟨sum, log, -, hmod⟩ := h
    by_contra hlong
    have hfirst := of_optBigBinMod hmod countPoints (by rw [List.length_take]; omega)
    exact Nat.lt_irrefl _ hfirst.1
  · intro hle
    exact ⟨_, _, optBigBin_eq hlen (by omega), optBigBinMod_eq hlen hle (by omega)⟩

/-- The sums agree and only cells of the latest read are summed up exactly for the empty file: the
bound of the inner loop counts bytes. -/
theorem loops_agree_iff (file : List UInt8) (hlen : pointSizeof ∣ file.length) (fuel : ℕ)
    (hfuel : file.length + 2 ≤ fuel) :
    (∃ sum log, optBigBin fuel file = some sum ∧ optBigBinMod fuel file = some (sum, log) ∧
      ∀ a ∈ log, a.Filled) ↔ file = [] := by
  obtain ⟨k, hk⟩ := hlen
  rw [Nat.mul_comm] at hk
  constructor
  · intro h
    obtain ⟨sum, log, -, hmod, hfilled⟩ := h
    by_contra hne
    have hpos : 0 < file.length := List.length_pos_iff.mpr hne
    have hread : 0 < (file.take (pointSizeof * countPoints)).length := by
      rw [List.length_take]
      exact Nat.lt_min.mpr ⟨by decide, hpos⟩
    -- the first cell behind what the first read filled
    obtain ⟨-, hmem⟩ := of_optBigBinMod hmod
      ((file.take (pointSizeof * countPoints)).length / pointSizeof)
      (Nat.div_lt_self hread (by decide))
    have hcell := (hfilled _ hmem).2
    exact absurd hcell (Nat.not_le.mpr (Nat.lt_mul_of_div_lt (Nat.lt_succ_self _) (by decide)))
  · intro h
    subst h
    have hzero : ([] : List UInt8).length = 0 * pointSizeof := rfl
    refine ⟨_, _, optBigBin_eq hzero (by omega), optBigBinMod_eq hzero (by decide) (by omega), ?_⟩
    intro a ha
    exact absurd ha List.not_mem_nil

theorem loops_agree_iff_one :
    (∃ sum log, optBigBin 6 [1, 0, 0, 0] = some sum ∧
      optBigBinMod 6 [1, 0, 0, 0] = some (sum, log) ∧ ∀ a ∈ log, a.Filled) ↔
      ([1, 0, 0, 0] : List UInt8) = [] :=
  loops_agree_iff [1, 0, 0, 0] (by decide) 6 (by decide)

/-- After one `int` was read, four cells are summed up. -/
theorem optBigBinMod_one : optBigBinMod 2 [1, 0, 0, 0] =
    some (1, [⟨0, 4⟩, ⟨1, 4⟩, ⟨2, 4⟩, ⟨3, 4⟩]) ∧ ¬(⟨1, 4⟩ : Access).Filled := by
  constructor
  · have hone : ([1, 0, 0, 0] : List UInt8).length = 1 * pointSizeof := rfl
    rw [optBigBinMod_eq hone (by decide) (Nat.le_refl 2)]
    decide +kernel
  · unfold Access.Filled
    decide

end CppTricks.Amazon
