import CppTricks.Foundation.Buckets
import CppTricks.Foundation.FixedWidth
import CppTricks.Foundation.Loops

/-! The zigzag conversions that collect the text in one string for each row. -/
namespace CppTricks.ZigZag
open Foundation

variable {α A : Type}

/-- What the conversions use of a string type: its characters and its storage. -/
structure RowString (A α : Type) where
  empty : A
  push : A → α → A
  chars : A → List α
  capacity : A → ℕ
  reserve : A → ℕ → A

namespace RowString

/-- A string holds the characters appended to it, and `reserve` does not change them. -/
structure Lawful (R : RowString A α) : Prop where
  chars_empty : R.chars R.empty = []
  chars_push : ∀ a c, R.chars (R.push a c) = R.chars a ++ [c]
  chars_reserve : ∀ a n, R.chars (R.reserve a n) = R.chars a

/-- `std::string`, whose capacity no conversion depends on. -/
def std (α : Type) : RowString (List α) α :=
  ⟨[], fun a c => a ++ [c], id, List.length, fun a _ => a⟩

theorem std_lawful : (std α).Lawful := ⟨rfl, fun _ _ => rfl, fun _ _ => rfl⟩

end RowString

/-! ### The reference -/

structure RefState (α : Type) where
  rows : List (List α)
  curRow : ℤ
  goingDown : Bool

def refStep (numRows : ℕ) (st : RefState α) (c : α) : Option (RefState α) := do
  let rows ← appendAt (RowString.std α).push st.rows st.curRow c
  let goingDown :=
    if st.curRow = 0 ∨ st.curRow = numRows - 1 then !st.goingDown else st.goingDown
  let curRow ← int? (st.curRow + if goingDown then 1 else -1)
  return ⟨rows, curRow, goingDown⟩

/-- `none` is an access outside `rows` or an overflow, here and in every conversion. -/
def convertRef (s : List α) (numRows : ℕ) : Option (List α) :=
  if numRows = 1 then some s else do
    let size := min (numRows : ℤ) (toInt s.length)
    -- no vector is as long as a negative size makes it
    if size < 0 then none
    let rows := List.replicate size.toNat []
    let st ← s.foldlM (refStep numRows) ⟨rows, 0, false⟩
    return st.rows.flatten

/-! ### The walk inside one period -/

structure Walk where
  counter : ℤ
  direction : ℤ

namespace Walk

def start : Walk := ⟨0, 1⟩

/-- `if (subidx == numRows) { counter -= 2; direction = -1; }` -/
def turn (numRows subidx : ℕ) (w : Walk) : Option Walk :=
  if subidx = numRows then do
    let counter ← int? (w.counter - 2)
    return ⟨counter, -1⟩
  else some w

/-- `counter += direction` -/
def next (w : Walk) : Option Walk := do
  let counter ← int? (w.counter + w.direction)
  return ⟨counter, w.direction⟩

end Walk

def appendRows (R : RowString A α) (rows : List A) (numRows : ℕ) (result : List α) :
    Option (List α) :=
  (List.range' 1 (numRows - 1)).foldlM (fun r i => do
    let row ← rows[i]?
    return r ++ R.chars row) result

/-! ### `convert_base` -/

structure BaseState (α : Type) where
  walk : Walk
  rows : List (List α)

def baseStep (s : List α) (numRows kStride iter subidx : ℕ) (st : BaseState α) :
    Option (ForInStep (BaseState α)) := do
  let internalPtr ← nat? (iter * kStride + subidx)
  if internalPtr ≥ s.length then return .done st
  let walk ← st.walk.turn numRows subidx
  let c ← s[internalPtr]?
  let rows ← appendAt (RowString.std α).push st.rows walk.counter c
  let walk ← walk.next
  return .yield ⟨walk, rows⟩

def periods (ssz kStride : ℕ) : ℕ :=
  if ssz % kStride ≠ 0 then ssz / kStride + 1 else ssz / kStride

def convertBase (s : List α) (numRows : ℕ) : Option (List α) :=
  if numRows = 1 then some s else do
    let kStride ← nat? ((numRows - 1) * 2)
    let size ← nat? (periods s.length kStride)
    let rows ← (List.range size).foldlM (fun rows iter => do
      let st ← forIn (List.range kStride) ⟨.start, rows⟩ (baseStep s numRows kStride iter)
      return st.rows) (List.replicate numRows [])
    let result ← rows[0]?
    appendRows (.std α) rows numRows result

/-! ### `convert_forge` and `convert_arena` -/

structure ForgeState (A : Type) where
  subidx : ℕ
  walk : Walk
  rows : List A

def forgeStep (R : RowString A α) (numRows kStride : ℕ) (st : ForgeState A) (elem : α) :
    Option (ForgeState A) := do
  let walk ← st.walk.turn numRows st.subidx
  let rows ← appendAt R.push st.rows walk.counter elem
  let walk ← walk.next
  let subidx ← nat? (st.subidx + 1)
  return if subidx ≥ kStride then ⟨0, .start, rows⟩ else ⟨subidx, walk, rows⟩

def convertForge (s : List α) (numRows : ℕ) : Option (List α) :=
  if numRows = 1 then some s else do
    let kStride ← nat? ((numRows - 1) * 2)
    let rows := List.replicate numRows (RowString.std α).empty
    let st ← s.foldlM (forgeStep (.std α) numRows kStride) ⟨0, .start, rows⟩
    let result ← st.rows[0]?
    appendRows (.std α) st.rows numRows result

def convertArena (R : RowString A α) (s : List α) (numRows : ℕ) : Option (List α) :=
  if numRows = 1 then some s else do
    let kStride ← nat? ((numRows - 1) * 2)
    let kMaxStrideLength ← nat? (s.length / kStride + 1)
    let rows := (List.replicate numRows R.empty).map fun slice =>
      if kMaxStrideLength ≥ R.capacity slice then R.reserve slice kMaxStrideLength else slice
    let st ← s.foldlM (forgeStep R numRows kStride) ⟨0, .start, rows⟩
    let result ← st.rows[0]?
    appendRows R st.rows numRows (R.chars result)

/-! ### The row of each position -/

/-- The row that position `i` of the text falls into. -/
def zig (numRows i : ℕ) : ℕ :=
  let m := i % ((numRows - 1) * 2)
  if m < numRows then m else (numRows - 1) * 2 - m

def zigzag (numRows : ℕ) (s : List α) : List α :=
  (List.range numRows).flatMap (bucket (zig numRows) s)

variable {numRows i j : ℕ}

theorem zig_lt (hn : 2 ≤ numRows) (i : ℕ) : zig numRows i < numRows := by
  have := Nat.mod_lt i (show 0 < (numRows - 1) * 2 by omega)
  unfold zig
  dsimp only
  split <;> omega

theorem zig_le (numRows i : ℕ) : zig numRows i ≤ i := by
  have := Nat.mod_le i ((numRows - 1) * 2)
  unfold zig
  dsimp only
  split <;> omega

theorem zig_of_lt (hj : j < (numRows - 1) * 2) :
    zig numRows j = if j < numRows then j else (numRows - 1) * 2 - j := by
  unfold zig
  rw [Nat.mod_eq_of_lt hj]

theorem zig_mul_add (numRows k j : ℕ) :
    zig numRows (k * ((numRows - 1) * 2) + j) = zig numRows j := by
  unfold zig
  rw [Nat.mul_add_mod_self_right]

theorem zig_mod (numRows i : ℕ) : zig numRows (i % ((numRows - 1) * 2)) = zig numRows i := by
  unfold zig
  rw [Nat.mod_mod]

private theorem succ_mod_period (hn : 2 ≤ numRows) (i : ℕ) :
    (i + 1) % ((numRows - 1) * 2) =
      if i % ((numRows - 1) * 2) + 1 = (numRows - 1) * 2 then 0
      else i % ((numRows - 1) * 2) + 1 := by
  have hlt := Nat.mod_lt i (show 0 < (numRows - 1) * 2 by omega)
  rw [Nat.add_mod_eq_ite, Nat.mod_eq_of_lt (show 1 < (numRows - 1) * 2 by omega)]
  split <;> split <;> omega

/-- The text goes down from position `i` to the next one in the first half of the period. -/
def goesDown (numRows i : ℕ) : Bool := i % ((numRows - 1) * 2) < numRows - 1

theorem zig_succ (hn : 2 ≤ numRows) (i : ℕ) :
    (zig numRows (i + 1) : ℤ) = zig numRows i + if goesDown numRows i then 1 else -1 := by
  have hlt := Nat.mod_lt i (show 0 < (numRows - 1) * 2 by omega)
  simp only [zig, goesDown, succ_mod_period hn, decide_eq_true_eq]
  grind

/-- The flag of the reference before position `i`. -/
def wentDown (numRows i : ℕ) : Bool :=
  0 < i % ((numRows - 1) * 2) ∧ i % ((numRows - 1) * 2) ≤ numRows - 1

theorem wentDown_succ (hn : 2 ≤ numRows) (i : ℕ) :
    wentDown numRows (i + 1) = goesDown numRows i := by
  have hlt := Nat.mod_lt i (show 0 < (numRows - 1) * 2 by omega)
  simp only [wentDown, goesDown, succ_mod_period hn, decide_eq_decide]
  grind

/-- The flag flips exactly on the edge rows. -/
theorem goesDown_eq (hn : 2 ≤ numRows) (i : ℕ) :
    goesDown numRows i = if (zig numRows i : ℤ) = 0 ∨ (zig numRows i : ℤ) = numRows - 1
      then !wentDown numRows i else wentDown numRows i := by
  have hlt := Nat.mod_lt i (show 0 < (numRows - 1) * 2 by omega)
  simp only [zig, goesDown, wentDown]
  grind

/-! ### The reference reads the text row by row -/

namespace RefState

/-- The state after the characters `s` of a text of length `total`. -/
structure At (numRows total : ℕ) (s : List α) (st : RefState α) : Prop where
  rows : Distributed id (zig numRows) 0 (min numRows total) s st.rows
  curRow : st.curRow = zig numRows s.length
  goingDown : st.goingDown = wentDown numRows s.length

theorem At.step {total : ℕ} {s : List α} {st : RefState α} (h : st.At numRows total s)
    (hn : 2 ≤ numRows) (hint : numRows ≤ intMax) (hs : s.length < total) (c : α) :
    ∃ st', refStep numRows st c = some st' ∧ st'.At numRows total (s ++ [c]) := by
  have hlt := zig_lt hn s.length
  have hle := zig_le numRows s.length
  obtain ⟨rows, hpush, hrows⟩ :=
    h.rows.appendAt RowString.std_lawful.chars_push c (Nat.zero_le _) (by omega)
  have hnext := zig_succ hn s.length
  have hcur : int? (zig numRows s.length + if goesDown numRows s.length then 1 else -1) =
      some (zig numRows (s.length + 1) : ℤ) := by
    have := zig_lt hn (s.length + 1)
    rw [← hnext]
    exact int?_eq_some (by omega) (by omega)
  refine ⟨⟨rows, zig numRows (s.length + 1), goesDown numRows s.length⟩, ?_, hrows, ?_, ?_⟩
  · rw [show (zig numRows s.length : ℤ) - (0 : ℕ) = zig numRows s.length by omega] at hpush
    simp only [refStep, h.curRow, h.goingDown, hpush, ← goesDown_eq hn, Option.bind_eq_bind,
      Option.bind_some, hcur]
    rfl
  · rw [List.length_append, List.length_singleton]
  · rw [List.length_append, List.length_singleton, wentDown_succ hn]

end RefState

private theorem flatMap_bucket_min (numRows : ℕ) (s : List α) :
    (List.range (min numRows s.length)).flatMap (bucket (zig numRows) s) = zigzag numRows s := by
  obtain ⟨k, hk⟩ := Nat.exists_eq_add_of_le (Nat.min_le_left numRows s.length)
  have hrange : List.range numRows = List.range (min numRows s.length) ++
      (List.range k).map (min numRows s.length + ·) := by rw [← List.range_add, ← hk]
  have hnil : ((List.range k).map (min numRows s.length + ·)).flatMap
      (bucket (zig numRows) s) = [] := by
    rw [List.flatMap_eq_nil_iff]
    intro r hr
    obtain ⟨d, hd, rfl⟩ := List.mem_map.mp hr
    have hd := List.mem_range.mp hd
    apply bucket_eq_nil
    intro i hi
    have := zig_le numRows i
    omega
  unfold zigzag
  rw [hrange, List.flatMap_append, hnil, List.append_nil]

theorem flatten_distributed {s : List α} {m : ℕ} {rows : List (List α)}
    (h : Distributed id (zig numRows) 0 m s rows) :
    rows.flatten = (List.range m).flatMap (bucket (zig numRows) s) := by
  rw [← List.map_id rows, h, List.flatMap_def]
  simp

theorem convertRef_eq (hn : 2 ≤ numRows) (hint : numRows ≤ intMax) (s : List α)
    (hsize : (min numRows s.length : ℕ) ≤ toInt s.length) :
    convertRef s numRows = some (zigzag numRows s) := by
  have hle := toInt_le s.length
  have hrows : min (numRows : ℤ) (toInt s.length) = (min numRows s.length : ℕ) := by omega
  obtain ⟨st, hrun, hst⟩ := foldlM_prefix (P := RefState.At numRows s.length) s
    (fun t c st ht h => h.step hn hint (length_lt_of_append ht) c)
    ⟨List.replicate (min numRows s.length) [], 0, false⟩
    ⟨.replicate rfl _ _ _, by simp [zig, show 0 < numRows by omega], by simp [wentDown]⟩
  unfold convertRef
  dsimp only
  rw [if_neg (by omega), hrows, if_neg (by omega), Int.toNat_natCast]
  simp [hrun, flatten_distributed hst.rows, flatMap_bucket_min]

/-- The row of position `i`; a single row takes every position. -/
def row (numRows i : ℕ) : ℕ := if numRows = 1 then 0 else zig numRows i

theorem row_lt (hn : 1 ≤ numRows) (i : ℕ) : row numRows i < numRows := by
  unfold row
  split
  · omega
  · exact zig_lt (by omega) i

/-- The positions of the text row by row, those of a row in ascending order, each of them once. The
rows are indexed in range as soon as there is one for each of the first positions. -/
theorem convertRef_groups (s : List α) (hn : 1 ≤ numRows) (hint : numRows ≤ intMax)
    (hsize : numRows = 1 ∨ (min numRows s.length : ℕ) ≤ toInt s.length) :
    convertRef s numRows = some ((List.range numRows).flatMap (bucket (row numRows) s)) ∧
      ((List.range numRows).flatMap (bucket (row numRows) s)).Perm s := by
  refine ⟨?_, flatMap_bucket_perm s fun i _ => row_lt hn i⟩
  by_cases hone : numRows = 1
  · have hall : bucket (row 1) s 0 = s := by
      unfold bucket row
      simp
    subst hone
    simp [convertRef, hall]
  · have hrow : row numRows = zig numRows := by
      funext i
      exact if_neg hone
    rw [hrow]
    exact convertRef_eq (by omega) hint s (hsize.resolve_left hone)

theorem convertRef_groups_paypalishiring :
    convertRef "PAYPALISHIRING".toList 4 =
        some ((List.range 4).flatMap (bucket (row 4) "PAYPALISHIRING".toList)) ∧
      ((List.range 4).flatMap (bucket (row 4) "PAYPALISHIRING".toList)).Perm
        "PAYPALISHIRING".toList :=
  convertRef_groups "PAYPALISHIRING".toList (by decide) (by decide) (.inr (by decide))

/-- A text of `2 ^ 31` characters has a negative size as an `int`. -/
theorem convertRef_size_negative : convertRef (List.replicate 2147483648 'a') 2 = none := by
  have hsize : toInt 2147483648 = -2147483648 := by decide
  unfold convertRef
  rw [List.length_replicate, hsize]
  rfl

/-! ### The walk follows the rows -/

namespace Walk

/-- The walk before step `j` of a period. -/
def At (numRows j : ℕ) (w : Walk) : Prop :=
  w = if j ≤ numRows then ⟨j, 1⟩ else ⟨(numRows - 1) * 2 - j, -1⟩

theorem at_start (numRows : ℕ) : start.At numRows 0 := by
  unfold At
  rw [if_pos (Nat.zero_le _)]
  rfl

/-- After the turn the counter is the row of step `j`, and it moves on to the next step. -/
theorem At.turn {w : Walk} (h : w.At numRows j) (hint : (numRows - 1) * 2 ≤ intMax)
    (hj : j < (numRows - 1) * 2) :
    ∃ w₁ w₂, w.turn numRows j = some w₁ ∧ w₁.counter = zig numRows j ∧
      w₁.next = some w₂ ∧ w₂.At numRows (j + 1) := by
  obtain rfl := h
  rw [zig_of_lt hj]
  have hmax : intMax = 2147483647 := rfl
  obtain hlt | rfl | hgt := Nat.lt_trichotomy j numRows
  -- down, the turn at `subidx == numRows`, and up again
  · refine ⟨⟨j, 1⟩, ⟨j + 1, 1⟩, ?_, ?_, ?_, ?_⟩
    · unfold Walk.turn
      rw [if_neg (by omega), if_pos (by omega)]
    · rw [if_pos hlt]
    · simp only [next, int?_eq_some (x := (j : ℤ) + 1) (by omega) (by omega)]
      rfl
    · unfold At
      rw [if_pos (by omega), Walk.mk.injEq]
      omega
  · refine ⟨⟨j - 2, -1⟩, ⟨j - 3, -1⟩, ?_, ?_, ?_, ?_⟩
    · unfold Walk.turn
      rw [if_pos rfl, if_pos (Nat.le_refl j)]
      simp only [int?_eq_some (x := (j : ℤ) - 2) (by omega) (by omega)]
      rfl
    · rw [if_neg (Nat.lt_irrefl j)]
      simp only
      omega
    · simp only [next, int?_eq_some (x := (j : ℤ) - 2 + -1) (by omega) (by omega)]
      simp only [Option.bind_eq_bind, Option.bind_some, Option.pure_def, Option.some.injEq,
        Walk.mk.injEq, and_true]
      omega
    · unfold At
      rw [if_neg (by omega), Walk.mk.injEq]
      omega
  · refine ⟨⟨(numRows - 1) * 2 - j, -1⟩, ⟨(numRows - 1) * 2 - j - 1, -1⟩, ?_, ?_, ?_, ?_⟩
    · unfold Walk.turn
      rw [if_neg (by omega), if_neg (by omega)]
    · rw [if_neg (by omega)]
      simp only
      omega
    · simp only [next, int?_eq_some (x := ((numRows : ℤ) - 1) * 2 - j + -1) (by omega) (by omega)]
      rfl
    · unfold At
      rw [if_neg (by omega), Walk.mk.injEq]
      omega

end Walk

theorem appendRows_eq (R : RowString A α) {rows : List A} {numRows : ℕ} (hn : 1 ≤ numRows)
    (hlen : rows.length = numRows) :
    (rows[0]?.bind fun row => appendRows R rows numRows (R.chars row)) =
      some (rows.map R.chars).flatten := by
  obtain ⟨row, rest, rfl⟩ := List.exists_cons_of_length_pos (show 0 < rows.length by omega)
  have hfold : ∀ (l : List A) (r : List α),
      l.foldlM (fun r row => some (r ++ R.chars row)) r = some (r ++ (l.map R.chars).flatten) := by
    intro l
    induction l with
    | nil => simp
    | cons a l ih => intro r; simp [ih]
  have hloop := foldlM_getElem? (row :: rest) (fun r row => some (r ++ R.chars row)) 1 (numRows - 1)
    (by omega) (R.chars row)
  rw [List.drop_one, List.tail_cons, hfold] at hloop
  exact hloop

/-! ### `convert_base` -/

private theorem two_mul_div_le (hn : 2 ≤ numRows) (ssz : ℕ) :
    2 * (ssz / ((numRows - 1) * 2)) ≤ ssz := by
  have hmul := Nat.div_mul_le_self ssz ((numRows - 1) * 2)
  have htwo := Nat.mul_le_mul_left (ssz / ((numRows - 1) * 2)) (show 2 ≤ (numRows - 1) * 2 by omega)
  omega

theorem periods_le (hn : 2 ≤ numRows) (ssz : ℕ) : periods ssz ((numRows - 1) * 2) ≤ ssz := by
  have hle := two_mul_div_le hn ssz
  unfold periods
  split
  · have := Nat.mod_le ssz ((numRows - 1) * 2)
    omega
  · omega

theorem le_periods_mul {p : ℕ} (hp : 0 < p) (ssz : ℕ) : ssz ≤ periods ssz p * p := by
  have hdiv := Nat.div_add_mod' ssz p
  have hmod := Nat.mod_lt ssz hp
  unfold periods
  split
  · rw [Nat.add_mul]
    omega
  · omega

theorem mul_lt_of_lt_periods {ssz p iter : ℕ} (hp : 0 < p) (h : iter < periods ssz p) :
    iter * p < ssz := by
  have hdiv := Nat.div_add_mod' ssz p
  unfold periods at h
  split at h
  · have := Nat.mul_le_mul_right p (show iter ≤ ssz / p by omega)
    omega
  · have := Nat.mul_le_mul_right p (show iter + 1 ≤ ssz / p by omega)
    rw [Nat.add_mul] at this
    omega

/-- A loop over the periods of a text that each take in `p` more characters, or all that remain. -/
theorem foldlM_periods {σ : Type} {P : ℕ → σ → Prop} {p : ℕ} (ssz : ℕ) (body : σ → ℕ → Option σ)
    (hp : 0 < p) (hbody : ∀ iter st, iter * p < ssz → P (iter * p) st →
      ∃ st', body st iter = some st' ∧ P (min ((iter + 1) * p) ssz) st')
    (st : σ) (hst : P 0 st) :
    ∃ st', (List.range (periods ssz p)).foldlM body st = some st' ∧ P ssz st' := by
  obtain ⟨st', hrun, hP⟩ := foldlM_prefix (P := fun iters st => P (min (iters.length * p) ssz) st)
    (List.range (periods ssz p))
    (fun iters iter st hpre hP => by
      obtain ⟨rfl, hiter⟩ := eq_length_of_prefix_range hpre
      have hlt := mul_lt_of_lt_periods hp hiter
      rw [Nat.min_eq_left (Nat.le_of_lt hlt)] at hP
      simpa using hbody iters.length st hlt hP)
    st (by simpa using hst)
  refine ⟨st', hrun, ?_⟩
  rwa [List.length_range, Nat.min_eq_right (le_periods_mul hp ssz)] at hP

/-- The state of `convert_base` after `k` characters, in a period that began at `base`. -/
structure BaseState.At (numRows : ℕ) (s : List α) (base k : ℕ) (st : BaseState α) : Prop where
  le_length : k ≤ s.length
  rows : Distributed id (zig numRows) 0 numRows (s.take k) st.rows
  walk : st.walk.At numRows (k - base)

theorem BaseState.At.step {s : List α} {iter j : ℕ} {st : BaseState α}
    (h : st.At numRows s (iter * ((numRows - 1) * 2)) (iter * ((numRows - 1) * 2) + j))
    (hn : 2 ≤ numRows) (hint : (numRows - 1) * 2 ≤ intMax) (hlen : s.length ≤ intMax)
    (hj : j < (numRows - 1) * 2) (hlt : iter * ((numRows - 1) * 2) + j < s.length) :
    ∃ st', baseStep s numRows ((numRows - 1) * 2) iter j st = some (.yield st') ∧
      st'.At numRows s (iter * ((numRows - 1) * 2)) (iter * ((numRows - 1) * 2) + j + 1) := by
  have hwalk := h.walk
  rw [Nat.add_sub_cancel_left] at hwalk
  obtain ⟨w₁, w₂, hturn, hcounter, hnext, hw₂⟩ := hwalk.turn hint hj
  have htake := List.length_take_of_le (Nat.le_of_lt hlt)
  have hrow : zig numRows (s.take (iter * ((numRows - 1) * 2) + j)).length = zig numRows j := by
    rw [htake, zig_mul_add]
  obtain ⟨rows, hpush, hrows⟩ := h.rows.appendAt RowString.std_lawful.chars_push
    s[iter * ((numRows - 1) * 2) + j] (Nat.zero_le _)
    (by rw [hrow]; have := zig_lt hn j; omega)
  rw [hrow, show (zig numRows j : ℤ) - (0 : ℕ) = zig numRows j by omega] at hpush
  refine ⟨⟨w₂, rows⟩, ?_, hlt, ?_, ?_⟩
  · simp [baseStep, nat?_eq_some (Nat.le_trans h.le_length hlen), show ¬ s.length ≤ _ from
      Nat.not_le.mpr hlt, hturn, hcounter, hpush, hnext, hlt]
  · rwa [List.take_succ_eq_append_getElem hlt]
  · rwa [show iter * ((numRows - 1) * 2) + j + 1 - iter * ((numRows - 1) * 2) = j + 1 by omega]

theorem BaseState.At.done {s : List α} {iter j : ℕ} {st : BaseState α} {kStride : ℕ}
    (h : st.At numRows s (iter * kStride) (iter * kStride + j)) (hlen : s.length ≤ intMax)
    (hle : s.length ≤ iter * kStride + j) :
    baseStep s numRows kStride iter j st = some (.done st) := by
  simp [baseStep, nat?_eq_some (Nat.le_trans h.le_length hlen), hle]

private theorem basePeriod (hn : 2 ≤ numRows) (hint : (numRows - 1) * 2 ≤ intMax) {s : List α}
    (hlen : s.length ≤ intMax) {iter : ℕ} (hiter : iter * ((numRows - 1) * 2) < s.length)
    {rows : List (List α)} (hrows : Distributed id (zig numRows) 0 numRows
      (s.take (iter * ((numRows - 1) * 2))) rows) :
    ∃ st, forIn (List.range ((numRows - 1) * 2)) ⟨.start, rows⟩
        (baseStep s numRows ((numRows - 1) * 2) iter) = some st ∧
      Distributed id (zig numRows) 0 numRows
        (s.take (min ((iter + 1) * ((numRows - 1) * 2)) s.length)) st.rows := by
  obtain ⟨st, hperiod, hst⟩ := forIn_break (baseStep s numRows ((numRows - 1) * 2) iter)
    (P := BaseState.At numRows s (iter * ((numRows - 1) * 2))) (m := s.length)
    (List.range ((numRows - 1) * 2)) (iter * ((numRows - 1) * 2))
    (fun j x st hx hst hle => by
      obtain ⟨-, rfl⟩ := of_getElem?_range hx
      exact hst.done hlen hle)
    (fun j x st hx hst hlt => by
      obtain ⟨hj, rfl⟩ := of_getElem?_range hx
      exact hst.step hn hint hlen hj hlt)
    (Nat.le_of_lt hiter) ⟨.start, rows⟩
    ⟨Nat.le_of_lt hiter, hrows, by rw [Nat.sub_self]; exact Walk.at_start numRows⟩
  have hall := hst.rows
  rw [List.length_range, ← Nat.succ_mul] at hall
  exact ⟨st, hperiod, hall⟩

theorem convertBase_eq (hn : 2 ≤ numRows) (hint : (numRows - 1) * 2 ≤ intMax) (s : List α)
    (hlen : s.length ≤ intMax) : convertBase s numRows = some (zigzag numRows s) := by
  have hsize := Nat.le_trans (periods_le hn s.length) hlen
  obtain ⟨rows, hrun, hrows⟩ := foldlM_periods
    (P := fun k rows => Distributed id (zig numRows) 0 numRows (s.take k) rows) s.length
    (fun rows iter => do
      let st ← forIn (List.range ((numRows - 1) * 2)) ⟨.start, rows⟩
        (baseStep s numRows ((numRows - 1) * 2) iter)
      return st.rows)
    (show 0 < (numRows - 1) * 2 by omega)
    (fun iter rows hiter hrows => by
      obtain ⟨st, hperiod, hst⟩ := basePeriod hn hint hlen hiter hrows
      exact ⟨st.rows, by simp [hperiod], hst⟩)
    (List.replicate numRows []) (.replicate rfl _ _ _)
  rw [List.take_length] at hrows
  have hcollect := appendRows_eq (.std α) (by omega) hrows.length_eq
  rw [show rows.map (RowString.std α).chars = rows from List.map_id rows,
    flatten_distributed hrows] at hcollect
  unfold convertBase
  rw [if_neg (by omega), nat?_eq_some hint]
  simp only [Option.bind_eq_bind, Option.bind_some, nat?_eq_some hsize] at hrun ⊢
  rw [hrun, Option.bind_some]
  exact hcollect

/-! ### `convert_forge` and `convert_arena` -/

/-- The state after the characters `s`. -/
structure ForgeState.At (R : RowString A α) (numRows : ℕ) (s : List α) (st : ForgeState A) :
    Prop where
  subidx : st.subidx = s.length % ((numRows - 1) * 2)
  walk : st.walk.At numRows st.subidx
  rows : Distributed R.chars (zig numRows) 0 numRows s st.rows

theorem ForgeState.At.step {R : RowString A α} (hR : R.Lawful) {s : List α} {st : ForgeState A}
    (h : st.At R numRows s) (hn : 2 ≤ numRows) (hint : (numRows - 1) * 2 ≤ intMax) (elem : α) :
    ∃ st', forgeStep R numRows ((numRows - 1) * 2) st elem = some st' ∧
      st'.At R numRows (s ++ [elem]) := by
  have hsub : st.subidx < (numRows - 1) * 2 := by
    rw [h.subidx]
    exact Nat.mod_lt _ (by omega)
  obtain ⟨w₁, w₂, hturn, hcounter, hnext, hw₂⟩ := h.walk.turn hint hsub
  obtain ⟨rows, hpush, hrows⟩ := h.rows.appendAt hR.chars_push elem (Nat.zero_le _)
    (by have := zig_lt hn s.length; omega)
  rw [show (zig numRows s.length : ℤ) - (0 : ℕ) = zig numRows st.subidx by
    rw [h.subidx, zig_mod]; omega] at hpush
  have hmod := succ_mod_period hn s.length
  rw [← h.subidx] at hmod
  by_cases hwrap : st.subidx + 1 = (numRows - 1) * 2
  · rw [if_pos hwrap] at hmod
    refine ⟨⟨0, .start, rows⟩, ?_, ?_, Walk.at_start numRows, hrows⟩
    · simp [forgeStep, hturn, hcounter, hpush, hnext, hwrap, nat?_eq_some hint]
    · rw [List.length_append, List.length_singleton, hmod]
  · rw [if_neg hwrap] at hmod
    refine ⟨⟨st.subidx + 1, w₂, rows⟩, ?_, ?_, hw₂, hrows⟩
    · simp [forgeStep, hturn, hcounter, hpush, hnext, nat?_eq_some (Nat.le_trans hsub hint),
        show ¬ (numRows - 1) * 2 ≤ st.subidx + 1 by omega]
    · rw [List.length_append, List.length_singleton, hmod]

/-- The loop that `convert_forge` and `convert_arena` run, and the rows put together. -/
private theorem forge_eq {R : RowString A α} (hR : R.Lawful) (hn : 2 ≤ numRows)
    (hint : (numRows - 1) * 2 ≤ intMax) (s : List α) {rows : List A}
    (hrows : Distributed R.chars (zig numRows) 0 numRows [] rows) :
    ∃ st, s.foldlM (forgeStep R numRows ((numRows - 1) * 2)) ⟨0, .start, rows⟩ = some st ∧
      (st.rows[0]?.bind fun row => appendRows R st.rows numRows (R.chars row)) =
        some (zigzag numRows s) := by
  obtain ⟨st, hrun, hst⟩ := foldlM_prefix (P := ForgeState.At R numRows) s
    (fun t c st _ h => h.step hR hn hint c) ⟨0, .start, rows⟩
    ⟨by simp, Walk.at_start numRows, hrows⟩
  refine ⟨st, hrun, ?_⟩
  rw [appendRows_eq R (by omega) hst.rows.length_eq, hst.rows, zigzag, List.flatMap_def]
  simp

theorem convertForge_eq (hn : 2 ≤ numRows) (hint : (numRows - 1) * 2 ≤ intMax) (s : List α) :
    convertForge s numRows = some (zigzag numRows s) := by
  obtain ⟨st, hrun, hrows⟩ := forge_eq (RowString.std_lawful (α := α)) hn hint s
    (.replicate RowString.std_lawful.chars_empty _ _ _)
  unfold convertForge
  rw [if_neg (by omega), nat?_eq_some hint]
  simp only [Option.bind_eq_bind, Option.bind_some, hrun]
  exact hrows

theorem convertArena_eq {R : RowString A α} (hR : R.Lawful) (hn : 2 ≤ numRows)
    (hint : (numRows - 1) * 2 ≤ intMax) (s : List α) (hlen : s.length ≤ intMax) :
    convertArena R s numRows = some (zigzag numRows s) := by
  have hreserved : ∀ n, Distributed R.chars (zig numRows) 0 numRows []
      ((List.replicate numRows R.empty).map fun slice =>
        if n ≥ R.capacity slice then R.reserve slice n else slice) := by
    intro n
    rw [List.map_replicate]
    refine .replicate ?_ _ _ _
    split
    · rw [hR.chars_reserve, hR.chars_empty]
    · exact hR.chars_empty
  obtain ⟨st, hrun, hrows⟩ := forge_eq hR hn hint s (hreserved (s.length / ((numRows - 1) * 2) + 1))
  have hstride : s.length / ((numRows - 1) * 2) + 1 ≤ intMax := by
    have := two_mul_div_le hn s.length
    have hmax : intMax = 2147483647 := rfl
    omega
  unfold convertArena
  rw [if_neg (by omega), nat?_eq_some hint]
  simp only [Option.bind_eq_bind, Option.bind_some, nat?_eq_some hstride, hrun]
  exact hrows

/-- The row-buffer conversions return what the reference returns, with every access to a row in
range and no overflow. -/
theorem convert_row_buffers_agree {R : RowString A α} (hR : R.Lawful) (s : List α) {numRows : ℕ}
    (hn : 1 ≤ numRows) (hlen : s.length ≤ intMax) (hint : (numRows - 1) * 2 ≤ intMax) :
    ∃ r, convertRef s numRows = some r ∧ convertBase s numRows = some r ∧
      convertForge s numRows = some r ∧ convertArena R s numRows = some r := by
  obtain rfl | hn := Nat.eq_or_lt_of_le hn
  · exact ⟨s, rfl, rfl, rfl, rfl⟩
  · have hsize : (min numRows s.length : ℕ) ≤ toInt s.length := by
      rw [toInt_eq hlen]
      omega
    exact ⟨zigzag numRows s, convertRef_eq hn (by omega) s hsize, convertBase_eq hn hint s hlen,
      convertForge_eq hn hint s, convertArena_eq hR hn hint s hlen⟩

theorem convert_row_buffers_agree_paypal :
    ∃ r, convertRef "PAYPAL".toList 3 = some r ∧ convertBase "PAYPAL".toList 3 = some r ∧
      convertForge "PAYPAL".toList 3 = some r ∧
      convertArena (.std Char) "PAYPAL".toList 3 = some r :=
  convert_row_buffers_agree RowString.std_lawful "PAYPAL".toList (by decide) (by decide) (by decide)

end CppTricks.ZigZag
