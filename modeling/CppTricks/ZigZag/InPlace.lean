import CppTricks.ZigZag.RowBuffer

/-! The zigzag conversions that write the first row over the text they still read. -/
namespace CppTricks.ZigZag
open Foundation

variable {α : Type}

/-- A change of `s`: a letter written at `pos` while the read iterator is at `siter`, or a `replace`
at `pos` with the length of `s` before and after it. -/
inductive Access (α : Type) where
  | overwrite (pos siter : ℕ) (old new : α)
  | replace (pos before after : ℕ)
deriving DecidableEq

/-- `rows` is `row_to_slice`, for the rows from the second on. -/
structure InPlace (α : Type) where
  s : List α
  siter : ℕ
  inPlaceCounter : ℕ
  rows : List (List α)
  accesses : List (Access α)

namespace InPlace

def start (s : List α) (numRows : ℕ) : InPlace α := ⟨s, 0, 0, List.replicate (numRows - 1) [], []⟩

/-- `s[in_place_counter++] = letter` -/
def overwrite (st : InPlace α) (letter : α) : Option (InPlace α) := do
  let old ← st.s[st.inPlaceCounter]?
  let inPlaceCounter ← nat? (st.inPlaceCounter + 1)
  return { st with
    s := st.s.set st.inPlaceCounter letter
    inPlaceCounter
    accesses := st.accesses ++ [.overwrite st.inPlaceCounter st.siter old letter] }

/-- The letter goes to the front of `s` from row 0 and to `row_to_slice[row - 1]` from another. -/
def place (st : InPlace α) (row : ℤ) (letter : α) : Option (InPlace α) :=
  if row = 0 then st.overwrite letter else do
    let rows ← appendAt (RowString.std α).push st.rows (row - 1) letter
    return { st with rows }

def advance (st : InPlace α) : InPlace α := { st with siter := st.siter + 1 }

/-- `s.replace(in_place_counter, row.size(), row)`, which throws from past the end of `s`. -/
def replaceRow (st : InPlace α) (row : List α) : Option (InPlace α) :=
  if st.inPlaceCounter ≤ st.s.length then do
    let s := st.s.take st.inPlaceCounter ++ row ++ st.s.drop (st.inPlaceCounter + row.length)
    let inPlaceCounter ← nat? (st.inPlaceCounter + row.length)
    return { st with
      s
      inPlaceCounter
      accesses := st.accesses ++ [.replace st.inPlaceCounter st.s.length s.length] }
  else none

def replaceRows (st : InPlace α) (numRows : ℕ) : Option (InPlace α) := do
  let row ← st.rows[0]?
  let st' ← st.replaceRow row
  (List.range' 1 (numRows - 2)).foldlM (fun st' i => do
    let row ← st.rows[i]?
    st'.replaceRow row) st'

end InPlace

/-! ### `convert_best` -/

def bestStep (send numRows subidx : ℕ) (x : Walk × InPlace α) :
    Option (ForInStep (Walk × InPlace α)) := do
  if x.2.siter = send then return .done x
  let walk ← x.1.turn numRows subidx
  let letter ← x.2.s[x.2.siter]?
  let st ← x.2.advance.place walk.counter letter
  let walk ← walk.next
  return .yield (walk, st)

/-- The result, and the changes of `s` on the way. -/
def convertBest (s : List α) (numRows : ℕ) : Option (List α × List (Access α)) :=
  if numRows = 1 then some (s, []) else do
    let kStride ← nat? ((numRows - 1) * 2)
    let size ← nat? (periods s.length kStride)
    let st ← (List.range size).foldlM (fun st _ => do
      let x ← forIn (List.range kStride) (.start, st) (bestStep s.length numRows)
      return x.2) (.start s numRows)
    let st ← st.replaceRows numRows
    return (st.s, st.accesses)

/-! ### `convert_best1` -/

def best1Step (send subidx : ℕ) (st : InPlace α) : Option (ForInStep (InPlace α)) := do
  if st.siter = send then return .done st
  let letter ← st.s[st.siter]?
  let st ← st.place subidx letter
  return .yield st.advance

def convertBest1 (s : List α) (numRows : ℕ) : Option (List α × List (Access α)) :=
  if numRows = 1 then some (s, []) else do
    let kStride ← nat? ((numRows - 1) * 2)
    let size ← nat? (periods s.length kStride)
    let st ← (List.range size).foldlM (fun st _ => do
      let st ← forIn (List.range numRows) st (best1Step s.length)
      forIn (List.range' 1 (numRows - 2)).reverse st (best1Step s.length)) (.start s numRows)
    let st ← st.replaceRows numRows
    return (st.s, st.accesses)

/-! ### Reading ahead of the writes -/

variable {numRows i : ℕ} {text : List α} {safe : Access α → Prop}

def front (numRows : ℕ) (text : List α) (i : ℕ) : List α :=
  bucket (zig numRows) (text.take i) 0

theorem length_front_le (numRows : ℕ) (text : List α) (i : ℕ) :
    (front numRows text i).length ≤ i :=
  Nat.le_trans (length_bucket_le _ _ _) (List.length_take_le i text)

theorem front_succ (numRows : ℕ) (h : i < text.length) :
    front numRows text (i + 1) =
      front numRows text i ++ if zig numRows i = 0 then [text[i]] else [] := by
  rw [front, List.take_succ_eq_append_getElem h, bucket_concat,
    List.length_take_of_le (Nat.le_of_lt h), front]

namespace InPlace

/-- After `i` letters `s` is their first row followed by the rest of the text, and the other rows
are distributed. -/
structure At (safe : Access α → Prop) (numRows : ℕ) (text : List α) (i : ℕ) (st : InPlace α) :
    Prop where
  le_length : i ≤ text.length
  inPlaceCounter : st.inPlaceCounter = (front numRows text i).length
  s : st.s = front numRows text i ++ text.drop (front numRows text i).length
  rows : Distributed id (zig numRows) 1 (numRows - 1) (text.take i) st.rows
  safe : ∀ a ∈ st.accesses, safe a

theorem at_start (safe : Access α → Prop) (numRows : ℕ) (text : List α) :
    (start text numRows).At safe numRows text 0 :=
  ⟨Nat.zero_le _, rfl, rfl, .replicate rfl _ _ _, by simp [start]⟩

namespace At

variable {st : InPlace α}

theorem advance (h : st.At safe numRows text i) : st.advance.At safe numRows text i :=
  ⟨h.le_length, h.inPlaceCounter, h.s, h.rows, h.safe⟩

/-- The writes have not reached the letter that is read next. -/
theorem letter (h : st.At safe numRows text i) (hlt : i < text.length) :
    st.s[i]? = some text[i] := by
  have hle := length_front_le numRows text i
  rw [h.s, List.getElem?_append_right hle, List.getElem?_drop,
    show (front numRows text i).length + (i - (front numRows text i).length) = i by omega,
    List.getElem?_eq_getElem hlt]

theorem overwrite (h : st.At safe numRows text i) (hlt : i < text.length)
    (hlen : text.length ≤ intMax) (hrow : zig numRows i = 0)
    (hsafe : ∀ old, st.s[(front numRows text i).length]? = some old →
      safe (.overwrite (front numRows text i).length st.siter old text[i])) :
    ∃ st', st.overwrite text[i] = some st' ∧ st'.At safe numRows text (i + 1) ∧
      st'.siter = st.siter := by
  have hle := length_front_le numRows text i
  have hget : st.s[(front numRows text i).length]? =
      some text[(front numRows text i).length] := by
    rw [h.s, List.getElem?_append_right (Nat.le_refl _), List.getElem?_drop, Nat.sub_self,
      Nat.add_zero, List.getElem?_eq_getElem (by omega)]
  have hfront := front_succ numRows hlt
  rw [if_pos hrow] at hfront
  have hrun : st.overwrite text[i] = some { st with
      s := st.s.set (front numRows text i).length text[i]
      inPlaceCounter := (front numRows text i).length + 1
      accesses := st.accesses ++ [.overwrite (front numRows text i).length st.siter
        text[(front numRows text i).length] text[i]] } := by
    unfold InPlace.overwrite
    rw [h.inPlaceCounter, hget, Option.bind_eq_bind, Option.bind_some,
      nat?_eq_some (by omega)]
    rfl
  refine ⟨_, hrun, ⟨hlt, ?_, ?_, ?_, ?_⟩, rfl⟩
  · simp [hfront]
  · have hdrop : text.drop (front numRows text i).length =
        text[(front numRows text i).length] :: text.drop ((front numRows text i).length + 1) :=
      List.drop_eq_getElem_cons (by omega)
    change st.s.set _ _ = _
    rw [hfront, h.s, List.set_append_right _ _ (Nat.le_refl _), Nat.sub_self, hdrop,
      List.set_cons_zero, List.length_append, List.append_assoc]
    rfl
  · rw [List.take_succ_eq_append_getElem hlt]
    exact h.rows.skip _ (by rw [List.length_take_of_le (Nat.le_of_lt hlt), hrow]; omega)
  · intro a ha
    obtain ha | ha := List.mem_append.mp ha
    · exact h.safe a ha
    · obtain rfl := List.mem_singleton.mp ha
      exact hsafe _ hget

theorem place (h : st.At safe numRows text i) (hn : 2 ≤ numRows) (hlt : i < text.length)
    (hlen : text.length ≤ intMax)
    (hsafe : ∀ old, st.s[(front numRows text i).length]? = some old →
      safe (.overwrite (front numRows text i).length st.siter old text[i])) :
    ∃ st', st.place (zig numRows i) text[i] = some st' ∧ st'.At safe numRows text (i + 1) ∧
      st'.siter = st.siter := by
  by_cases hrow : zig numRows i = 0
  · obtain ⟨st', hst', hat, hsiter⟩ := h.overwrite hlt hlen hrow hsafe
    exact ⟨st', by rw [InPlace.place, if_pos (by omega), hst'], hat, hsiter⟩
  · have hlength := List.length_take_of_le (Nat.le_of_lt hlt)
    have hzig := zig_lt hn i
    obtain ⟨rows, hpush, hrows⟩ := h.rows.appendAt RowString.std_lawful.chars_push
      text[i] (by rw [hlength]; omega) (by rw [hlength]; omega)
    rw [hlength] at hpush
    have hfront := front_succ numRows hlt
    rw [if_neg hrow, List.append_nil] at hfront
    refine ⟨{ st with rows }, ?_, ⟨hlt, ?_, ?_, ?_, h.safe⟩, rfl⟩
    · unfold InPlace.place
      rw [if_neg (by omega)]
      rw [show ((1 : ℕ) : ℤ) = 1 from rfl] at hpush
      simp [hpush]
    · rw [hfront]; exact h.inPlaceCounter
    · rw [hfront]; exact h.s
    · rwa [List.take_succ_eq_append_getElem hlt]

end At

/-! ### Putting the rows back -/

/-- `s` is `done` followed by the letters `rest` that are still to be replaced. -/
structure Put (safe : Access α → Prop) (done rest : List α) (st : InPlace α) : Prop where
  s : st.s = done ++ rest
  inPlaceCounter : st.inPlaceCounter = done.length
  safe : ∀ a ∈ st.accesses, safe a

theorem Put.replaceRow {done rest row : List α} {st : InPlace α} (h : st.Put safe done rest)
    (hsafe : ∀ pos len, pos ≤ len → safe (.replace pos len len))
    (hint : done.length + rest.length ≤ intMax) (hrow : row.length ≤ rest.length) :
    ∃ st', st.replaceRow row = some st' ∧ st'.Put safe (done ++ row) (rest.drop row.length) := by
  have hs : st.s.take done.length ++ row ++ st.s.drop (done.length + row.length) =
      done ++ row ++ rest.drop row.length := by
    rw [h.s, List.take_left, List.drop_append]
    simp
  have hsame : (done ++ row ++ rest.drop row.length).length = st.s.length := by
    simp [h.s]
    omega
  have hrun : st.replaceRow row = some { st with
      s := done ++ row ++ rest.drop row.length
      inPlaceCounter := done.length + row.length
      accesses := st.accesses ++ [.replace done.length st.s.length st.s.length] } := by
    simp only [InPlace.replaceRow, h.inPlaceCounter, hs, hsame]
    rw [if_pos (by simp [h.s]), nat?_eq_some (by omega)]
    rfl
  refine ⟨_, hrun, rfl, List.length_append.symm, fun a ha => ?_⟩
  obtain ha | ha := List.mem_append.mp ha
  · exact h.safe a ha
  · obtain rfl := List.mem_singleton.mp ha
    exact hsafe _ _ (by simp [h.s])

theorem Put.replaceAll (rows : List (List α))
    (hsafe : ∀ pos len, pos ≤ len → safe (.replace pos len len)) {done rest : List α}
    {st : InPlace α} (h : st.Put safe done rest)
    (hint : done.length + rest.length ≤ intMax) (hrows : rows.flatten.length = rest.length) :
    ∃ st', rows.foldlM InPlace.replaceRow st = some st' ∧
      st'.Put safe (done ++ rows.flatten) [] := by
  induction rows generalizing st done rest with
  | nil =>
    obtain rfl := List.length_eq_zero_iff.mp hrows.symm
    exact ⟨st, rfl, by simpa using h⟩
  | cons row rows ih =>
    rw [List.flatten_cons, List.length_append] at hrows
    obtain ⟨st₁, hrow, h₁⟩ := h.replaceRow hsafe hint (show row.length ≤ rest.length by omega)
    obtain ⟨st₂, hrest, h₂⟩ := ih h₁ (by rw [List.length_append, List.length_drop]; omega)
      (by rw [List.length_drop]; omega)
    refine ⟨st₂, by simp [hrow, hrest], ?_⟩
    rwa [List.flatten_cons, ← List.append_assoc]

/-- The first row and the distributed ones make the zigzag text, of the length of the text. -/
private theorem front_append_rows (hn : 2 ≤ numRows) {rows : List (List α)}
    (h : Distributed id (zig numRows) 1 (numRows - 1) text rows) :
    bucket (zig numRows) text 0 ++ rows.flatten = zigzag numRows text := by
  obtain ⟨k, rfl⟩ := Nat.exists_eq_add_of_le' (show 1 ≤ numRows by omega)
  rw [← List.map_id rows, h, zigzag, List.range_succ_eq_map, List.flatMap_cons, List.flatMap_map,
    List.flatMap_def, Nat.add_sub_cancel]
  simp [Nat.add_comm]

theorem At.replaceRows {st : InPlace α} (h : st.At safe numRows text text.length)
    (hn : 2 ≤ numRows) (hlen : text.length ≤ intMax)
    (hsafe : ∀ pos len, pos ≤ len → safe (.replace pos len len)) :
    ∃ st', st.replaceRows numRows = some st' ∧ st'.s = zigzag numRows text ∧
      ∀ a ∈ st'.accesses, safe a := by
  have hfront : front numRows text text.length = bucket (zig numRows) text 0 := by
    unfold front
    rw [List.take_length]
  have hs := h.s
  have hcounter := h.inPlaceCounter
  have hrows := h.rows
  rw [hfront] at hs hcounter
  rw [List.take_length] at hrows
  have hzigzag := front_append_rows hn hrows
  have hle := length_bucket_le (zig numRows) text 0
  have htotal : (zigzag numRows text).length = text.length :=
    length_flatMap_bucket text fun i _ => zig_lt hn i
  rw [← hzigzag, List.length_append] at htotal
  obtain ⟨st', hall, hput⟩ := Put.replaceAll st.rows hsafe ⟨hs, hcounter, h.safe⟩
    (by rw [List.length_drop]; omega) (by rw [List.length_drop]; omega)
  have hcount := hrows.length_eq
  obtain ⟨row, rest, hsplit⟩ := List.exists_cons_of_length_pos (show 0 < st.rows.length by omega)
  have hloop := foldlM_getElem? st.rows InPlace.replaceRow 1 (numRows - 2) (by omega)
  refine ⟨st', ?_, by rw [hput.s, List.append_nil, hzigzag], hput.safe⟩
  rw [hsplit, List.foldlM_cons] at hall
  rw [hsplit, List.drop_one, List.tail_cons] at hloop
  unfold InPlace.replaceRows
  rw [hsplit, List.getElem?_cons_zero, ← hall]
  exact congrArg (st.replaceRow row >>= ·) (funext hloop)

end InPlace

/-! ### `convert_best` -/

/-- A letter is written where the read iterator has passed, and a `replace` keeps the length. -/
def Access.Passed : Access α → Prop
  | .overwrite pos siter _ _ => pos < siter
  | .replace pos before after => pos ≤ before ∧ after = before

/-- The state of `convert_best` after `k` letters, in a period that began at `base`. -/
structure BestAt (numRows : ℕ) (text : List α) (base k : ℕ) (x : Walk × InPlace α) : Prop where
  state : x.2.At Access.Passed numRows text k
  siter : x.2.siter = k
  walk : x.1.At numRows (k - base)

theorem BestAt.step {iter j : ℕ} {x : Walk × InPlace α}
    (h : BestAt numRows text (iter * ((numRows - 1) * 2)) (iter * ((numRows - 1) * 2) + j) x)
    (hn : 2 ≤ numRows) (hint : (numRows - 1) * 2 ≤ intMax) (hlen : text.length ≤ intMax)
    (hj : j < (numRows - 1) * 2) (hlt : iter * ((numRows - 1) * 2) + j < text.length) :
    ∃ x', bestStep text.length numRows j x = some (.yield x') ∧
      BestAt numRows text (iter * ((numRows - 1) * 2)) (iter * ((numRows - 1) * 2) + j + 1) x' := by
  have hwalk := h.walk
  rw [Nat.add_sub_cancel_left] at hwalk
  obtain ⟨w₁, w₂, hturn, hcounter, hnext, hw₂⟩ := hwalk.turn hint hj
  have hsiter := h.siter
  have hletter := h.state.letter hlt
  rw [← zig_mul_add numRows iter j] at hcounter
  obtain ⟨st, hplace, hstate, hst⟩ := h.state.advance.place hn hlt hlen fun old _ => by
    have := length_front_le numRows text (iter * ((numRows - 1) * 2) + j)
    simp only [Access.Passed, InPlace.advance]
    omega
  refine ⟨(w₂, st), ?_, hstate, by simp [hst, InPlace.advance, hsiter], ?_⟩
  · simp [bestStep, hsiter, show iter * ((numRows - 1) * 2) + j ≠ text.length by omega, hturn,
      hletter, hcounter, hplace, hnext]
  · rwa [show iter * ((numRows - 1) * 2) + j + 1 - iter * ((numRows - 1) * 2) = j + 1 by omega]

theorem BestAt.done {base k : ℕ} {x : Walk × InPlace α} (h : BestAt numRows text base k x)
    (hle : text.length ≤ k) (subidx : ℕ) :
    bestStep text.length numRows subidx x = some (.done x) := by
  have := h.state.le_length
  simp [bestStep, h.siter, show k = text.length by omega]

private theorem bestPeriod (hn : 2 ≤ numRows) (hint : (numRows - 1) * 2 ≤ intMax)
    (hlen : text.length ≤ intMax) {iter : ℕ} (hiter : iter * ((numRows - 1) * 2) < text.length)
    {st : InPlace α} (hst : st.At Access.Passed numRows text (iter * ((numRows - 1) * 2)))
    (hsiter : st.siter = iter * ((numRows - 1) * 2)) :
    ∃ x, forIn (List.range ((numRows - 1) * 2)) (.start, st) (bestStep text.length numRows) =
        some x ∧ BestAt numRows text (iter * ((numRows - 1) * 2))
          (min ((iter + 1) * ((numRows - 1) * 2)) text.length) x := by
  have hrun := forIn_break (bestStep text.length numRows)
    (P := BestAt numRows text (iter * ((numRows - 1) * 2))) (m := text.length)
    (List.range ((numRows - 1) * 2)) (iter * ((numRows - 1) * 2))
    (fun j subidx x _ hx hle => hx.done hle subidx)
    (fun j subidx x hj hx hlt => by
      obtain ⟨hj, rfl⟩ := of_getElem?_range hj
      exact hx.step hn hint hlen hj hlt)
    (Nat.le_of_lt hiter) (.start, st)
    ⟨hst, hsiter, by rw [Nat.sub_self]; exact Walk.at_start numRows⟩
  rwa [List.length_range, ← Nat.succ_mul] at hrun

theorem convertBest_eq (hn : 2 ≤ numRows) (hint : (numRows - 1) * 2 ≤ intMax) (text : List α)
    (hlen : text.length ≤ intMax) :
    ∃ accesses, convertBest text numRows = some (zigzag numRows text, accesses) ∧
      ∀ a ∈ accesses, a.Passed := by
  have hsize := Nat.le_trans (periods_le hn text.length) hlen
  obtain ⟨st, hrun, hst, -⟩ := foldlM_periods
    (P := fun k st => InPlace.At Access.Passed numRows text k st ∧ st.siter = k) text.length
    (fun st _ => do
      let x ← forIn (List.range ((numRows - 1) * 2)) (.start, st) (bestStep text.length numRows)
      return x.2)
    (show 0 < (numRows - 1) * 2 by omega)
    (fun iter st hiter hst => by
      obtain ⟨x, hperiod, hx⟩ := bestPeriod hn hint hlen hiter hst.1 hst.2
      exact ⟨x.2, by simp [hperiod], hx.state, hx.siter⟩)
    (.start text numRows) ⟨InPlace.at_start _ _ _, rfl⟩
  obtain ⟨st', hreplace, hs, hsafe⟩ := hst.replaceRows hn hlen fun pos len h => ⟨h, rfl⟩
  refine ⟨st'.accesses, ?_, hsafe⟩
  unfold convertBest
  rw [if_neg (by omega), nat?_eq_some hint]
  simp only [Option.bind_eq_bind, Option.bind_some, nat?_eq_some hsize] at hrun ⊢
  rw [hrun, Option.bind_some, hreplace, Option.bind_some, hs]
  rfl

/-! ### `convert_best1` -/

/-- As `Access.Passed`, but a letter may also be written over itself before the iterator moves. -/
def Access.Read : Access α → Prop
  | .overwrite pos siter old new => pos < siter ∨ pos = siter ∧ new = old
  | .replace pos before after => pos ≤ before ∧ after = before

structure Best1At (numRows : ℕ) (text : List α) (k : ℕ) (st : InPlace α) : Prop where
  state : st.At Access.Read numRows text k
  siter : st.siter = k

theorem Best1At.step {k subidx : ℕ} {st : InPlace α} (h : Best1At numRows text k st)
    (hn : 2 ≤ numRows) (hlen : text.length ≤ intMax) (hlt : k < text.length)
    (hrow : zig numRows k = subidx) :
    ∃ st', best1Step text.length subidx st = some (.yield st') ∧
      Best1At numRows text (k + 1) st' := by
  have hletter := h.state.letter hlt
  obtain ⟨st', hplace, hstate, hsiter⟩ := h.state.place hn hlt hlen fun old hold => by
    have hle := length_front_le numRows text k
    unfold Access.Read
    rw [h.siter]
    by_cases hpos : (front numRows text k).length = k
    · rw [hpos, hletter] at hold
      exact .inr ⟨hpos, Option.some.inj hold⟩
    · exact .inl (by omega)
  rw [hrow] at hplace
  refine ⟨st'.advance, ?_, hstate.advance, by rw [InPlace.advance, hsiter, h.siter]⟩
  simp [best1Step, h.siter, show k ≠ text.length by omega, hletter, hplace]

theorem Best1At.done {k : ℕ} {st : InPlace α} (h : Best1At numRows text k st)
    (hle : text.length ≤ k) (subidx : ℕ) :
    best1Step text.length subidx st = some (.done st) := by
  have := h.state.le_length
  simp [best1Step, h.siter, show k = text.length by omega]

private theorem of_getElem?_reverse_range' {m j x : ℕ}
    (h : (List.range' 1 m).reverse[j]? = some x) : j < m ∧ x = m - j := by
  obtain ⟨hj, hx⟩ := List.getElem?_eq_some_iff.mp h
  rw [List.length_reverse, List.length_range'] at hj
  rw [List.getElem_reverse, List.getElem_range', List.length_range'] at hx
  omega

private theorem best1Period (hn : 2 ≤ numRows) (hlen : text.length ≤ intMax) {iter : ℕ}
    (hiter : iter * ((numRows - 1) * 2) < text.length) {st : InPlace α}
    (hst : Best1At numRows text (iter * ((numRows - 1) * 2)) st) :
    ∃ st₁ st₂, forIn (List.range numRows) st (best1Step text.length) = some st₁ ∧
      forIn (List.range' 1 (numRows - 2)).reverse st₁ (best1Step text.length) = some st₂ ∧
      Best1At numRows text (min ((iter + 1) * ((numRows - 1) * 2)) text.length) st₂ := by
  obtain ⟨st₁, hdown, h₁⟩ := forIn_break (best1Step text.length)
    (P := Best1At numRows text) (m := text.length) (List.range numRows)
    (iter * ((numRows - 1) * 2))
    (fun j subidx st _ hst hle => hst.done hle subidx)
    (fun j subidx st hj hst hlt => by
      obtain ⟨hj, rfl⟩ := of_getElem?_range hj
      apply hst.step hn hlen hlt
      rw [zig_mul_add, zig_of_lt (by omega), if_pos hj])
    (Nat.le_of_lt hiter) st hst
  rw [List.length_range] at h₁
  obtain ⟨st₂, hup, h₂⟩ := forIn_break (best1Step text.length)
    (P := Best1At numRows text) (m := text.length) (List.range' 1 (numRows - 2)).reverse
    (min (iter * ((numRows - 1) * 2) + numRows) text.length)
    (fun j subidx st _ hst hle => hst.done hle subidx)
    (fun j subidx st hj hst hlt => by
      obtain ⟨hj, rfl⟩ := of_getElem?_reverse_range' hj
      apply hst.step hn hlen hlt
      rw [Nat.min_eq_left (by omega), Nat.add_assoc, zig_mul_add, zig_of_lt (by omega),
        if_neg (by omega)]
      omega)
    (Nat.min_le_right _ _) st₁ h₁
  refine ⟨st₁, st₂, hdown, hup, ?_⟩
  rw [List.length_reverse, List.length_range'] at h₂
  rw [Nat.succ_mul]
  convert h₂ using 1
  omega

theorem convertBest1_eq (hn : 2 ≤ numRows) (hint : (numRows - 1) * 2 ≤ intMax) (text : List α)
    (hlen : text.length ≤ intMax) :
    ∃ accesses, convertBest1 text numRows = some (zigzag numRows text, accesses) ∧
      ∀ a ∈ accesses, a.Read := by
  have hsize := Nat.le_trans (periods_le hn text.length) hlen
  obtain ⟨st, hrun, hst⟩ := foldlM_periods (P := Best1At numRows text) text.length
    (fun st _ => do
      let st ← forIn (List.range numRows) st (best1Step text.length)
      forIn (List.range' 1 (numRows - 2)).reverse st (best1Step text.length))
    (show 0 < (numRows - 1) * 2 by omega)
    (fun iter st hiter hst => by
      obtain ⟨st₁, st₂, hdown, hup, h₂⟩ := best1Period hn hlen hiter hst
      exact ⟨st₂, by simp [hdown, hup], h₂⟩)
    (.start text numRows) ⟨InPlace.at_start _ _ _, rfl⟩
  obtain ⟨st', hreplace, hs, hsafe⟩ := hst.state.replaceRows hn hlen fun pos len h => ⟨h, rfl⟩
  refine ⟨st'.accesses, ?_, hsafe⟩
  unfold convertBest1
  rw [if_neg (by omega), nat?_eq_some hint]
  simp only [Option.bind_eq_bind, Option.bind_some, nat?_eq_some hsize] at hrun ⊢
  rw [hrun, Option.bind_some, hreplace, Option.bind_some, hs]
  rfl

/-- The in-place conversions return what the reference returns, with every access in range, no
overflow, and no letter lost before it is read. -/
theorem convert_in_place_agrees (s : List α) {numRows : ℕ} (hn : 1 ≤ numRows)
    (hlen : s.length ≤ intMax) (hint : (numRows - 1) * 2 ≤ intMax) :
    ∃ r best best1, convertRef s numRows = some r ∧ convertBest s numRows = some (r, best) ∧
      convertBest1 s numRows = some (r, best1) ∧
      (∀ pos siter old new, .overwrite pos siter old new ∈ best → pos < siter) ∧
      (∀ pos siter old new, .overwrite pos siter old new ∈ best1 →
        pos < siter ∨ pos = siter ∧ new = old) ∧
      ∀ pos before after, .replace pos before after ∈ best ++ best1 →
        pos ≤ before ∧ after = before := by
  obtain rfl | hn := Nat.eq_or_lt_of_le hn
  · exact ⟨s, [], [], rfl, rfl, rfl, by simp, by simp, by simp⟩
  · obtain ⟨best, hbest, hpassed⟩ := convertBest_eq hn hint s hlen
    obtain ⟨best1, hbest1, hread⟩ := convertBest1_eq hn hint s hlen
    have hsize : (min numRows s.length : ℕ) ≤ toInt s.length := by
      rw [toInt_eq hlen]
      omega
    refine ⟨zigzag numRows s, best, best1, convertRef_eq hn (by omega) s hsize, hbest, hbest1,
      fun _ _ _ _ h => hpassed _ h, fun _ _ _ _ h => hread _ h, fun _ _ _ h => ?_⟩
    obtain h | h := List.mem_append.mp h
    · exact hpassed _ h
    · exact hread _ h

theorem convert_in_place_agrees_paypal :
    ∃ r best best1, convertRef "PAYPAL".toList 3 = some r ∧
      convertBest "PAYPAL".toList 3 = some (r, best) ∧
      convertBest1 "PAYPAL".toList 3 = some (r, best1) := by
  obtain ⟨r, best, best1, href, hbest, hbest1, -⟩ :=
    convert_in_place_agrees "PAYPAL".toList (by decide : 1 ≤ 3) (by decide) (by decide)
  exact ⟨r, best, best1, href, hbest, hbest1⟩

/-- `convert_best1` writes the first letter over itself before it moves the iterator. -/
theorem convertBest1_overwrites_at_siter :
    ∃ r accesses, convertBest1 "AB".toList 2 = some (r, accesses) ∧
      .overwrite 0 0 'A' 'A' ∈ accesses ∧ ¬ ∀ a ∈ accesses, a.Passed := by
  refine ⟨"AB".toList, [.overwrite 0 0 'A' 'A', .replace 1 2 2], by decide, by decide, fun h => ?_⟩
  exact Nat.lt_irrefl 0 (h (.overwrite 0 0 'A' 'A') (by decide))

end CppTricks.ZigZag
