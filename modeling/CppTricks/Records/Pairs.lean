import CppTricks.Foundation.FileStream
import CppTricks.Foundation.StringStream
import Mathlib.Algebra.Ring.Nat
import Mathlib.Data.List.Induction

/-! `get_dyn_items` and `get_jobs`: files with a number of records and two numbers in each. -/
namespace CppTricks.Records
open Foundation

/-- What ends a call without a result; `indeterminate` is the use of a variable without a value,
and `cutOff` is a loop that was cut off. -/
inductive Thrown
  | runtimeError (what : String)
  | invalidArgument (what : String)
  | lengthError (what : String)
  | assertFailed (expr : String)
  | indeterminate
  | cutOff
deriving DecidableEq

structure Item where
  v : Int32
  w : Int32
deriving DecidableEq

structure Job where
  weight : Int32
  length : Int32
deriving DecidableEq

inductive Line
  | stop
  | broken
  | pair (i j : Int32)

def kSplitter : Char := ' '

/-- A `stringstream` after `ss.str(line); ss.clear();`. -/
def ofLine (line : List Char) : StringStream := ⟨line, false, false, false⟩

def parsePair (line : List Char) : Line :=
  let (i, ss) := (ofLine line).extract 0
  if !ss.ok then .stop
  else
    let ss := ss.skip kSplitter
    let (j, ss) := ss.extract 0
    if !ss.ok then .broken else .pair i j

/-- The loop over the records, which both functions have; `make` builds a record. -/
def readPairs {α : Type} (make : Int32 → Int32 → α) :
    ℕ → FileStream → List Char → List α → Except Thrown (List α)
  | 0, _, _, _ => .error .cutOff
  | fuel + 1, stream, line, records =>
    if stream.fail then .ok records
    else
      let (line, stream) := stream.getline line
      match parsePair line with
      | .stop => .ok records
      | .broken => .error (.invalidArgument "Error: String format is broken.")
      | .pair i j => readPairs make fuel stream line (records ++ [make i j])

/-- Whether `ss >> x` gives `x` a value. -/
def assigns (ss : StringStream) : Bool := ss.good && !(ss.rest.dropWhile isSpace).isEmpty

def readHeader (line : List Char) : Except Thrown (Int32 × Int32) :=
  let ss := ofLine line
  if !assigns ss then .error .indeterminate
  else
    let (W, ss) := ss.extract 0
    if !assigns ss then .error .indeterminate
    else
      let (countItems, _) := ss.extract 0
      if countItems.toInt < 0 then .error (.lengthError "vector::reserve")
      else .ok (W, countItems)

/-- `file` is what `filename` names, if it can be opened. -/
def getDynItems (filename : String) (file : Option (List Char)) :
    Except Thrown (Int32 × List Item) :=
  match file with
  | none => .error (.runtimeError "Error: can't open file")
  | some text => do
    let (line, stream) := (FileStream.ofText text).getline []
    let (W, countItems) ← readHeader line
    let items ← readPairs Item.mk (text.length + 3) stream line []
    if items.length ≠ countItems.toInt then
      .error (.runtimeError ("Error: brocken file  " ++ filename))
    else .ok (W, items)

/-- `ss >> x` for a `size_t`. A number after a minus is wrapped. -/
def extractSize (ss : StringStream) (x : ℕ) : ℕ :=
  if ss.good then
    match ss.rest.dropWhile isSpace with
    | [] => x
    | c :: text =>
      let (minus, text) := takeSign (c :: text)
      let digits := text.takeWhile Char.isDigit
      let n := Nat.ofDigitChars 10 digits 0
      if digits = [] then 0
      else if n ≥ 2 ^ 64 then 2 ^ 64 - 1
      else if minus then (2 ^ 64 - n) % 2 ^ 64 else n
  else x

def maxSize : ℕ := (2 ^ 63 - 1) / 8

def getJobs (file : Option (List Char)) : Except Thrown (List Job) :=
  match file with
  | none => .error (.runtimeError "Error: can't open file")
  | some text =>
    let (line, stream) := (FileStream.ofText text).getline []
    let count := extractSize (ofLine line) 0
    if count > maxSize then .error (.lengthError "vector::reserve")
    else do
      let jobs ← readPairs Job.mk (text.length + 3) stream line []
      if count ≠ jobs.length then .error (.assertFailed "count == jobs.size()") else .ok jobs

/-! ### The loop -/

variable {α : Type} {make : Int32 → Int32 → α} {line last old : List Char}
  {lines : List (List Char)} {records : List α} {fuel : ℕ}

def recordsOf (make : Int32 → Int32 → α) : List (List Char) → Except Thrown (List α)
  | [] => .ok []
  | line :: lines =>
    match parsePair line with
    | .stop => .ok []
    | .broken => .error (.invalidArgument "Error: String format is broken.")
    | .pair i j => (recordsOf make lines).map (make i j :: ·)

theorem readPairs_succ (make : Int32 → Int32 → α) (fuel : ℕ) {stream stream' : FileStream}
    (hline : stream.getline old = (line, stream')) (hfail : stream.fail = false)
    (records : List α) : readPairs make (fuel + 1) stream old records =
      match parsePair line with
      | .stop => .ok records
      | .broken => .error (.invalidArgument "Error: String format is broken.")
      | .pair i j => readPairs make fuel stream' line (records ++ [make i j]) := by
  rw [readPairs, hfail, hline]
  rfl

theorem readPairs_eq (hlines : ∀ line ∈ lines, '\n' ∉ line) (hlast : '\n' ∉ last)
    (hfuel : lines.length + 3 ≤ fuel) (old : List Char) (records : List α) :
    readPairs make fuel (.ofText (unlines lines ++ last)) old records =
      (recordsOf make (delivered lines last)).map (records ++ ·) := by
  induction lines generalizing fuel old records with
  | nil =>
    obtain ⟨fuel, rfl⟩ : ∃ n, fuel = n + 3 := ⟨fuel - 3, by omega⟩
    have hround := readPairs_succ make (fuel + 2) (FileStream.getline_last hlast old) rfl
    refine (hround records).trans ?_
    unfold delivered
    by_cases hnil : last = []
    · subst hnil
      exact congrArg Except.ok (List.append_nil records).symm
    · rw [if_neg hnil, List.nil_append]
      unfold recordsOf
      cases hpair : parsePair last with
      | stop => exact congrArg Except.ok (List.append_nil records).symm
      | broken => rfl
      | pair i j =>
        -- the line is read again by the read that fails
        have hisEmpty : last.isEmpty = false := by simpa using hnil
        have hagain := readPairs_succ make (fuel + 1)
          (FileStream.getline_eof last [] last.isEmpty) hisEmpty
        simp only [hagain, hpair, recordsOf]
        exact congrArg Except.ok (List.append_assoc records [make i j] [make i j])
  | cons line lines ih =>
    obtain ⟨fuel, rfl⟩ : ∃ n, fuel = n + 1 := ⟨fuel - 1, by omega⟩
    rw [List.forall_mem_cons] at hlines
    have htext : unlines (line :: lines) ++ last = line ++ '\n' :: (unlines lines ++ last) := by
      simp [unlines]
    have hround := readPairs_succ make fuel
      (FileStream.getline_cons hlines.1 old (unlines lines ++ last)) rfl
    have hdelivered : delivered (line :: lines) last = line :: delivered lines last := rfl
    rw [htext, hround records, hdelivered, recordsOf]
    cases parsePair line with
    | stop => exact congrArg Except.ok (List.append_nil records).symm
    | broken => rfl
    | pair i j =>
      rw [List.length_cons] at hfuel
      dsimp only
      rw [ih hlines.2 (by omega)]
      cases recordsOf make (delivered lines last) with
      | error e => rfl
      | ok rs => exact congrArg Except.ok (List.append_assoc records [make i j] rs)

/-! ### Printed records -/

def showPair (p : Int32 × Int32) : List Char := showInt p.1 ++ kSplitter :: showInt p.2

theorem not_mem_showInt {c : Char} (hdigit : c.isDigit = false) (hminus : c ≠ '-') (x : Int32) :
    c ∉ showInt x := by
  intro h
  rcases mem_showInt h with hd | hm
  · rw [hdigit] at hd
    cases hd
  · exact hminus hm

theorem newline_not_mem_showPair (p : Int32 × Int32) : '\n' ∉ showPair p := by
  have hshow := not_mem_showInt (c := '\n') (by decide) (by decide)
  unfold showPair
  rw [List.mem_append, List.mem_cons]
  rintro (h | h | h)
  · exact hshow p.1 h
  · exact absurd h (by decide)
  · exact hshow p.2 h

/-- The two numbers of a line are read back one after the other. -/
theorem extract_showPair (p : Int32 × Int32) (x y : Int32) :
    (ofLine (showPair p)).extract x = (p.1, .after (kSplitter :: showInt p.2)) ∧
      ((StringStream.after (kSplitter :: showInt p.2)).skip kSplitter).extract y =
        (p.2, .after []) := by
  constructor
  · exact StringStream.extract_showInt p.1 x (by simp [kSplitter])
  · have htail : ∀ c ∈ ([] : List Char).head?, ¬c.isDigit := nofun
    have hlast := StringStream.extract_showInt p.2 y htail
    rw [List.append_nil] at hlast
    rw [StringStream.skip_after_cons]
    exact hlast

theorem parsePair_showPair (p : Int32 × Int32) : parsePair (showPair p) = .pair p.1 p.2 := by
  obtain ⟨hfirst, hsecond⟩ := extract_showPair p 0 0
  unfold parsePair
  rw [hfirst]
  dsimp only
  rw [hsecond]
  rfl

theorem recordsOf_show {toPair : α → Int32 × Int32}
    (hmake : ∀ a, make (toPair a).1 (toPair a).2 = a) (as : List α) (rest : List (List Char)) :
    recordsOf make (as.map (fun a => showPair (toPair a)) ++ rest) =
      (recordsOf make rest).map (as ++ ·) := by
  induction as with
  | nil =>
    rw [List.map_nil, List.nil_append]
    cases recordsOf make rest <;> rfl
  | cons a as ih =>
    rw [List.map_cons, List.cons_append, recordsOf, parsePair_showPair]
    dsimp only
    rw [ih, hmake]
    cases recordsOf make rest <;> rfl

/-! ### Whole files -/

/-- The rounds of the loop after the first line of a text. -/
def rounds (lines : List (List Char)) (last : List Char) : List Char × List (List Char) :=
  match lines with
  | [] => (last, if last = [] then [] else [last])
  | line :: lines => (line, delivered lines last)

theorem length_le_unlines (lines : List (List Char)) : lines.length ≤ (unlines lines).length := by
  induction lines with
  | nil => exact Nat.le_refl 0
  | cons line lines ih =>
    have hcons : (unlines (line :: lines)).length = line.length + 1 + (unlines lines).length := by
      simp [unlines]
      omega
    rw [List.length_cons]
    omega

theorem readPairs_text (make : Int32 → Int32 → α) (hlines : ∀ line ∈ lines, '\n' ∉ line)
    (hlast : '\n' ∉ last) :
    ∃ stream, (FileStream.ofText (unlines lines ++ last)).getline [] =
        ((rounds lines last).1, stream) ∧
      readPairs make ((unlines lines ++ last).length + 3) stream (rounds lines last).1 [] =
        recordsOf make (rounds lines last).2 := by
  have hmap : ∀ r : Except Thrown (List α), r.map ([] ++ ·) = r := by
    intro r
    cases r <;> rfl
  cases lines with
  | nil =>
    refine ⟨_, FileStream.getline_last hlast [], ?_⟩
    have hround := readPairs_succ make (last.length + 2) (FileStream.getline_eof last [] false) rfl
    unfold rounds
    by_cases hnil : last = []
    · subst hnil
      rfl
    · have hisEmpty : last.isEmpty = false := by simpa using hnil
      rw [if_neg hnil, hisEmpty]
      refine (hround []).trans ?_
      unfold recordsOf
      cases parsePair last <;> rfl
  | cons line lines =>
    rw [List.forall_mem_cons] at hlines
    have htext : unlines (line :: lines) ++ last = line ++ '\n' :: (unlines lines ++ last) := by
      simp [unlines]
    rw [htext]
    refine ⟨_, FileStream.getline_cons hlines.1 [] _, ?_⟩
    refine (readPairs_eq hlines.2 hlast ?_ _ []).trans (hmap _)
    have hle := length_le_unlines lines
    simp only [List.length_append, List.length_cons]
    omega

/-- The abstract reader: the header, the records of the rounds, and their number. -/
def itemsOf (filename : String) (lines : List (List Char)) (last : List Char) :
    Except Thrown (Int32 × List Item) := do
  let (W, countItems) ← readHeader (rounds lines last).1
  let items ← recordsOf Item.mk (rounds lines last).2
  if items.length ≠ countItems.toInt then
    .error (.runtimeError ("Error: brocken file  " ++ filename))
  else .ok (W, items)

theorem getDynItems_unlines (hlines : ∀ line ∈ lines, '\n' ∉ line) (hlast : '\n' ∉ last)
    (filename : String) :
    getDynItems filename (some (unlines lines ++ last)) = itemsOf filename lines last := by
  obtain ⟨stream, hline, hpairs⟩ := readPairs_text Item.mk hlines hlast
  unfold getDynItems itemsOf
  dsimp only
  rw [hline]
  dsimp only
  rw [hpairs]

/-- On every text the function ends, and does what the abstract reader does with its lines. -/
theorem getDynItems_eq_itemsOf (filename : String) (text : List Char) : ∃ lines last,
    (∀ line ∈ lines, '\n' ∉ line) ∧ '\n' ∉ last ∧ text = unlines lines ++ last ∧
      getDynItems filename (some text) = itemsOf filename lines last := by
  obtain ⟨lines, last, hlines, hlast, rfl⟩ := exists_unlines text
  exact ⟨lines, last, hlines, hlast, rfl, getDynItems_unlines hlines hlast filename⟩

/-! ### Round trips -/

theorem assigns_of_extract {ss ss' : StringStream} {x y : Int32} (h : ss.extract x = (y, ss'))
    (hok : ss'.fail = false) : assigns ss = true := by
  by_contra hnot
  have hfail : (ss.extract x).2.fail = true := by
    unfold StringStream.extract
    by_cases hgood : ss.good = true
    · have hnil : ss.rest.dropWhile isSpace = [] := by
        simpa [assigns, hgood] using hnot
      rw [if_pos hgood, hnil]
    · rw [if_neg hgood]
  rw [h, hok] at hfail
  cases hfail

theorem readHeader_showPair {p : Int32 × Int32} (h : 0 ≤ p.2.toInt) :
    readHeader (showPair p) = .ok p := by
  obtain ⟨hfirst, hsecond⟩ := extract_showPair p 0 0
  have hspace : ∀ x, (StringStream.after (kSplitter :: showInt p.2)).extract x =
      ((StringStream.after (kSplitter :: showInt p.2)).skip kSplitter).extract x := by
    intro x
    rw [StringStream.skip_after_cons]
    rfl
  have hcount := hspace 0
  rw [hsecond] at hcount
  have hassigns := assigns_of_extract hfirst rfl
  have hassigns' := assigns_of_extract hcount rfl
  unfold readHeader
  simp only [hfirst, hassigns, hassigns', hcount, Bool.not_true, Bool.false_eq_true, if_false,
    if_neg (Int.not_lt.mpr h)]

def showRecords (toPair : α → Int32 × Int32) (header : List Char) (as : List α) : List Char :=
  unlines (header :: as.map fun a => showPair (toPair a))

theorem showPair_ne_nil (p : Int32 × Int32) : showPair p ≠ [] := by
  unfold showPair
  exact List.append_ne_nil_of_right_ne_nil _ (List.cons_ne_nil _ _)

theorem dropLast_unlines (lines : List (List Char)) (last : List Char) :
    (unlines (lines ++ [last])).dropLast = unlines lines ++ last := by
  have hconcat : unlines (lines ++ [last]) = unlines lines ++ last ++ ['\n'] := by
    simp [unlines]
  rw [hconcat, List.dropLast_concat]

section Show

variable {toPair : α → Int32 × Int32} {header : List Char}

theorem newline_not_mem_records (toPair : α → Int32 × Int32) (hheader : '\n' ∉ header)
    (as : List α) : ∀ line ∈ header :: as.map fun a => showPair (toPair a), '\n' ∉ line := by
  rw [List.forall_mem_cons]
  refine ⟨hheader, ?_⟩
  intro line hline
  obtain ⟨a, -, rfl⟩ := List.mem_map.mp hline
  exact newline_not_mem_showPair _

/-- The loop stops at the end of a file whose last line has its newline. -/
theorem recordsOf_delivered (hmake : ∀ a, make (toPair a).1 (toPair a).2 = a) (as : List α) :
    recordsOf make (delivered (as.map fun a => showPair (toPair a)) []) = .ok as := by
  unfold delivered
  rw [recordsOf_show hmake]
  have hstop : recordsOf make [[]] = .ok [] := rfl
  simp [hstop, Except.map]

theorem recordsOf_delivered_last (hmake : ∀ a, make (toPair a).1 (toPair a).2 = a) (as : List α)
    (a : α) :
    recordsOf make (delivered (as.map fun a => showPair (toPair a)) (showPair (toPair a))) =
      .ok (as ++ [a, a]) := by
  have htwice : delivered (as.map fun a => showPair (toPair a)) (showPair (toPair a)) =
      (as ++ [a, a]).map (fun a => showPair (toPair a)) ++ [] := by
    unfold delivered
    rw [if_neg (showPair_ne_nil _), List.map_append, List.append_nil]
    rfl
  rw [htwice, recordsOf_show hmake]
  simp [recordsOf, Except.map]

theorem dropLast_showRecords (as : List α) (a : α) :
    (showRecords toPair header (as ++ [a])).dropLast =
      unlines (header :: as.map fun a => showPair (toPair a)) ++ showPair (toPair a) := by
  unfold showRecords
  rw [List.map_append, ← List.cons_append]
  exact dropLast_unlines _ _

end Show

/-! ### Items -/

def Item.toPair (item : Item) : Int32 × Int32 := (item.v, item.w)

def showItems (W : Int32) (items : List Item) : List Char :=
  showRecords Item.toPair (showPair (W, Int32.ofNat items.length)) items

theorem toInt_ofNat_of_le {n : ℕ} (h : n ≤ 2147483647) : (Int32.ofNat n).toInt = n :=
  Int32.toInt_ofNat_of_lt (by omega)

theorem itemsOf_eq {rest : List (List Char)} {W : Int32} {n : ℕ} {items : List Item}
    (hn : n ≤ 2147483647) (hrounds : rounds lines last = (showPair (W, Int32.ofNat n), rest))
    (hrest : recordsOf Item.mk rest = .ok items) (filename : String) :
    itemsOf filename lines last = if items.length ≠ n then
      .error (.runtimeError ("Error: brocken file  " ++ filename)) else .ok (W, items) := by
  have htoInt := toInt_ofNat_of_le hn
  have hread : readHeader (showPair (W, Int32.ofNat n)) = .ok (W, Int32.ofNat n) := by
    refine readHeader_showPair ?_
    rw [htoInt]
    exact Int.natCast_nonneg _
  unfold itemsOf
  rw [hrounds]
  dsimp only
  rw [hread, hrest]
  simp only [bind, Except.bind, htoInt, ne_eq, Int.natCast_inj]

/-- A printed problem is read back. Without its last newline it is refused. -/
theorem getDynItems_showItems (filename : String) (W : Int32) (items : List Item)
    (hcount : items.length ≤ 2147483647) :
    getDynItems filename (some (showItems W items)) = .ok (W, items) ∧
      getDynItems filename (some (showItems W items).dropLast) =
        .error (.runtimeError ("Error: brocken file  " ++ filename)) := by
  have hheader := newline_not_mem_showPair (W, Int32.ofNat items.length)
  have hmake : ∀ item : Item, Item.mk item.toPair.1 item.toPair.2 = item := fun _ => rfl
  constructor
  · have hitems := getDynItems_unlines (newline_not_mem_records Item.toPair hheader items)
      List.not_mem_nil filename
    rw [List.append_nil] at hitems
    refine hitems.trans ?_
    refine (itemsOf_eq hcount rfl (recordsOf_delivered hmake items) filename).trans ?_
    exact if_neg (not_not.mpr rfl)
  · unfold showItems
    cases items using List.reverseRecOn with
    | nil =>
      -- the header itself is read as an item
      have hitems := getDynItems_unlines (List.forall_mem_nil _) hheader filename
      have hrest : recordsOf Item.mk (rounds [] (showPair (W, Int32.ofNat 0))).2 =
          .ok [⟨W, Int32.ofNat 0⟩] := by
        unfold rounds
        rw [if_neg (showPair_ne_nil _)]
        exact (recordsOf_show hmake [⟨W, Int32.ofNat 0⟩] []).trans rfl
      have htext :
          (showRecords Item.toPair (showPair (W, Int32.ofNat 0)) ([] : List Item)).dropLast =
            unlines [] ++ showPair (W, Int32.ofNat 0) := dropLast_unlines [] _
      exact (congrArg (fun text => getDynItems filename (some text)) htext).trans
        (hitems.trans (itemsOf_eq (n := 0) (Nat.zero_le _) rfl hrest filename))
    | append_singleton items item =>
      rw [dropLast_showRecords,
        getDynItems_unlines (newline_not_mem_records Item.toPair hheader items)
          (newline_not_mem_showPair _),
        itemsOf_eq hcount rfl (recordsOf_delivered_last hmake items item)]
      refine if_pos ?_
      simp only [List.length_append, List.length_cons, List.length_nil]
      omega

theorem getDynItems_showItems_two :
    getDynItems "knapsack1.txt" (some (showItems 6 [⟨3, 4⟩, ⟨-2, 3⟩])) =
        .ok (6, [⟨3, 4⟩, ⟨-2, 3⟩]) ∧
      getDynItems "knapsack1.txt" (some (showItems 6 [⟨3, 4⟩, ⟨-2, 3⟩]).dropLast) =
        .error (.runtimeError ("Error: brocken file  " ++ "knapsack1.txt")) :=
  getDynItems_showItems "knapsack1.txt" 6 [⟨3, 4⟩, ⟨-2, 3⟩] (by decide)

/-! ### Jobs -/

def Job.toPair (job : Job) : Int32 × Int32 := (job.weight, job.length)

def showJobs (jobs : List Job) : List Char :=
  showRecords Job.toPair (Nat.toDigits 10 jobs.length) jobs

theorem extractSize_toDigits {n : ℕ} (hn : n < 2 ^ 64) (x : ℕ) :
    extractSize (ofLine (Nat.toDigits 10 n)) x = n := by
  have hdigits : ∀ c ∈ Nat.toDigits 10 n, c.isDigit := fun c hc =>
    Nat.isDigit_of_mem_toDigits (by decide) (by decide) hc
  obtain ⟨c, ds, hcons⟩ := List.exists_cons_of_ne_nil (Nat.toDigits_ne_nil (b := 10) (n := n))
  have hc : c.isDigit := hdigits c (hcons ▸ List.mem_cons_self)
  have hskip : (c :: ds).dropWhile isSpace = c :: ds := by
    rw [List.dropWhile_cons_of_neg]
    simp [StringStream.isSpace_of_isDigit hc]
  have htake : (c :: ds).takeWhile Char.isDigit = c :: ds :=
    List.takeWhile_eq_self_iff.mpr (hcons ▸ hdigits)
  have hvalue : Nat.ofDigitChars 10 (c :: ds) 0 = n := by
    rw [← hcons, Nat.ofDigitChars_ten_toDigits]
  rw [hcons]
  have hgood : (ofLine (c :: ds)).good = true := rfl
  unfold extractSize
  rw [if_pos hgood]
  unfold ofLine
  dsimp only
  rw [hskip]
  dsimp only
  rw [StringStream.takeSign_of_isDigit hc]
  dsimp only
  rw [htake, if_neg (List.cons_ne_nil c ds), hvalue, if_neg (by omega), if_neg Bool.false_ne_true]

theorem newline_not_mem_toDigits (n : ℕ) : '\n' ∉ Nat.toDigits 10 n := by
  intro h
  exact absurd (Nat.isDigit_of_mem_toDigits (by decide) (by decide) h) (by decide)

/-- What the function does once the lines of the text are known. -/
theorem getJobs_eq {rest : List (List Char)} {n : ℕ} {jobs : List Job}
    (hlines : ∀ line ∈ lines, '\n' ∉ line) (hlast : '\n' ∉ last) (hn : n ≤ maxSize)
    (hrounds : rounds lines last = (Nat.toDigits 10 n, rest))
    (hrest : recordsOf Job.mk rest = .ok jobs) :
    getJobs (some (unlines lines ++ last)) = if n ≠ jobs.length then
      .error (.assertFailed "count == jobs.size()") else .ok jobs := by
  have hmax : maxSize = (2 ^ 63 - 1) / 8 := rfl
  obtain ⟨stream, hline, hpairs⟩ := readPairs_text Job.mk hlines hlast
  rw [hrounds] at hline hpairs
  unfold getJobs
  dsimp only
  rw [hline]
  dsimp only
  rw [extractSize_toDigits (by omega), if_neg (by omega), hpairs, hrest]
  rfl

/-- Printed jobs are read back. Without its last newline the file of some jobs is refused. -/
theorem getJobs_showJobs (jobs : List Job) (hcount : jobs.length ≤ maxSize) :
    getJobs (some (showJobs jobs)) = .ok jobs ∧
      (jobs ≠ [] → getJobs (some (showJobs jobs).dropLast) =
        .error (.assertFailed "count == jobs.size()")) := by
  have hheader := newline_not_mem_toDigits jobs.length
  have hmake : ∀ job : Job, Job.mk job.toPair.1 job.toPair.2 = job := fun _ => rfl
  constructor
  · have hjobs := getJobs_eq (newline_not_mem_records Job.toPair hheader jobs)
      List.not_mem_nil hcount rfl (recordsOf_delivered hmake jobs)
    rw [List.append_nil] at hjobs
    exact hjobs.trans (if_neg (not_not.mpr rfl))
  · intro hne
    unfold showJobs
    cases jobs using List.reverseRecOn with
    | nil => exact absurd rfl hne
    | append_singleton jobs job =>
      rw [dropLast_showRecords, getJobs_eq (newline_not_mem_records Job.toPair hheader jobs)
        (newline_not_mem_showPair _) hcount rfl (recordsOf_delivered_last hmake jobs job)]
      refine if_pos ?_
      simp only [List.length_append, List.length_cons, List.length_nil]
      omega

theorem getJobs_showJobs_two : getJobs (some (showJobs [⟨1, 2⟩, ⟨2, 1⟩])) = .ok [⟨1, 2⟩, ⟨2, 1⟩] ∧
    ([⟨1, 2⟩, ⟨2, 1⟩] ≠ ([] : List Job) → getJobs (some (showJobs [⟨1, 2⟩, ⟨2, 1⟩]).dropLast) =
      .error (.assertFailed "count == jobs.size()")) :=
  getJobs_showJobs [⟨1, 2⟩, ⟨2, 1⟩] (by decide)

end CppTricks.Records
