import CppTricks.Foundation.CString
import CppTricks.Foundation.Words
import Mathlib.Order.Nat

/-! `inplace_reverse`: the words of a string in reverse order, in place. -/
namespace CppTricks.Facebook
open Foundation

/-- The memory that `arr` points to, and the indices that have been read and written. -/
structure Buffer where
  cells : List Char
  reads : List ℕ
  writes : List ℕ
  deriving DecidableEq

def Buffer.logRead (arr : Buffer) (i : ℕ) : Buffer := { arr with reads := i :: arr.reads }

/-- `arr[i]`. `none` is an access outside the memory. -/
def Buffer.read (arr : Buffer) (i : ℕ) : Option (Char × Buffer) := do
  let c ← arr.cells[i]?
  return (c, arr.logRead i)

def Buffer.reverse (arr : Buffer) (b e : ℕ) : Option Buffer := do
  let cells ← reverseRange arr.cells b e
  let touched := List.range' b (e - b)
  return ⟨cells, touched ++ arr.reads, touched ++ arr.writes⟩

/-- The inner loop: the value that `e` has afterwards. -/
def scan (length : ℕ) : ℕ → ℕ → Buffer → Option (ℕ × Buffer)
  | 0, _, _ => none
  | fuel + 1, e, arr => do
    let (c, arr) ← arr.read e
    if c ≠ ' ' then
      if length ≤ e + 1 then return (length, arr)
      scan length fuel (e + 1) arr
    else return (e, arr)

def eachWord (length : ℕ) : ℕ → ℕ → ℕ → Buffer → Option Buffer
  | 0, _, _, _ => none
  | fuel + 1, b, e, arr => do
    let (e, arr) ← scan length fuel e arr
    let arr ← arr.reverse b e
    if length ≤ e then return arr
    eachWord length fuel (e + 1) (e + 1) arr

def inplaceReverse (fuel : ℕ) (arr : Buffer) (length : ℕ) : Option Buffer := do
  let arr ← eachWord length fuel 0 0 arr
  arr.reverse 0 length

variable {arr : Buffer} {u w post text rest : List Char} {c x : Char} {length fuel i b e : ℕ}

/-- What has been touched so far: no index above `length` is read, and none from it on written. -/
structure Buffer.Within (length : ℕ) (arr : Buffer) : Prop where
  reads : ∀ i ∈ arr.reads, i ≤ length
  writes : ∀ i ∈ arr.writes, i < length

@[simp] theorem Buffer.logRead_cells (arr : Buffer) (i : ℕ) : (arr.logRead i).cells = arr.cells :=
  rfl

theorem Buffer.Within.logRead (h : arr.Within length) (hi : i ≤ length) :
    (arr.logRead i).Within length := by
  refine ⟨?_, h.writes⟩
  rw [Buffer.logRead, List.forall_mem_cons]
  exact ⟨hi, h.reads⟩

theorem Buffer.Within.touch (h : arr.Within length) (hle : e ≤ length) (cells : List Char) :
    Buffer.Within length
      ⟨cells, List.range' b (e - b) ++ arr.reads, List.range' b (e - b) ++ arr.writes⟩ := by
  have htouched : ∀ i ∈ List.range' b (e - b), i < length := by
    intro i hi
    rw [List.mem_range'_1] at hi
    omega
  constructor
  · intro i hi
    rcases List.mem_append.mp hi with hi | hi
    · exact Nat.le_of_lt (htouched i hi)
    · exact h.reads i hi
  · intro i hi
    rcases List.mem_append.mp hi with hi | hi
    · exact htouched i hi
    · exact h.writes i hi

theorem Buffer.reverse_eq (hcells : arr.cells = u ++ w ++ post) (hb : u.length = b)
    (he : b + w.length = e) (h : arr.Within length) (hle : e ≤ length) :
    ∃ arr', arr.reverse b e = some arr' ∧ arr'.cells = u ++ w.reverse ++ post ∧
      arr'.Within length := by
  refine ⟨_, ?_, rfl, h.touch (b := b) hle (u ++ w.reverse ++ post)⟩
  subst hb he
  unfold Buffer.reverse
  rw [hcells, reverseRange_append]
  rfl

/-! ### The scan -/

theorem scan_space (hc : arr.cells[e]? = some ' ') :
    scan length (fuel + 1) e arr = some (e, arr.logRead e) := by
  unfold scan Buffer.read
  rw [hc]
  rfl

theorem scan_stop (hc : arr.cells[e]? = some c) (hne : c ≠ ' ') (he : length ≤ e + 1) :
    scan length (fuel + 1) e arr = some (length, arr.logRead e) := by
  unfold scan Buffer.read
  simp [hc, hne, he]

theorem scan_go (hc : arr.cells[e]? = some c) (hne : c ≠ ' ') (he : e + 1 < length) :
    scan length (fuel + 1) e arr = scan length fuel (e + 1) (arr.logRead e) := by
  rw [scan, Buffer.read]
  simp [hc, hne, not_le.mpr he]

theorem eachWord_last {arr₁ arr₂ : Buffer} {e' : ℕ}
    (hscan : scan length fuel e arr = some (e', arr₁)) (hreverse : arr₁.reverse b e' = some arr₂)
    (he : length ≤ e') :
    eachWord length (fuel + 1) b e arr = some arr₂ := by
  unfold eachWord
  simp [hscan, hreverse, he]

theorem eachWord_next {arr₁ arr₂ : Buffer} {e' : ℕ}
    (hscan : scan length fuel e arr = some (e', arr₁)) (hreverse : arr₁.reverse b e' = some arr₂)
    (he : e' < length) :
    eachWord length (fuel + 1) b e arr = eachWord length fuel (e' + 1) (e' + 1) arr₂ := by
  rw [eachWord]
  simp [hscan, hreverse, not_le.mpr he]

/-- The scan goes over a word to the space after it, or to the end. -/
theorem scan_eq (hcells : arr.cells = u ++ w ++ x :: post) (hw : ' ' ∉ w)
    (hx : x = ' ' ∧ u.length + w.length < length ∨ x ≠ ' ' ∧ u.length + w.length = length)
    (h : arr.Within length) (hfuel : w.length < fuel) :
    ∃ arr', scan length fuel u.length arr = some (u.length + w.length, arr') ∧
      arr'.cells = arr.cells ∧ arr'.Within length := by
  induction w generalizing u arr fuel with
  | nil =>
    obtain ⟨fuel, rfl⟩ := Nat.exists_eq_succ_of_ne_zero (Nat.ne_zero_of_lt hfuel)
    have hc : arr.cells[u.length]? = some x := by simp [hcells]
    rw [List.length_nil, Nat.add_zero] at hx ⊢
    rcases hx with ⟨rfl, hlen⟩ | ⟨hne, rfl⟩
    · exact ⟨_, scan_space hc, rfl, h.logRead hlen.le⟩
    · exact ⟨_, scan_stop hc hne (Nat.le_succ _), rfl, h.logRead le_rfl⟩
  | cons c w ih =>
    obtain ⟨fuel, rfl⟩ := Nat.exists_eq_succ_of_ne_zero (Nat.ne_zero_of_lt hfuel)
    rw [List.mem_cons, not_or] at hw
    rw [List.length_cons] at hx hfuel
    have hc : arr.cells[u.length]? = some c := by simp [hcells]
    have hlog : (arr.logRead u.length).Within length := h.logRead (by omega)
    by_cases hstop : length ≤ u.length + 1
    · have hend : length = u.length + (w.length + 1) := by omega
      refine ⟨arr.logRead u.length, ?_, rfl, hlog⟩
      rw [List.length_cons, ← hend]
      exact scan_stop hc (Ne.symm hw.1) hstop
    · have hlen : (u ++ [c]).length = u.length + 1 := by rw [List.length_append]; rfl
      obtain ⟨arr', hrun, hcells', h'⟩ := ih (u := u ++ [c]) (by simp [hcells]) hw.2
        (by rw [hlen, Nat.add_assoc, Nat.add_comm 1]; exact hx) hlog
        (Nat.lt_of_succ_lt_succ hfuel)
      rw [hlen, Nat.add_assoc, Nat.add_comm 1] at hrun
      exact ⟨arr', (scan_go hc (Ne.symm hw.1) (not_le.mp hstop)).trans hrun, hcells', h'⟩

/-! ### The words -/

theorem eachWord_eq (hcells : arr.cells = u ++ text ++ x :: rest) (hx : x ≠ ' ')
    (hlen : u.length + text.length = length) (h : arr.Within length)
    (hfuel : text.length + 1 < fuel) :
    ∃ arr', eachWord length fuel u.length u.length arr = some arr' ∧
      arr'.cells = u ++ reverseWords ' ' text ++ x :: rest ∧ arr'.Within length := by
  induction text using words_induction ' ' generalizing u arr fuel with
  | word w hw =>
    obtain ⟨fuel, rfl⟩ := Nat.exists_eq_succ_of_ne_zero (Nat.ne_zero_of_lt hfuel)
    obtain ⟨arr₁, hscan, hcells₁, h₁⟩ := scan_eq hcells hw (.inr ⟨hx, hlen⟩) h
      (Nat.lt_of_succ_lt_succ hfuel)
    obtain ⟨arr₂, hreverse, hcells₂, h₂⟩ :=
      Buffer.reverse_eq (hcells₁.trans hcells) rfl rfl h₁ hlen.le
    refine ⟨arr₂, eachWord_last hscan hreverse hlen.ge, ?_, h₂⟩
    rw [reverseWords_of_not_mem hw]
    exact hcells₂
  | sep w text hw ih =>
    obtain ⟨fuel, rfl⟩ := Nat.exists_eq_succ_of_ne_zero (Nat.ne_zero_of_lt hfuel)
    rw [List.length_append, List.length_cons] at hlen hfuel
    have hsplit : u ++ (w ++ ' ' :: text) ++ x :: rest =
        u ++ w ++ ' ' :: (text ++ x :: rest) := by simp
    have hlt : u.length + w.length < length := by omega
    obtain ⟨arr₁, hscan, hcells₁, h₁⟩ := scan_eq (hcells.trans hsplit) hw (.inl ⟨rfl, hlt⟩) h
      (by omega : w.length < fuel)
    obtain ⟨arr₂, hreverse, hcells₂, h₂⟩ :=
      Buffer.reverse_eq (hcells₁.trans (hcells.trans hsplit)) rfl rfl h₁ hlt.le
    have hnext : (u ++ w.reverse ++ [' ']).length = u.length + w.length + 1 := by simp; omega
    obtain ⟨arr₃, hrest, hcells₃, h₃⟩ := ih (u := u ++ w.reverse ++ [' '])
      (by rw [hcells₂]; simp) (by rw [hnext]; omega) h₂
      (by omega : text.length + 1 < fuel)
    rw [hnext] at hrest
    refine ⟨arr₃, (eachWord_next hscan hreverse hlt).trans hrest, ?_, h₃⟩
    rw [hcells₃, reverseWords_append_cons hw]
    simp

/-- The words change places, the memory after the string is as it was, and no index above its length
is touched. -/
theorem inplaceReverse_words (text rest : List Char) (fuel : ℕ) (hfuel : text.length + 1 < fuel) :
    ∃ text' arr', inplaceReverse fuel ⟨text ++ nul :: rest, [], []⟩ text.length = some arr' ∧
      arr'.cells = text' ++ nul :: rest ∧ text'.splitOn ' ' = (text.splitOn ' ').reverse ∧
      (∀ i ∈ arr'.reads, i ≤ text.length) ∧ ∀ i ∈ arr'.writes, i < text.length := by
  have hstart : Buffer.Within text.length ⟨text ++ nul :: rest, [], []⟩ :=
    ⟨List.forall_mem_nil _, List.forall_mem_nil _⟩
  obtain ⟨arr₁, hwords, hcells₁, h₁⟩ := eachWord_eq (u := []) rfl (x := nul) (by decide)
    (Nat.zero_add _) hstart hfuel
  obtain ⟨arr₂, hreverse, hcells₂, h₂⟩ := Buffer.reverse_eq hcells₁ rfl
    (by rw [length_reverseWords]; exact Nat.zero_add _) h₁ le_rfl
  refine ⟨(reverseWords ' ' text).reverse, arr₂, ?_, hcells₂, ?_, h₂.reads, h₂.writes⟩
  · unfold inplaceReverse
    rw [List.length_nil] at hwords
    rw [hwords]
    exact hreverse
  · exact splitOn_reverse_reverseWords ' ' text

theorem inplaceReverse_words_four : ∃ text' arr',
    inplaceReverse 6 ⟨[' ', 'n', 'o', ' ', nul], [], []⟩ 4 = some arr' ∧
      arr'.cells = text' ++ [nul] ∧ text'.splitOn ' ' = ([' ', 'n', 'o', ' '].splitOn ' ').reverse ∧
      (∀ i ∈ arr'.reads, i ≤ 4) ∧ ∀ i ∈ arr'.writes, i < 4 :=
  inplaceReverse_words [' ', 'n', 'o', ' '] [] 6 (by decide)

example : (inplaceReverse 6 ⟨['n', 'o', ' ', 'a', nul], [], []⟩ 4).map Buffer.cells =
    some ['a', ' ', 'n', 'o', nul] := by decide

end CppTricks.Facebook
