import CppTricks.Foundation.StringStream
import CppTricks.Foundation.Words

/-! `TEST(OJ, Reverse)`: the words of a string in reverse order, with single spaces between them. -/
namespace CppTricks.Oj
open Foundation

def spacesPurger (f n : Char) : Bool := isSpace f && isSpace n

def eraseUnique (pred : Char → Char → Bool) (s : List Char) : List Char :=
  s.destutter fun f n => ¬pred f n

/-- `none` is `npos`, here and below. -/
def findFirstNotOf (s : List Char) (c : Char) : Option ℕ := s.findIdx? (· != c)

def findLastNotOf (s : List Char) (c : Char) : Option ℕ :=
  (s.reverse.findIdx? (· != c)).map (s.length - 1 - ·)

def find (s : List Char) (c : Char) (offset : ℕ) : Option ℕ :=
  ((s.drop offset).findIdx? (· == c)).map (offset + ·)

/-- `s.erase(s.begin() + b, s.begin() + e)`. `none` is not a range of `s`. -/
def erase (s : List Char) (b e : ℕ) : Option (List Char) :=
  if b ≤ e ∧ e ≤ s.length then some (s.take b ++ s.drop e) else none

def trim (s : List Char) : Option (List Char) := do
  let s ← match findFirstNotOf s ' ' with
    | some startpos => erase s 0 startpos
    | none => some s
  match findLastNotOf s ' ' with
  | some endpos => erase s (endpos + 1) s.length
  | none => some s

/-- The loop that turns every word round. -/
def reverseEach : ℕ → ℕ → List Char → Option (List Char)
  | 0, _, _ => none
  | fuel + 1, offset, s =>
    match find s ' ' offset with
    | none => reverseRange s offset s.length
    | some spacePos => do
      let s ← reverseRange s offset spacePos
      reverseEach fuel (spacePos + 1) s

def collapse (s : List Char) : List Char :=
  let s := eraseUnique spacesPurger s
  if s = [' '] then [] else s

def reverse (fuel : ℕ) (s : List Char) : Option (List Char) := do
  let s ← trim (collapse s)
  let s ← reverseRange s 0 s.length
  reverseEach fuel 0 s

variable {s u text : List Char} {c : Char} {i fuel : ℕ}

/-! ### The spaces at the ends -/

theorem erase_findFirstNotOf (h : findFirstNotOf s c = some i) :
    erase s 0 i = some (s.dropWhile (· == c)) := by
  obtain ⟨hlt, hi⟩ := List.findIdx?_eq_some_iff_findIdx_eq.mp h
  unfold erase
  rw [if_pos ⟨Nat.zero_le i, hlt.le⟩, List.dropWhile_eq_drop_findIdx_not, ← hi]
  rfl

theorem erase_findLastNotOf (h : findLastNotOf s c = some i) :
    erase s (i + 1) s.length = some (s.rdropWhile (· == c)) := by
  obtain ⟨j, hj, rfl⟩ := Option.map_eq_some_iff.mp h
  obtain ⟨hlt, hj⟩ := List.findIdx?_eq_some_iff_findIdx_eq.mp hj
  rw [List.length_reverse] at hlt
  have hpos : s.length - 1 - j + 1 = s.length - j := by omega
  unfold erase List.rdropWhile
  rw [hpos, if_pos ⟨Nat.sub_le _ _, le_rfl⟩, List.drop_length, List.append_nil,
    List.dropWhile_eq_drop_findIdx_not, List.reverse_drop, List.reverse_reverse,
    List.length_reverse, ← hj]
  rfl

theorem exists_findFirstNotOf (h : ∃ d ∈ s, d ≠ c) : ∃ i, findFirstNotOf s c = some i := by
  obtain ⟨d, hd, hne⟩ := h
  unfold findFirstNotOf
  rw [← Option.isSome_iff_exists, List.findIdx?_isSome, List.any_eq_true]
  exact ⟨d, hd, by simpa using hne⟩

theorem exists_findLastNotOf (h : ∃ d ∈ s, d ≠ c) : ∃ i, findLastNotOf s c = some i := by
  obtain ⟨d, hd, hne⟩ := h
  obtain ⟨i, hi⟩ := exists_findFirstNotOf (s := s.reverse) ⟨d, List.mem_reverse.mpr hd, hne⟩
  exact ⟨_, Option.map_eq_some_iff.mpr ⟨i, hi, rfl⟩⟩

theorem trim_eq (h : ∃ c ∈ s, c ≠ ' ') : trim s = some (stripped ' ' s) := by
  have hrest : ∃ c ∈ s.dropWhile (· == ' '), c ≠ ' ' := by
    have hne := dropWhile_ne_nil h
    refine ⟨_, List.head_mem hne, ?_⟩
    intro hhead
    exact head?_dropWhile_ne ' ' s (by rw [List.head?_eq_some_head hne, hhead])
  obtain ⟨i, hi⟩ := exists_findFirstNotOf h
  obtain ⟨j, hj⟩ := exists_findLastNotOf hrest
  unfold trim
  rw [hi]
  simp only [erase_findFirstNotOf hi, hj, Option.bind_eq_bind, Option.bind_some]
  exact erase_findLastNotOf hj

/-! ### Repeated spaces -/

theorem not_spacesPurger (hs : ∀ c ∈ s, isSpace c → c = ' ') :
    ∀ f ∈ s, ∀ n ∈ s, ¬(¬spacesPurger f n) → f = ' ' ∧ n = ' ' := by
  intro f hf n hn hboth
  rw [not_not, spacesPurger, Bool.and_eq_true] at hboth
  exact ⟨hs f hf hboth.1, hs n hn hboth.2⟩

theorem isChain_eraseUnique (s : List Char) :
    (eraseUnique spacesPurger s).IsChain fun f n => ¬(f = ' ' ∧ n = ' ') := by
  refine (List.isChain_destutter _ s).imp ?_
  rintro f n hne ⟨rfl, rfl⟩
  exact hne (by decide)

theorem eq_space_of_isChain (hall : ∀ c ∈ s, c = ' ')
    (hchain : s.IsChain fun f n => ¬(f = ' ' ∧ n = ' ')) : s = [] ∨ s = [' '] := by
  cases s with
  | nil => exact .inl rfl
  | cons c s =>
    rw [List.forall_mem_cons] at hall
    obtain ⟨rfl, hrest⟩ := hall
    cases s with
    | nil => exact .inr rfl
    | cons d s =>
      exact absurd ⟨rfl, hrest d List.mem_cons_self⟩ (List.isChain_cons_cons.mp hchain).1

/-- Either nothing is left, or single spaces and something else. -/
theorem collapse_cases (hs : ∀ c ∈ s, isSpace c → c = ' ') :
    collapse s = [] ∧ fullWords ' ' s = [] ∨
      (∃ c ∈ collapse s, c ≠ ' ') ∧ ((collapse s).IsChain fun f n => ¬(f = ' ' ∧ n = ' ')) ∧
        fullWords ' ' (collapse s) = fullWords ' ' s := by
  have hwords : fullWords ' ' (eraseUnique spacesPurger s) = fullWords ' ' s :=
    fullWords_destutter (not_spacesPurger hs)
  have hchain := isChain_eraseUnique s
  unfold collapse
  by_cases hall : ∀ c ∈ eraseUnique spacesPurger s, c = ' '
  · left
    rcases eq_space_of_isChain hall hchain with hnil | hspace
    · rw [hnil, fullWords_nil] at hwords
      exact ⟨by rw [hnil]; rfl, hwords.symm⟩
    · rw [hspace, fullWords_cons_self, fullWords_nil] at hwords
      exact ⟨by rw [hspace]; rfl, hwords.symm⟩
  · right
    have hne : eraseUnique spacesPurger s ≠ [' '] := by
      intro hspace
      rw [hspace] at hall
      exact hall (by simp)
    rw [if_neg hne]
    push Not at hall
    exact ⟨hall, hchain, hwords⟩

/-! ### The words -/

theorem find_eq_none (h : ' ' ∉ text) : find (u ++ text) ' ' u.length = none := by
  unfold find
  rw [List.drop_left, Option.map_eq_none_iff, List.findIdx?_eq_none_iff]
  intro c hc
  exact beq_false_of_ne fun heq => h (heq ▸ hc)

theorem find_eq_some {w : List Char} (h : ' ' ∉ w) :
    find (u ++ (w ++ ' ' :: text)) ' ' u.length = some (u.length + w.length) := by
  have hw : w.findIdx? (· == ' ') = none := by
    rw [List.findIdx?_eq_none_iff]
    intro c hc
    exact beq_false_of_ne fun heq => h (heq ▸ hc)
  unfold find
  rw [List.drop_left, List.findIdx?_append, hw, List.findIdx?_cons]
  simp

theorem reverseEach_eq (hfuel : text.length < fuel) :
    reverseEach fuel u.length (u ++ text) = some (u ++ reverseWords ' ' text) := by
  induction text using words_induction ' ' generalizing u fuel with
  | word w hw =>
    obtain ⟨fuel, rfl⟩ := Nat.exists_eq_succ_of_ne_zero (Nat.ne_zero_of_lt hfuel)
    have hrange := reverseRange_append u w []
    unfold reverseEach
    rw [find_eq_none hw, reverseWords_of_not_mem hw]
    simpa using hrange
  | sep w text hw ih =>
    obtain ⟨fuel, rfl⟩ := Nat.exists_eq_succ_of_ne_zero (Nat.ne_zero_of_lt hfuel)
    rw [List.length_append, List.length_cons] at hfuel
    have hrange := reverseRange_append u w (' ' :: text)
    have hrest := ih (u := u ++ w.reverse ++ [' ']) (by omega : text.length < fuel)
    rw [List.append_assoc] at hrange
    unfold reverseEach
    rw [find_eq_some hw]
    simp only [hrange, Option.bind_eq_bind, Option.bind_some]
    rw [reverseWords_append_cons hw]
    simpa [Nat.add_assoc] using hrest

theorem length_collapse_le (s : List Char) : (collapse s).length ≤ s.length := by
  unfold collapse
  by_cases hspace : eraseUnique spacesPurger s = [' ']
  · rw [if_pos hspace]
    exact Nat.zero_le _
  · rw [if_neg hspace]
    exact (List.destutter_sublist _ s).length_le

/-- The words that are left are those of the string, in reverse order. -/
theorem reverse_words (s : List Char) (hs : ∀ c ∈ s, isSpace c → c = ' ') (fuel : ℕ)
    (hfuel : s.length < fuel) :
    reverse fuel s = some ([' '].intercalate (fullWords ' ' s).reverse) := by
  unfold reverse
  rcases collapse_cases hs with ⟨hnil, hnone⟩ | ⟨hne, hchain, hwords⟩
  · have hpos : ([] : List Char).length < fuel := Nat.zero_lt_of_lt hfuel
    have hrun := reverseEach_eq (u := []) hpos
    rw [reverseWords_of_not_mem List.not_mem_nil] at hrun
    rw [hnil, hnone]
    exact hrun
  · have hpart := stripped_isInfix ' ' (collapse s)
    have hchain' := List.IsChain.infix hchain hpart
    have hlen : (stripped ' ' (collapse s)).reverse.length < fuel := by
      rw [List.length_reverse]
      exact (hpart.length_le.trans (length_collapse_le s)).trans_lt hfuel
    have hrun := reverseEach_eq (u := []) hlen
    have hsplit : (stripped ' ' (collapse s)).splitOn ' ' = fullWords ' ' s := by
      rw [← fullWords_eq_splitOn (stripped_ne_nil hne) hchain' (head?_stripped hne)
        (getLast?_stripped ' ' _), fullWords_stripped, hwords]
    rw [trim_eq hne, Option.bind_eq_bind, Option.bind_some, reverseRange_self, Option.bind_some]
    rw [List.nil_append, List.nil_append, reverseWords_reverse, hsplit] at hrun
    exact hrun

theorem reverse_words_five :
    reverse 6 [' ', 'a', ' ', ' ', 'b'] =
      some ([' '].intercalate (fullWords ' ' [' ', 'a', ' ', ' ', 'b']).reverse) :=
  reverse_words [' ', 'a', ' ', ' ', 'b'] (by simp [isSpace]) 6 (by decide)

example : reverse 6 [' ', 'a', ' ', ' ', 'b'] = some ['b', ' ', 'a'] := by decide

end CppTricks.Oj
