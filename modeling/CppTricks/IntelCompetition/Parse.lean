import CppTricks.Foundation.Arrays
import CppTricks.Foundation.CString
import CppTricks.Foundation.FixedWidth
import CppTricks.Foundation.Loops
import CppTricks.Foundation.StringStream
import CppTricks.Foundation.Words

/-! `parse`: the six parameters of a test, from one line of the input. Its buffer `temp` is declared
in the loop, so that each round begins with an array of 16 indeterminate characters. -/
namespace CppTricks.IntelCompetition
open Foundation

/-- The number at the front of a text, which has no defined value where it is no `int`. -/
def decimal (text : List Char) : Option ℤ :=
  let (minus, text) := takeSign (text.dropWhile isSpace)
  let n : ℤ := Nat.ofDigitChars 10 (text.takeWhile Char.isDigit) 0
  int? (if minus then -n else n)

/-- The characters up to the terminator. `none` is one that is indeterminate, or no terminator. -/
def chars : List (Option Char) → Option (List Char)
  | [] => none
  | none :: _ => none
  | some c :: temp => if c = nul then some [] else (chars temp).map (c :: ·)

def atoi (temp : List (Option Char)) : Option ℤ := (chars temp).bind decimal

/-- A cell of `rez` is `none` while its value is indeterminate or not defined. -/
structure ParseState where
  posWr : ℕ
  posRez : ℕ
  rez : List (Option ℤ)

/-- One round. `none` is a write outside `temp` or `rez`. -/
def parseStep (st : ParseState) (c : Char) : Option ParseState :=
  let temp := List.replicate 16 none
  if c ≠ ' ' ∧ c ≠ nul then do
    let _ ← assign temp st.posWr (some c)
    return { st with posWr := st.posWr + 1 }
  else do
    let temp ← assign temp st.posWr (some nul)
    let rez ← assign st.rez st.posRez (atoi temp)
    return ⟨0, st.posRez + 1, rez⟩

/-- A parameter is `none` if to read it is undefined. -/
structure Params where
  M : Option ℤ
  N : Option ℤ
  a : Option ℤ
  b : Option ℤ
  m : Option ℤ
  seed0 : Option ℤ

/-- Which number is which parameter. -/
def params (rez : List (Option ℤ)) : Option Params := do
  let M ← rez[0]?
  let N ← rez[1]?
  let seed0 ← rez[2]?
  let a ← rez[3]?
  let b ← rez[4]?
  let m ← rez[5]?
  return ⟨M, N, a, b, m, seed0⟩

namespace Params

def toList (p : Params) : List (Option ℤ) := [p.M, p.N, p.seed0, p.a, p.b, p.m]

/-- No value was needed that is indeterminate. -/
def Defined (p : Params) : Prop := ∀ x ∈ p.toList, x.isSome

end Params

def parse (s : List Char) : Option Params := do
  let len := toInt (strlen nul s)
  let st ← (List.range' 0 (len + 1).toNat).foldlM (fun st posRd => s[posRd]?.bind (parseStep st))
    ⟨0, 0, List.replicate 6 none⟩
  params st.rez

/-- What is stored for a piece between separators: all but the terminator is indeterminate. -/
def stored (w : List Char) : Option ℤ := if w = [] then some 0 else none

variable {w line : List Char} {vals undef rez : List (Option ℤ)} {c : Char} {k n : ℕ}

theorem atoi_terminated (hk : k < 16) :
    ∃ temp, assign (List.replicate 16 none) k (some nul) = some temp ∧
      atoi temp = if k = 0 then some 0 else none := by
  refine ⟨_, assign_eq (by simpa using hk) _, ?_⟩
  cases k with
  | zero => rfl
  | succ k => rfl

theorem parseStep_character (hc : c ≠ ' ' ∧ c ≠ nul) (hk : k < 16) :
    parseStep ⟨k, n, rez⟩ c = some ⟨k + 1, n, rez⟩ := by
  unfold parseStep
  rw [if_pos hc]
  dsimp only
  rw [assign_eq (by simpa using hk)]
  rfl

theorem parseStep_separator (hc : ¬(c ≠ ' ' ∧ c ≠ nul)) (hlen : w.length < 16) (u : Option ℤ) :
    parseStep ⟨w.length, vals.length, vals ++ u :: undef⟩ c =
      some ⟨0, (vals ++ [stored w]).length, vals ++ [stored w] ++ undef⟩ := by
  obtain ⟨temp, htemp, hatoi⟩ := atoi_terminated hlen
  have hstored : atoi temp = stored w := by
    rw [hatoi]
    unfold stored
    simp only [List.length_eq_zero_iff]
  unfold parseStep
  rw [if_neg hc]
  dsimp only
  rw [htemp, Option.bind_eq_bind, Option.bind_some, assign_append, hstored, List.length_append,
    List.append_assoc]
  rfl

/-- The terminator has no place behind 16 characters, and no number behind the last cell. -/
theorem parseStep_eq_none (hc : ¬(c ≠ ' ' ∧ c ≠ nul)) {st : ParseState}
    (h : 16 ≤ st.posWr ∨ st.rez.length ≤ st.posRez) : parseStep st c = none := by
  unfold parseStep
  rw [if_neg hc]
  rcases h with htemp | hrez
  · rw [assign_eq_none (by simpa using htemp)]
    rfl
  · cases assign (List.replicate 16 none) st.posWr (some nul) with
    | none => rfl
    | some temp =>
      rw [Option.bind_eq_bind, Option.bind_some, assign_eq_none hrez]
      rfl

/-- The characters of a piece, of which `k` have been read already. -/
theorem foldlM_piece (hw : ∀ c ∈ w, c ≠ ' ' ∧ c ≠ nul) (hk : k ≤ 16) :
    w.foldlM parseStep ⟨k, n, rez⟩ =
      if k + w.length ≤ 16 then some ⟨k + w.length, n, rez⟩ else none := by
  induction w generalizing k with
  | nil => simp [hk]
  | cons c w ih =>
    rw [List.forall_mem_cons] at hw
    rw [List.foldlM_cons, List.length_cons]
    by_cases hlt : k < 16
    · rw [parseStep_character hw.1 hlt, Nat.add_comm w.length 1, ← Nat.add_assoc]
      exact ih hw.2 hlt
    · rw [parseStep, if_pos hw.1, assign_eq_none (by simpa using hlt), if_neg (by omega)]
      rfl

theorem foldlM_word (hw : ∀ c ∈ w, c ≠ ' ' ∧ c ≠ nul) (n : ℕ) (rez : List (Option ℤ)) :
    w.foldlM parseStep ⟨0, n, rez⟩ =
      if w.length ≤ 16 then some ⟨w.length, n, rez⟩ else none := by
  have hpiece : w.foldlM parseStep ⟨0, n, rez⟩ = _ := foldlM_piece hw (Nat.zero_le 16)
  rwa [Nat.zero_add] at hpiece

theorem foldlM_separated (hw : ∀ c ∈ w, c ≠ ' ' ∧ c ≠ nul) (hc : ¬(c ≠ ' ' ∧ c ≠ nul))
    (hlen : w.length < 16) (vals undef : List (Option ℤ)) (u : Option ℤ) (rest : List Char) :
    (w ++ c :: rest).foldlM parseStep ⟨0, vals.length, vals ++ u :: undef⟩ =
      rest.foldlM parseStep ⟨0, (vals ++ [stored w]).length, vals ++ [stored w] ++ undef⟩ := by
  rw [List.foldlM_append, foldlM_word hw, if_pos (by omega), Option.bind_eq_bind,
    Option.bind_some, List.foldlM_cons, parseStep_separator hc hlen, Option.bind_eq_bind,
    Option.bind_some]

theorem foldlM_separated_eq_none (hw : ∀ c ∈ w, c ≠ ' ' ∧ c ≠ nul) (hc : ¬(c ≠ ' ' ∧ c ≠ nul))
    (h : 16 ≤ w.length ∨ rez.length ≤ n) (rest : List Char) :
    (w ++ c :: rest).foldlM parseStep ⟨0, n, rez⟩ = none := by
  rw [List.foldlM_append, foldlM_word hw]
  split
  case isTrue hle =>
    rw [Option.bind_eq_bind, Option.bind_some, List.foldlM_cons, parseStep_eq_none hc h]
    rfl
  case isFalse => rfl

def Fits (pieces : List (List Char)) (cells : ℕ) : Prop :=
  pieces.length ≤ cells ∧ ∀ w ∈ pieces, w.length < 16

theorem fits_cons {pieces : List (List Char)} :
    Fits (w :: pieces) (n + 1) ↔ w.length < 16 ∧ Fits pieces n := by
  unfold Fits
  rw [List.length_cons, Nat.succ_le_succ_iff, List.forall_mem_cons]
  exact and_left_comm

theorem forall_character (hspace : ' ' ∉ w) (hnul : nul ∉ w) : ∀ c ∈ w, c ≠ ' ' ∧ c ≠ nul :=
  fun _ hc => ⟨fun h => hspace (h ▸ hc), fun h => hnul (h ▸ hc)⟩

theorem foldlM_fits (vals undef : List (Option ℤ)) (hnul : nul ∉ line)
    (hfits : Fits (line.splitOn ' ') undef.length) :
    ∃ st, (line ++ [nul]).foldlM parseStep ⟨0, vals.length, vals ++ undef⟩ = some st ∧
      st.rez = vals ++ (line.splitOn ' ').map stored ++ undef.drop (line.splitOn ' ').length := by
  induction line using words_induction ' ' generalizing vals undef with
  | word w hw =>
    rw [List.splitOn_eq_singleton hw] at hfits ⊢
    obtain ⟨u, undef, rfl⟩ := List.exists_cons_of_length_pos hfits.1
    have hrun := foldlM_separated (forall_character hw hnul) (c := nul) (by simp)
      (hfits.2 w List.mem_cons_self) vals undef u []
    exact ⟨_, hrun, rfl⟩
  | sep w line hw ih =>
    rw [List.splitOn_append_cons_self_of_not_mem hw] at hfits ⊢
    rw [List.mem_append, List.mem_cons, not_or, not_or] at hnul
    cases undef with
    | nil => exact absurd hfits.1 (Nat.not_succ_le_zero _)
    | cons u undef =>
      rw [List.length_cons, fits_cons] at hfits
      have hrun := foldlM_separated (forall_character hw hnul.1) (c := ' ') (by simp) hfits.1
        vals undef u (line ++ [nul])
      obtain ⟨st, hrest, hrez⟩ := ih (vals ++ [stored w]) undef hnul.2.2 hfits.2
      refine ⟨st, ?_, ?_⟩
      · rw [List.append_assoc, List.cons_append, hrun, hrest]
      · rw [hrez, List.map_cons, List.length_cons, List.drop_succ_cons, List.append_assoc vals,
          List.singleton_append]

theorem foldlM_not_fits (vals undef : List (Option ℤ)) (hnul : nul ∉ line)
    (hfits : ¬Fits (line.splitOn ' ') undef.length) :
    (line ++ [nul]).foldlM parseStep ⟨0, vals.length, vals ++ undef⟩ = none := by
  induction line using words_induction ' ' generalizing vals undef with
  | word w hw =>
    rw [List.splitOn_eq_singleton hw] at hfits
    apply foldlM_separated_eq_none (forall_character hw hnul) (by simp)
    cases undef with
    | nil => exact .inr (by rw [List.append_nil])
    | cons u undef =>
      rw [List.length_cons, fits_cons] at hfits
      exact .inl (Nat.not_lt.mp fun h => hfits ⟨h, Nat.zero_le _, by simp⟩)
  | sep w line hw ih =>
    rw [List.splitOn_append_cons_self_of_not_mem hw] at hfits
    rw [List.mem_append, List.mem_cons, not_or, not_or] at hnul
    have hcharacter := forall_character hw hnul.1
    rw [List.append_assoc, List.cons_append]
    cases undef with
    | nil =>
      apply foldlM_separated_eq_none hcharacter (by simp)
      exact .inr (by rw [List.append_nil])
    | cons u undef =>
      rw [List.length_cons, fits_cons, not_and_or] at hfits
      by_cases hlen : w.length < 16
      · rw [foldlM_separated hcharacter (c := ' ') (by simp) hlen vals undef u (line ++ [nul])]
        exact ih _ _ hnul.2.2 (hfits.resolve_left (not_not.mpr hlen))
      · exact foldlM_separated_eq_none hcharacter (by simp) (.inl (Nat.not_lt.mp hlen)) _

theorem parse_eq (hnul : nul ∉ line) (hlen : line.length ≤ intMax) : parse (line ++ [nul]) =
    ((line ++ [nul]).foldlM parseStep ⟨0, 0, List.replicate 6 none⟩).bind
      fun st => params st.rez := by
  have hrounds : ((line.length : ℤ) + 1).toNat = line.length + 1 := by omega
  unfold parse
  dsimp only
  rw [strlen_append hnul [], toInt_eq hlen, hrounds,
    foldlM_getElem? _ _ 0 (line.length + 1) (by simp)]
  rfl

theorem exists_params (h : rez.length = 6) : ∃ p, params rez = some p ∧ p.toList = rez := by
  match rez, h with
  | [r0, r1, r2, r3, r4, r5], _ => exact ⟨⟨r0, r1, r3, r4, r5, r2⟩, rfl, rfl⟩

/-- A run whose pieces fit: the cells behind them are left as they are. -/
theorem parse_of_fits (hnul : nul ∉ line) (hlen : line.length ≤ intMax)
    (hfits : Fits (line.splitOn ' ') 6) : ∃ p, parse (line ++ [nul]) = some p ∧
      p.toList = (line.splitOn ' ').map stored ++
        List.replicate (6 - (line.splitOn ' ').length) none := by
  obtain ⟨st, hrun, hrez⟩ := foldlM_fits [] (List.replicate 6 none) hnul hfits
  rw [List.nil_append, List.drop_replicate] at hrez
  have hsix : st.rez.length = 6 := by
    rw [hrez, List.length_append, List.length_map, List.length_replicate]
    exact Nat.add_sub_cancel' hfits.1
  obtain ⟨p, hp, hlist⟩ := exists_params hsix
  refine ⟨p, ?_, hlist.trans hrez⟩
  rw [parse_eq hnul hlen]
  exact (congrArg (Option.bind · _) hrun).trans hp

theorem parse_of_not_fits (hnul : nul ∉ line) (hlen : line.length ≤ intMax)
    (hfits : ¬Fits (line.splitOn ' ') 6) : parse (line ++ [nul]) = none := by
  have hrun := foldlM_not_fits [] (List.replicate 6 none) hnul hfits
  rw [parse_eq hnul hlen]
  exact congrArg (Option.bind · _) hrun

def IsNumber (w : List Char) : Prop := w ≠ [] ∧ ∀ c ∈ w, c.isDigit

def value (w : List Char) : ℤ := Nat.ofDigitChars 10 w 0

/-- The writes stay inside `temp` and `rez`, nothing indeterminate is read, and six numbers of at
most 15 digits are returned in their order. -/
def ParsesWithin (line : List Char) : Prop :=
  ∃ p, parse (line ++ [nul]) = some p ∧ p.Defined ∧ ((line.splitOn ' ').length = 6 →
    (∀ w ∈ line.splitOn ' ', IsNumber w ∧ w.length ≤ 15) →
      p.toList = (line.splitOn ' ').map fun w => some (value w))

/-- Six empty pieces are all that can be read. -/
theorem eq_spaces_of_stored (h : ∀ x ∈ (line.splitOn ' ').map stored ++
      List.replicate (6 - (line.splitOn ' ').length) none, x.isSome)
    (hfits : (line.splitOn ' ').length ≤ 6) : line = List.replicate 5 ' ' := by
  have hsix : (line.splitOn ' ').length = 6 := by
    by_contra hne
    have hnone : (none : Option ℤ) ∈ List.replicate (6 - (line.splitOn ' ').length) none :=
      List.mem_replicate.mpr ⟨by omega, rfl⟩
    exact absurd (h none (List.mem_append_right _ hnone)) (by simp)
  have hempty : ∀ w ∈ line.splitOn ' ', w = [] := by
    intro w hw
    have hsome := h (stored w) (List.mem_append_left _ (List.mem_map_of_mem hw))
    by_contra hne
    rw [stored, if_neg hne] at hsome
    cases hsome
  have hline : [' '].intercalate (line.splitOn ' ') = line := List.intercalate_splitOn ' '
  rw [← hline, List.eq_replicate_iff.mpr ⟨hsix, hempty⟩]
  rfl

theorem ParsesWithin.eq_spaces (h : ParsesWithin line) (hnul : nul ∉ line)
    (hlen : line.length ≤ intMax) : line = List.replicate 5 ' ' := by
  obtain ⟨p, hrun, hdefined, -⟩ := h
  by_cases hfits : Fits (line.splitOn ' ') 6
  · obtain ⟨p', hrun', hlist⟩ := parse_of_fits hnul hlen hfits
    obtain rfl : p = p' := Option.some.inj (hrun.symm.trans hrun')
    unfold Params.Defined at hdefined
    rw [hlist] at hdefined
    exact eq_spaces_of_stored hdefined hfits.1
  · rw [parse_of_not_fits hnul hlen hfits] at hrun
    cases hrun

theorem parsesWithin_spaces : ParsesWithin (List.replicate 5 ' ') := by
  obtain ⟨p, hrun, hlist⟩ := @parse_of_fits (List.replicate 5 ' ') (by decide) (by decide)
    ⟨by decide, by decide⟩
  refine ⟨p, hrun, ?_, fun _ hnumbers => absurd rfl (hnumbers [] (by decide)).1.1⟩
  unfold Params.Defined
  rw [hlist]
  decide

/-- All is defined exactly for the line of five spaces. The indices alone stay inside the arrays
exactly if there are at most six pieces between spaces, with at most 15 characters. -/
theorem parsesWithin_iff (line : List Char) (hnul : nul ∉ line) (hlen : line.length ≤ 63) :
    (ParsesWithin line ↔ line = List.replicate 5 ' ') ∧
      ((∃ p, parse (line ++ [nul]) = some p) ↔
        (line.splitOn ' ').length ≤ 6 ∧ ∀ w ∈ line.splitOn ' ', w.length ≤ 15) := by
  have hint : line.length ≤ intMax := hlen.trans (by decide)
  have hshort : (∀ w ∈ line.splitOn ' ', w.length ≤ 15) ↔ ∀ w ∈ line.splitOn ' ', w.length < 16 :=
    forall₂_congr fun _ _ => Nat.lt_succ_iff.symm
  constructor
  · constructor
    · intro h
      exact h.eq_spaces hnul hint
    · intro h
      exact h ▸ parsesWithin_spaces
  · rw [hshort]
    by_cases hfits : Fits (line.splitOn ' ') 6
    · obtain ⟨p, hrun, -⟩ := parse_of_fits hnul hint hfits
      exact iff_of_true ⟨p, hrun⟩ hfits
    · rw [parse_of_not_fits hnul hint hfits]
      refine iff_of_false ?_ hfits
      rintro ⟨_, ⟨⟩⟩

theorem parsesWithin_iff_seven :
    (ParsesWithin ['7'] ↔ ['7'] = List.replicate 5 ' ') ∧
      ((∃ p, parse (['7'] ++ [nul]) = some p) ↔
        (['7'].splitOn ' ').length ≤ 6 ∧ ∀ w ∈ ['7'].splitOn ' ', w.length ≤ 15) :=
  parsesWithin_iff ['7'] (by decide) (by decide)

/-- Each number is given to `atoi` in an array of which only the terminator has been written. -/
theorem not_parsesWithin_numbers :
    ¬ParsesWithin ['3', ' ', '4', ' ', '5', ' ', '6', ' ', '7', ' ', '8'] := by
  intro h
  exact absurd (h.eq_spaces (by decide) (by decide)) (by decide)

end CppTricks.IntelCompetition
