import Mathlib.Data.Int.Order.Basic
import Mathlib.Data.List.Basic

/-! `std::stringstream` as a reader of characters and `int`s, and how an `int` is printed. -/
namespace Foundation

structure StringStream where
  rest : List Char
  eof : Bool
  fail : Bool
  bad : Bool
  deriving DecidableEq

def isSpace (c : Char) : Bool :=
  c = ' ' ∨ c = '\t' ∨ c = '\n' ∨ c = '\r' ∨ c = Char.ofNat 11 ∨ c = Char.ofNat 12

/-- A sign is taken off: whether it was a minus. -/
def takeSign : List Char → Bool × List Char
  | '-' :: text => (true, text)
  | '+' :: text => (false, text)
  | text => (false, text)

/-- The decimal digits of an `int`, after a minus if there is one. -/
def showInt (x : Int32) : List Char :=
  if x.toInt < 0 then '-' :: Nat.toDigits 10 (-x.toInt).toNat else Nat.toDigits 10 x.toInt.toNat

namespace StringStream

def good (ss : StringStream) : Bool := !ss.eof && !ss.fail && !ss.bad

def ok (ss : StringStream) : Bool := !ss.fail && !ss.bad

/-- `ss.str(text)`, which leaves the bits alone. -/
def str (ss : StringStream) (text : List Char) : StringStream := { ss with rest := text }

def clear (ss : StringStream) : StringStream := ⟨ss.rest, false, false, false⟩

/-- `ss.peek()`; `none` is the end of the file. -/
def peek (ss : StringStream) : Option Char × StringStream :=
  if ss.good then
    match ss.rest with
    | [] => (none, { ss with eof := true })
    | c :: _ => (some c, ss)
  else (none, { ss with fail := true })

def ignore (ss : StringStream) : StringStream :=
  if ss.good then
    match ss.rest with
    | [] => { ss with eof := true }
    | _ :: text => { ss with rest := text }
  else { ss with fail := true }

/-- `ss >> x`: the value that `x` has afterwards. -/
def extract (ss : StringStream) (x : Int32) : Int32 × StringStream :=
  if ss.good then
    match ss.rest.dropWhile isSpace with
    | [] => (x, ⟨[], true, true, false⟩)
    | c :: text =>
      let (minus, text) := takeSign (c :: text)
      let digits := text.takeWhile Char.isDigit
      let text := text.dropWhile Char.isDigit
      let n : ℤ := Nat.ofDigitChars 10 digits 0
      let n := if minus then -n else n
      if digits = [] then (0, ⟨text, text.isEmpty, true, false⟩)
      else if n < Int32.minValue.toInt then (Int32.minValue, ⟨text, text.isEmpty, true, false⟩)
      else if n > Int32.maxValue.toInt then (Int32.maxValue, ⟨text, text.isEmpty, true, false⟩)
      else (Int32.ofInt n, ⟨text, text.isEmpty, false, false⟩)
  else (x, { ss with fail := true })

/-- `if (ss.peek() == c) ss.ignore();` -/
def skip (ss : StringStream) (c : Char) : StringStream :=
  let (next, ss) := ss.peek
  if next = some c then ss.ignore else ss

def after (text : List Char) : StringStream := ⟨text, text.isEmpty, false, false⟩

theorem clear_str (ss : StringStream) (text : List Char) :
    (ss.str text).clear = ⟨text, false, false, false⟩ := rfl

theorem good_clear (text : List Char) : good ⟨text, false, false, false⟩ = true := rfl

theorem skip_after_cons (c : Char) (text : List Char) :
    (after (c :: text)).skip c = ⟨text, false, false, false⟩ := by
  unfold skip peek after ignore good
  simp

/-- At the end of the text looking for one makes the stream fail. -/
theorem skip_after_nil (c : Char) : (after []).skip c = ⟨[], true, true, false⟩ := by
  unfold skip peek after good
  simp

theorem extract_of_not_good {ss : StringStream} (h : ss.good = false) (x : Int32) :
    ss.extract x = (x, { ss with fail := true }) := by
  unfold extract
  rw [h]
  rfl

theorem extract_nil (x : Int32) :
    (⟨[], false, false, false⟩ : StringStream).extract x = (x, ⟨[], true, true, false⟩) := rfl

end StringStream

/-- The digits of an `int` and what comes before them. -/
theorem showInt_eq (x : Int32) : ∃ n, (Nat.toDigits 10 n ≠ []) ∧
    (∀ c ∈ Nat.toDigits 10 n, c.isDigit) ∧
    ((showInt x = Nat.toDigits 10 n ∧ x.toInt = n) ∨
      (showInt x = '-' :: Nat.toDigits 10 n ∧ x.toInt = -n)) := by
  have hdigits : ∀ n, ∀ c ∈ Nat.toDigits 10 n, c.isDigit := fun n c hc =>
    Nat.isDigit_of_mem_toDigits (by decide) (by decide) hc
  unfold showInt
  by_cases hneg : x.toInt < 0
  · refine ⟨(-x.toInt).toNat, Nat.toDigits_ne_nil, hdigits _, .inr ⟨if_pos hneg, by omega⟩⟩
  · refine ⟨x.toInt.toNat, Nat.toDigits_ne_nil, hdigits _, .inl ⟨if_neg hneg, by omega⟩⟩

/-- Every character of a printed `int` is a digit or the minus before them. -/
theorem mem_showInt {x : Int32} {c : Char} (h : c ∈ showInt x) : c.isDigit ∨ c = '-' := by
  obtain ⟨n, -, hdigits, ⟨heq, -⟩ | ⟨heq, -⟩⟩ := showInt_eq x
  · rw [heq] at h
    exact .inl (hdigits c h)
  · rw [heq] at h
    cases List.mem_cons.mp h with
    | inl hc => exact .inr hc
    | inr hc => exact .inl (hdigits c hc)

theorem showInt_ne_nil (x : Int32) : showInt x ≠ [] := by
  obtain ⟨n, hne, -, ⟨heq, -⟩ | ⟨heq, -⟩⟩ := showInt_eq x
  · rwa [heq]
  · rw [heq]
    exact List.cons_ne_nil _ _

namespace StringStream

private theorem takeWhile_digits {digits tail : List Char} (h : ∀ c ∈ digits, c.isDigit)
    (htail : ∀ c ∈ tail.head?, ¬c.isDigit) :
    (digits ++ tail).takeWhile Char.isDigit = digits ∧
      (digits ++ tail).dropWhile Char.isDigit = tail := by
  have hnone : tail.takeWhile Char.isDigit = [] ∧ tail.dropWhile Char.isDigit = tail := by
    cases tail with
    | nil => exact ⟨rfl, rfl⟩
    | cons c tail =>
      have hc : c.isDigit = false := by simpa using htail c (by simp)
      simp [hc]
  rw [List.takeWhile_append_of_pos h, List.dropWhile_append_of_pos h, hnone.1, hnone.2,
    List.append_nil]
  exact ⟨rfl, rfl⟩

theorem takeSign_of_isDigit {c : Char} (h : c.isDigit) (text : List Char) :
    takeSign (c :: text) = (false, c :: text) := by
  unfold takeSign
  split
  case h_1 heq =>
    obtain ⟨rfl, -⟩ := List.cons.inj heq
    cases h
  case h_2 heq =>
    obtain ⟨rfl, -⟩ := List.cons.inj heq
    cases h
  case h_3 => rfl

theorem isSpace_of_isDigit {c : Char} (h : c.isDigit) : isSpace c = false := by
  unfold isSpace
  rw [decide_eq_false_iff_not]
  rintro (rfl | rfl | rfl | rfl | rfl | rfl) <;> cases h

private theorem extract_of {c : Char} {text digits tail : List Char} {minus : Bool} {x : Int32}
    (hspace : isSpace c = false) (hsign : takeSign (c :: text) = (minus, digits ++ tail))
    (hne : digits ≠ []) (hdigits : ∀ c ∈ digits, c.isDigit) (htail : ∀ c ∈ tail.head?, ¬c.isDigit)
    (hx : x.toInt = if minus then -(Nat.ofDigitChars 10 digits 0 : ℤ)
      else Nat.ofDigitChars 10 digits 0) (y : Int32) :
    (⟨c :: text, false, false, false⟩ : StringStream).extract y = (x, after tail) := by
  obtain ⟨htake, hdrop⟩ := takeWhile_digits hdigits htail
  have hlo := x.minValue_le_toInt
  have hhi := x.toInt_le
  have hskip : (c :: text).dropWhile isSpace = c :: text := by
    rw [List.dropWhile_cons_of_neg]
    simp [hspace]
  unfold extract
  rw [good_clear, if_pos rfl]
  dsimp only
  rw [hskip]
  dsimp only
  rw [hsign]
  dsimp only
  rw [htake, hdrop, if_neg hne, ← hx, if_neg (by omega), if_neg (by omega), Int32.ofInt_toInt]
  rfl

/-- A printed `int` is read back up to a character that does not belong to it. -/
theorem extract_showInt (x y : Int32) {tail : List Char} (htail : ∀ c ∈ tail.head?, ¬c.isDigit) :
    (⟨showInt x ++ tail, false, false, false⟩ : StringStream).extract y = (x, after tail) := by
  obtain ⟨n, hne, hdigits, ⟨hshow, hx⟩ | ⟨hshow, hx⟩⟩ := showInt_eq x
  · obtain ⟨c, ds, hcons⟩ := List.exists_cons_of_ne_nil hne
    have hc : c.isDigit := hdigits c (hcons ▸ List.mem_cons_self)
    rw [hshow, hcons, List.cons_append]
    apply extract_of (isSpace_of_isDigit hc) (takeSign_of_isDigit hc _) (List.cons_ne_nil c ds)
      (hcons ▸ hdigits) htail
    rw [← hcons, Nat.ofDigitChars_ten_toDigits, hx]
    rfl
  · rw [hshow, List.cons_append]
    apply extract_of rfl rfl hne hdigits htail
    rw [Nat.ofDigitChars_ten_toDigits, hx]
    rfl

end StringStream

end Foundation
