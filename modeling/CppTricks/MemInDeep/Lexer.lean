import CppTricks.MemInDeep.Parser

/-! `gettok` of `mem_in_deep/main.cpp`. -/
namespace CppTricks.MemInDeep

/-- The static `LastChar`, with `none` for `EOF`, and the characters that are still to be read. -/
structure Lexer where
  lastChar : Option Char
  rest : List Char

def getchar : List Char → Lexer
  | [] => ⟨none, []⟩
  | c :: rest => ⟨some c, rest⟩

def Lexer.start (input : List Char) : Lexer := ⟨some ' ', input⟩

def isspace (c : Char) : Bool := c ∈ [' ', '\t', '\n', '\x0b', '\x0c', '\r']

def isdigitOrDot (c : Char) : Bool := c.isDigit || c = '.'

def endsComment (c : Char) : Bool := c = '\n' || c = '\r'

/-- Read on while `p` holds of the character read: these characters, and the lexer after them. -/
def readWhile (p : Char → Bool) : List Char → List Char × Lexer
  | [] => ([], getchar [])
  | c :: rest =>
    if p c then
      let (cs, l) := readWhile p rest
      (c :: cs, l)
    else ([], ⟨some c, rest⟩)

def Lexer.skipSpace (l : Lexer) : Lexer :=
  match l.lastChar with
  | none => l
  | some c => if isspace c then (readWhile isspace l.rest).2 else l

theorem length_rest_readWhile (p : Char → Bool) (text : List Char) :
    (readWhile p text).2.rest.length ≤ text.length := by
  induction text with
  | nil => exact Nat.le_refl _
  | cons c rest ih =>
    unfold readWhile
    split
    · exact Nat.le_succ_of_le ih
    · exact Nat.le_succ _

theorem length_rest_lt_readWhile {p : Char → Bool} {text : List Char} {c : Char}
    (h : (readWhile p text).2.lastChar = some c) :
    (readWhile p text).2.rest.length < text.length := by
  induction text with
  | nil => cases h
  | cons a rest ih =>
    unfold readWhile at h ⊢
    split
    · rename_i ha
      rw [if_pos ha] at h
      exact Nat.lt_succ_of_lt (ih h)
    · exact Nat.lt_succ_self _

theorem length_rest_skipSpace (l : Lexer) : l.skipSpace.rest.length ≤ l.rest.length := by
  unfold Lexer.skipSpace
  split
  · exact Nat.le_refl _
  · split
    · exact length_rest_readWhile isspace l.rest
    · exact Nat.le_refl _

variable {ν : Type}

/-- `gettok()`, with the payload of the token it returns and the lexer it leaves. -/
def gettok (strtod : String → ν) (l : Lexer) : Token ν × Lexer :=
  match l.skipSpace.lastChar with
  | none => (.tokEof, l.skipSpace)
  | some c =>
    if c.isAlpha then
      let (cs, l) := readWhile Char.isAlphanum l.skipSpace.rest
      let identifierStr := String.ofList (c :: cs)
      if identifierStr = "def" then (.tokDef, l)
      else if identifierStr = "extern" then (.tokExtern, l)
      else (.tokIdentifier identifierStr, l)
    else if isdigitOrDot c then
      let (cs, l) := readWhile isdigitOrDot l.skipSpace.rest
      (.tokNumber (strtod (String.ofList (c :: cs))), l)
    else if c = '#' then
      let comment := readWhile (fun c => !endsComment c) l.skipSpace.rest
      match _h : comment.2.lastChar with
      | none => (.tokEof, comment.2)
      | some _ => gettok strtod comment.2
    else (.char c, getchar l.skipSpace.rest)
termination_by l.rest.length
decreasing_by
  exact Nat.lt_of_lt_of_le (length_rest_lt_readWhile ‹_›) (length_rest_skipSpace l)

def gettoks (strtod : String → ν) : ℕ → Lexer → List (Token ν)
  | 0, _ => []
  | n + 1, l =>
    let (tok, l) := gettok strtod l
    tok :: gettoks strtod n l

/-! ### The characters left -/

def Lexer.unread (l : Lexer) : ℕ := l.lastChar.toList.length + l.rest.length

theorem unread_getchar (text : List Char) : (getchar text).unread = text.length := by
  cases text with
  | nil => rfl
  | cons c text => exact Nat.add_comm 1 text.length

theorem unread_readWhile (p : Char → Bool) (text : List Char) :
    (readWhile p text).2.unread ≤ text.length := by
  induction text with
  | nil => exact Nat.le_refl _
  | cons c text ih =>
    unfold readWhile
    split
    · exact Nat.le_succ_of_le ih
    · exact Nat.le_of_eq (unread_getchar (c :: text))

theorem unread_skipSpace (l : Lexer) : l.skipSpace.unread ≤ l.unread := by
  unfold Lexer.skipSpace
  split
  · exact Nat.le_refl _
  · split
    · exact Nat.le_trans (unread_readWhile isspace l.rest) (Nat.le_add_left _ _)
    · exact Nat.le_refl _

/-- Reading on from a character that is not `EOF` leaves less than there was. -/
theorem unread_lt {l l' : Lexer} {c : Char} {p : Char → Bool} {cs : List Char}
    (hc : l.skipSpace.lastChar = some c) (hread : readWhile p l.skipSpace.rest = (cs, l')) :
    l'.unread < l.unread := by
  have hle := unread_readWhile p l.skipSpace.rest
  rw [hread] at hle
  have hskip := unread_skipSpace l
  rw [Lexer.unread, hc, Option.toList_some, List.length_singleton] at hskip
  exact Nat.lt_of_le_of_lt hle (by omega)

def Token.isEof : Token ν → Bool
  | .tokEof => true
  | _ => false

/-- Every token but `tok_eof` is made of at least one character. -/
theorem unread_gettok (strtod : String → ν) (l : Lexer)
    (h : (gettok strtod l).1.isEof = false) : (gettok strtod l).2.unread < l.unread := by
  fun_induction gettok strtod l with
  | case1 => cases h
  | case2 l c hc _ cs l' hread => exact unread_lt hc hread
  | case3 l c hc _ cs l' hread => exact unread_lt hc hread
  | case4 l c hc _ cs l' hread => exact unread_lt hc hread
  | case5 l c hc _ _ cs l' hread => exact unread_lt hc hread
  | case6 => cases h
  | case7 l comment c hclose hc _ _ ih => exact Nat.lt_trans (ih h) (unread_lt hc rfl)
  | case8 l c hc _ _ _ =>
    have hskip := unread_skipSpace l
    rw [Lexer.unread, hc, Option.toList_some, List.length_singleton] at hskip
    rw [unread_getchar]
    omega

def tokens (strtod : String → ν) (l : Lexer) : Stream ν :=
  if _h : (gettok strtod l).1.isEof = true then []
  else (gettok strtod l).1 :: tokens strtod (gettok strtod l).2
termination_by l.unread
decreasing_by exact unread_gettok strtod l (Bool.eq_false_iff.mpr ‹_›)

theorem eq_tokEof_of_isEof {tok : Token ν} (h : tok.isEof = true) : tok = .tokEof := by
  cases tok with
  | tokEof => rfl
  | _ => cases h

theorem gettok_of_eof (strtod : String → ν) {l : Lexer} (h : l.lastChar = none) :
    gettok strtod l = (.tokEof, l) := by
  have hskip : l.skipSpace = l := by
    unfold Lexer.skipSpace
    rw [h]
  rw [gettok, hskip]
  split
  · rfl
  · simp_all

theorem lastChar_of_isEof (strtod : String → ν) (l : Lexer)
    (h : (gettok strtod l).1.isEof = true) : (gettok strtod l).2.lastChar = none := by
  fun_induction gettok strtod l with
  | case1 l heof => exact heof
  | case6 l comment hclose => exact hclose
  | case7 _ _ _ _ _ _ _ ih => exact ih h
  | _ => cases h

/-- `CurTok` after `getNextToken` is the head of the tokens that were left. -/
theorem curTok_tokens (strtod : String → ν) (l : Lexer) :
    curTok (tokens strtod l) = (gettok strtod l).1 := by
  rw [tokens]
  split
  · rename_i h
    exact (eq_tokEof_of_isEof h).symm
  · rfl

theorem getNextToken_tokens (strtod : String → ν) (l : Lexer) :
    getNextToken (tokens strtod l) = tokens strtod (gettok strtod l).2 := by
  rw [tokens]
  split
  · rename_i h
    have heof := gettok_of_eof strtod (lastChar_of_isEof strtod l h)
    rw [tokens, heof]
    rfl
  · rfl

/-! ### What is skipped before a token -/

theorem readWhile_append {p : Char → Bool} {w text : List Char} (hw : ∀ c ∈ w, p c = true)
    (hstop : ∀ c ∈ text.head?, p c = false) : readWhile p (w ++ text) = (w, getchar text) := by
  induction w with
  | nil =>
    cases text with
    | nil => rfl
    | cons c rest =>
      have hc : p c = false := hstop c rfl
      unfold getchar
      simp [readWhile, hc]
  | cons c w ih =>
    have hc : p c = true := hw c List.mem_cons_self
    have htail := ih fun a ha => hw a (List.mem_cons_of_mem c ha)
    rw [List.cons_append, readWhile, if_pos hc, htail]

theorem skipSpace_space {c : Char} (hc : isspace c = true) (text : List Char) :
    (getchar (c :: text)).skipSpace = (getchar text).skipSpace := by
  unfold Lexer.skipSpace
  cases text with
  | nil => simp [getchar, readWhile, hc]
  | cons a text =>
    by_cases ha : isspace a = true
    · simp [getchar, readWhile, hc, ha]
    · simp [getchar, readWhile, hc, ha]

theorem skipSpace_stop {c : Char} (hc : isspace c = false) (text : List Char) :
    (getchar (c :: text)).skipSpace = getchar (c :: text) := by
  simp [Lexer.skipSpace, getchar, hc]

section Separators

variable (strtod : String → ν)

theorem gettok_congr {l l' : Lexer} (h : l.skipSpace = l'.skipSpace) :
    gettok strtod l = gettok strtod l' := by
  rw [gettok, gettok, h]

theorem gettok_space {c : Char} (hc : isspace c = true) (text : List Char) :
    gettok strtod (getchar (c :: text)) = gettok strtod (getchar text) :=
  gettok_congr strtod (skipSpace_space hc text)

theorem isspace_of_endsComment {c : Char} (hc : endsComment c = true) : isspace c = true := by
  have h : c = '\n' ∨ c = '\r' := by simpa [endsComment] using hc
  rcases h with rfl | rfl <;> decide

theorem gettok_comment {comment : List Char} {close : Char}
    (hcomment : ∀ c ∈ comment, endsComment c = false) (hclose : endsComment close = true)
    (text : List Char) :
    gettok strtod (getchar ('#' :: (comment ++ close :: text))) = gettok strtod (getchar text) := by
  have hread : readWhile (fun c => !endsComment c) (comment ++ close :: text) =
      (comment, getchar (close :: text)) := by
    apply readWhile_append
    · intro c hc
      simp [hcomment c hc]
    · intro c hc
      obtain rfl : close = c := by simpa using hc
      simp [hclose]
  rw [gettok, skipSpace_stop (by decide)]
  simp only [getchar]
  rw [hread]
  exact gettok_space strtod (isspace_of_endsComment hclose) text

end Separators

end CppTricks.MemInDeep
