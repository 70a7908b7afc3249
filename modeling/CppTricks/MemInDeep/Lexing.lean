import CppTricks.MemInDeep.Lexer

/-! Written-out tokens, and `gettok` reading them back. -/
namespace CppTricks.MemInDeep

/-- `[A-Za-z][A-Za-z0-9]*` other than the two commands. -/
structure Identifier where
  first : Char
  others : List Char
  isAlpha_first : first.isAlpha = true
  isAlphanum_others : ∀ c ∈ others, c.isAlphanum = true
  ne_def : String.ofList (first :: others) ≠ "def"
  ne_extern : String.ofList (first :: others) ≠ "extern"

structure NumberSpelling where
  first : Char
  others : List Char
  isdigitOrDot_first : isdigitOrDot first = true
  isdigitOrDot_others : ∀ c ∈ others, isdigitOrDot c = true

structure SingleChar where
  char : Char
  not_isAlphanum : char.isAlphanum = false
  not_isspace : isspace char = false
  ne_dot : char ≠ '.'
  ne_hash : char ≠ '#'

inductive Lexeme
  | tokDef
  | tokExtern
  | tokIdentifier (name : Identifier)
  | tokNumber (num : NumberSpelling)
  | char (c : SingleChar)

namespace Lexeme

variable {ν : Type}

def spelling : Lexeme → List Char
  | tokDef => ['d', 'e', 'f']
  | tokExtern => ['e', 'x', 't', 'e', 'r', 'n']
  | tokIdentifier name => name.first :: name.others
  | tokNumber num => num.first :: num.others
  | char c => [c.char]

def token (strtod : String → ν) (t : Lexeme) : Token ν :=
  match t with
  | tokDef => .tokDef
  | tokExtern => .tokExtern
  | tokIdentifier _ => .tokIdentifier (String.ofList t.spelling)
  | tokNumber _ => .tokNumber (strtod (String.ofList t.spelling))
  | char c => .char c.char

end Lexeme

/-- A white-space character, or a comment closed by the end of its line. -/
inductive Separator : List Char → Prop
  | space {c : Char} : isspace c = true → Separator [c]
  | comment {text : List Char} {close : Char} : (∀ c ∈ text, endsComment c = false) →
      endsComment close = true → Separator ('#' :: (text ++ [close]))

inductive Separators : List Char → Prop
  | nil : Separators []
  | cons {sep seps : List Char} : Separator sep → Separators seps → Separators (sep ++ seps)

/-- The text spells the tokens in turn, with separators after each of them; only after the last
there may be none. -/
inductive Spells : List Lexeme → List Char → Prop
  | nil : Spells [] []
  | last (t : Lexeme) {seps : List Char} : Separators seps → Spells [t] (t.spelling ++ seps)
  | cons (t : Lexeme) {sep seps : List Char} {ts : List Lexeme} {text : List Char} :
      Separator sep → Separators seps → Spells ts text →
      Spells (t :: ts) (t.spelling ++ (sep ++ (seps ++ text)))

/-- The text after a complete token: its end, or a separator. -/
def Boundary (text : List Char) : Prop := ∀ c ∈ text.head?, isspace c = true ∨ c = '#'

theorem Separator.boundary {sep : List Char} (h : Separator sep) (text : List Char) :
    Boundary (sep ++ text) := by
  intro c hc
  cases h with
  | space hs =>
    obtain rfl := by simpa using hc
    exact Or.inl hs
  | comment _ _ =>
    obtain rfl : '#' = c := by simpa using hc
    exact Or.inr rfl

theorem Separators.boundary {seps : List Char} (h : Separators seps) : Boundary seps := by
  cases h with
  | nil => intro c hc; cases hc
  | cons hsep _ => exact hsep.boundary _

private theorem false_of_isspace {p : Char → Bool}
    (hp : [' ', '\t', '\n', '\x0b', '\x0c', '\r'].any p = false) {c : Char}
    (hc : isspace c = true) : p c = false :=
  Bool.eq_false_iff.mpr (List.any_eq_false.mp hp c (of_decide_eq_true hc))

private theorem isspace_eq_false {p : Char → Bool}
    (hp : [' ', '\t', '\n', '\x0b', '\x0c', '\r'].any p = false) {c : Char}
    (hc : p c = true) : isspace c = false := by
  cases hs : isspace c with
  | false => rfl
  | true => rw [← hc, false_of_isspace hp hs]

private theorem isAlpha_of_isdigitOrDot {c : Char} (hc : isdigitOrDot c = true) :
    c.isAlpha = false := by
  rw [isdigitOrDot, Bool.or_eq_true, decide_eq_true_eq] at hc
  cases hc with
  | inl hdigit =>
    have hle : c.val.toNat ≤ 57 := (Char.isDigit_iff_toNat.mp hdigit).2
    apply Bool.eq_false_iff.mpr
    intro halpha
    have hletter : (decide ('A'.val ≤ c.val ∧ c.val ≤ 'Z'.val) ||
        (decide ('a'.val ≤ c.val) && decide (c.val ≤ 'z'.val))) = true := halpha
    simp only [Bool.or_eq_true, Bool.and_eq_true, decide_eq_true_eq,
      UInt32.le_iff_toNat_le] at hletter
    have hA : 'A'.val.toNat = 65 := rfl
    have ha : 'a'.val.toNat = 97 := rfl
    omega
  | inr hdot =>
    subst hdot
    decide

theorem Boundary.stops {text : List Char} (h : Boundary text) :
    ∀ c ∈ text.head?, c.isAlphanum = false ∧ isdigitOrDot c = false := by
  intro c hc
  rcases h c hc with hs | rfl
  · exact ⟨false_of_isspace (by decide) hs, false_of_isspace (by decide) hs⟩
  · decide

section Read

variable {ν : Type} (strtod : String → ν)

theorem gettok_separators {seps : List Char} (h : Separators seps) (text : List Char) :
    gettok strtod (getchar (seps ++ text)) = gettok strtod (getchar text) := by
  induction h with
  | nil => rfl
  | cons hsep _ ih =>
    rw [List.append_assoc, ← ih]
    cases hsep with
    | space hc => exact gettok_space strtod hc _
    | comment htext hclose =>
      rw [List.cons_append, List.append_assoc]
      exact gettok_comment strtod htext hclose _

theorem gettok_word {c : Char} {cs text : List Char} (hc : c.isAlpha = true)
    (hcs : ∀ a ∈ cs, a.isAlphanum = true) (htext : Boundary text) :
    gettok strtod (getchar (c :: cs ++ text)) =
      (if String.ofList (c :: cs) = "def" then .tokDef
        else if String.ofList (c :: cs) = "extern" then .tokExtern
        else .tokIdentifier (String.ofList (c :: cs)), getchar text) := by
  have hread := readWhile_append hcs fun a ha => (htext.stops a ha).1
  have hspace : isspace c = false := isspace_eq_false (by decide) hc
  rw [List.cons_append, gettok, skipSpace_stop hspace]
  simp only [getchar, hc, if_true, hread]
  split_ifs <;> rfl

theorem gettok_number (num : NumberSpelling) {text : List Char} (htext : Boundary text) :
    gettok strtod (getchar (num.first :: num.others ++ text)) =
      (.tokNumber (strtod (String.ofList (num.first :: num.others))), getchar text) := by
  have hread := readWhile_append num.isdigitOrDot_others fun a ha => (htext.stops a ha).2
  have hspace : isspace num.first = false := isspace_eq_false (by decide) num.isdigitOrDot_first
  have halpha := isAlpha_of_isdigitOrDot num.isdigitOrDot_first
  rw [List.cons_append, gettok, skipSpace_stop hspace]
  simp only [getchar, halpha, Bool.false_eq_true, if_false, num.isdigitOrDot_first, if_true, hread]

theorem gettok_single (c : SingleChar) (text : List Char) :
    gettok strtod (getchar (c.char :: text)) = (.char c.char, getchar text) := by
  have halnum := c.not_isAlphanum
  rw [Char.isAlphanum, Bool.or_eq_false_iff] at halnum
  have hnum : isdigitOrDot c.char = false := by
    simp [isdigitOrDot, halnum.2, c.ne_dot]
  rw [gettok, skipSpace_stop c.not_isspace]
  simp only [getchar, halnum.1, hnum, c.ne_hash, Bool.false_eq_true, if_false]

theorem gettok_spelling (t : Lexeme) {text : List Char} (htext : Boundary text) :
    gettok strtod (getchar (t.spelling ++ text)) = (t.token strtod, getchar text) := by
  cases t with
  | tokDef => exact gettok_word strtod (by decide) (List.all_eq_true.mp (by decide)) htext
  | tokExtern => exact gettok_word strtod (by decide) (List.all_eq_true.mp (by decide)) htext
  | tokIdentifier name =>
    have hword := gettok_word strtod name.isAlpha_first name.isAlphanum_others htext
    rwa [if_neg name.ne_def, if_neg name.ne_extern] at hword
  | tokNumber num => exact gettok_number strtod num htext
  | char c => exact gettok_single strtod c text

theorem gettoks_succ {l l' : Lexer} {tok : Token ν} (h : gettok strtod l = (tok, l')) (n : ℕ) :
    gettoks strtod (n + 1) l = tok :: gettoks strtod n l' := by
  rw [gettoks, h]

/-- At the end of the input every call returns `tok_eof`. -/
theorem gettoks_eof (m : ℕ) : gettoks strtod m (getchar []) = List.replicate m .tokEof := by
  have heof : gettok strtod (getchar []) = (.tokEof, getchar []) := by
    rw [gettok]
    rfl
  induction m with
  | zero => rfl
  | succ m ih => rw [gettoks_succ strtod heof, ih, List.replicate_succ]

theorem gettoks_separators {seps : List Char} (h : Separators seps) (text : List Char) (n : ℕ) :
    gettoks strtod n (getchar (seps ++ text)) = gettoks strtod n (getchar text) := by
  cases n with
  | zero => rfl
  | succ n => rw [gettoks, gettoks, gettok_separators strtod h]

theorem gettoks_spells {ts : List Lexeme} {text : List Char} (h : Spells ts text) (m : ℕ) :
    gettoks strtod (ts.length + m) (getchar text) =
      ts.map (Lexeme.token strtod) ++ List.replicate m .tokEof := by
  induction h with
  | nil => simpa using gettoks_eof strtod m
  | last t hseps =>
    have htail := gettoks_separators strtod hseps [] m
    rw [List.append_nil, gettoks_eof] at htail
    rw [List.length_singleton, Nat.add_comm,
      gettoks_succ strtod (gettok_spelling strtod t hseps.boundary), htail]
    rfl
  | @cons t sep seps ts text hsep hseps _ ih =>
    have hskip := gettoks_separators strtod (.cons hsep hseps) text (ts.length + m)
    rw [List.append_assoc, ih] at hskip
    rw [List.length_cons, Nat.add_right_comm,
      gettoks_succ strtod (gettok_spelling strtod t (hsep.boundary _)), hskip]
    rfl

/-- `gettok` reads written-out tokens back, and `tok_eof` ever after. -/
theorem gettok_undoes_printing {lead text : List Char} {ts : List Lexeme} (hlead : Separators lead)
    (htext : Spells ts text) (m : ℕ) :
    gettoks strtod (ts.length + m) (.start (lead ++ text)) =
      ts.map (Lexeme.token strtod) ++ List.replicate m .tokEof := by
  have hspace : Separators (' ' :: lead) := .cons (.space (by decide)) hlead
  rw [← gettoks_spells strtod htext, ← gettoks_separators strtod hspace]
  rfl

end Read

private def foo : Lexeme :=
  .tokIdentifier
    ⟨'f', ['o', 'o'], by decide, List.all_eq_true.mp (by decide), by decide, by decide⟩

private def num : Lexeme :=
  .tokNumber ⟨'4', ['.', '2'], by decide, List.all_eq_true.mp (by decide)⟩

theorem gettok_undoes_printing_comment :
    gettoks id 4 (.start ("\n foo#(\r4.2").toList) =
      [.tokIdentifier "foo", .tokNumber "4.2", .tokEof, .tokEof] := by
  have hlead : Separators ['\n', ' '] :=
    .cons (.space (by decide)) (.cons (.space (by decide)) .nil)
  have htail : ∀ c ∈ ['('], endsComment c = false := List.forall_mem_singleton.mpr (by decide)
  have hcomment : Separator ['#', '(', '\r'] := .comment htail (by decide)
  have htext : Spells [foo, num] ("foo#(\r4.2").toList :=
    .cons foo hcomment .nil (.last num .nil)
  exact gettok_undoes_printing id hlead htext 2

end CppTricks.MemInDeep
