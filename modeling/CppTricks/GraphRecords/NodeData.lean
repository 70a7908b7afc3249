import CppTricks.Foundation.StringStream
import Mathlib.Data.List.DropRight

/-! `parse_node_data`: the line of a node, its number and the arrows that leave it. -/
namespace CppTricks.GraphRecords
open Foundation

structure Arrow where
  end_ : Int32
  weight : Int32
  deriving DecidableEq

/-- What ends a call without a result; `cutOff` is a loop that was cut off. -/
inductive Thrown
  | invalidArgument (what : String)
  | assertFailed (expr : String)
  | outOfRange
  | cutOff
  deriving DecidableEq

def kSplitter : Char := ','

/-- The characters trimmed off the end of a line. -/
def isTrimmed (c : Char) : Bool := c = ' ' ∨ c = '\n' ∨ c = '\r' ∨ c = '\t'

/-- The loop over the arrows; each round that goes on reads a character. -/
def readArrows : ℕ → StringStream → List Arrow → Except Thrown (List Arrow) × StringStream
  | 0, ss, _ => (.error .cutOff, ss)
  | fuel + 1, ss, result =>
    let (i, ss) := ss.extract 0
    if !ss.ok then (.ok result, ss)
    else
      let ss := ss.skip kSplitter
      let (j, ss) := ss.extract 0
      if !ss.ok then (.error (.invalidArgument "Error: String format is broken."), ss)
      else readArrows fuel (ss.skip kSplitter) (result ++ [⟨i, j⟩])

/-- `parse_node_data(line, ss)`: what it returns or throws, and the stream it leaves. -/
def parseNodeData (line : List Char) (ss : StringStream) :
    Except Thrown (Int32 × List Arrow) × StringStream :=
  let lineCopy := line.rdropWhile isTrimmed
  let lineCopy := lineCopy.map fun c => if c = '\t' then kSplitter else c
  let ss := (ss.str lineCopy).clear
  let (root, ss) := ss.extract 0
  let ss := ss.skip kSplitter
  let (result, ss) := readArrows (lineCopy.length + 1) ss []
  (result.map fun result => (root, result), ss)

/-! ### Printing a node -/

def showArrow (c : Char) (a : Arrow) : List Char :=
  c :: (showInt a.end_ ++ ',' :: showInt a.weight)

def showNode (root : Int32) (arrows : List Arrow) : List Char :=
  showInt root ++ arrows.flatMap (showArrow '\t')

def showBroken (c : Char) (x : Int32) (comma : Bool) : List Char :=
  c :: (showInt x ++ if comma then [','] else [])

variable {text trail : List Char}

theorem isTrimmed_of_isDigit {c : Char} (h : c.isDigit) : isTrimmed c = false := by
  unfold isTrimmed
  rw [decide_eq_false_iff_not]
  rintro (rfl | rfl | rfl | rfl) <;> cases h

/-- What comes after a text that does not end in white space is trimmed off. -/
theorem rdropWhile_trail (hlast : ∀ c ∈ text.getLast?, isTrimmed c = false)
    (htrail : ∀ c ∈ trail, isTrimmed c) : (text ++ trail).rdropWhile isTrimmed = text := by
  induction trail using List.reverseRecOn with
  | nil =>
    rw [List.append_nil, List.rdropWhile_eq_self_iff]
    intro hne
    have hc := hlast (text.getLast hne) (List.getLast?_eq_some_getLast hne)
    simp [hc]
  | append_singleton trail c ih =>
    rw [← List.append_assoc, List.rdropWhile_concat_pos _ _ _ (htrail c (by simp))]
    exact ih fun c hc => htrail c (by simp [hc])

theorem getLast?_showInt (x : Int32) : ∀ c ∈ (showInt x).getLast?, c.isDigit := by
  obtain ⟨n, hne, hdigits, hshow⟩ := showInt_eq x
  have hlast : (showInt x).getLast? = (Nat.toDigits 10 n).getLast? := by
    obtain ⟨hshow, -⟩ | ⟨hshow, -⟩ := hshow
    · rw [hshow]
    · rw [hshow, List.getLast?_cons_of_ne_nil hne]
  intro c hc
  rw [hlast] at hc
  exact hdigits c (List.mem_of_getLast? hc)

theorem replace_showInt (x : Int32) :
    (showInt x).map (fun c => if c = '\t' then kSplitter else c) = showInt x := by
  have hsame : ∀ c ∈ showInt x, (if c = '\t' then kSplitter else c) = id c := by
    intro c hc
    have hne : c ≠ '\t' := by
      rintro rfl
      cases mem_showInt hc with
      | inl h => cases h
      | inr h => cases h
    exact if_neg hne
  rw [List.map_congr_left hsame, List.map_id]

theorem replace_showNode (root : Int32) (arrows : List Arrow) :
    (showNode root arrows).map (fun c => if c = '\t' then kSplitter else c) =
      showInt root ++ arrows.flatMap (showArrow kSplitter) := by
  unfold showNode
  rw [List.map_append, replace_showInt, List.map_flatMap]
  have harrow : ∀ a, (showArrow '\t' a).map (fun c => if c = '\t' then kSplitter else c) =
      showArrow kSplitter a := by
    intro a
    unfold showArrow
    rw [List.map_cons, List.map_append, List.map_cons, replace_showInt, replace_showInt]
    rfl
  simp only [harrow]

theorem getLast?_showNode (root : Int32) (arrows : List Arrow) :
    ∀ c ∈ (showNode root arrows).getLast?, isTrimmed c = false := by
  have hdigit : ∀ x, ∀ c ∈ (showInt x).getLast?, isTrimmed c = false := fun x c hc =>
    isTrimmed_of_isDigit (getLast?_showInt x c hc)
  unfold showNode
  induction arrows using List.reverseRecOn with
  | nil =>
    rw [List.flatMap_nil, List.append_nil]
    exact hdigit root
  | append_singleton arrows a _ =>
    have hsplit : showInt root ++ (arrows ++ [a]).flatMap (showArrow '\t') =
        (showInt root ++ arrows.flatMap (showArrow '\t') ++ '\t' :: (showInt a.end_ ++ [','])) ++
          showInt a.weight := by
      simp [showArrow]
    rw [hsplit, List.getLast?_append_of_ne_nil _ (showInt_ne_nil a.weight)]
    exact hdigit a.weight

theorem replace_showBroken (x : Int32) (comma : Bool) :
    (showBroken '\t' x comma).map (fun c => if c = '\t' then kSplitter else c) =
      showBroken kSplitter x comma := by
  unfold showBroken
  rw [List.map_cons, List.map_append, replace_showInt]
  cases comma <;> rfl

theorem getLast?_showBroken (text : List Char) (x : Int32) (comma : Bool) :
    ∀ c ∈ (text ++ showBroken '\t' x comma).getLast?, isTrimmed c = false := by
  unfold showBroken
  intro c hc
  cases comma with
  | false =>
    rw [if_neg Bool.false_ne_true, List.append_nil, List.append_cons,
      List.getLast?_append_of_ne_nil _ (showInt_ne_nil x)] at hc
    exact isTrimmed_of_isDigit (getLast?_showInt x c hc)
  | true =>
    rw [if_pos rfl, ← List.cons_append, ← List.append_assoc, List.getLast?_concat] at hc
    obtain rfl := Option.some.inj hc
    rfl

/-! ### Reading it back -/

section Read

open StringStream

/-- The text behind a number is at its end or goes on with a separator. -/
def Separated (text : List Char) : Prop := ∀ c ∈ text.head?, c = kSplitter

theorem Separated.not_digit (h : Separated text) : ∀ c ∈ text.head?, ¬c.isDigit := by
  intro c hc
  rw [h c hc]
  decide

theorem separated_body (arrows : List Arrow) (h : Separated text) :
    Separated (arrows.flatMap (showArrow kSplitter) ++ text) := by
  cases arrows with
  | nil => exact h
  | cons a arrows =>
    intro c hc
    simpa [showArrow, eq_comm] using hc

theorem ok_after (text : List Char) : (after text).ok = true := rfl

theorem readArrows_body (arrows : List Arrow) (h : Separated text) (fuel : ℕ)
    (result : List Arrow) :
    readArrows (fuel + arrows.length)
        ((after (arrows.flatMap (showArrow kSplitter) ++ text)).skip kSplitter) result =
      readArrows fuel ((after text).skip kSplitter) (result ++ arrows) := by
  induction arrows generalizing result with
  | nil => simp
  | cons a arrows ih =>
    have hrest := separated_body arrows h
    have hline : (a :: arrows).flatMap (showArrow kSplitter) ++ text = kSplitter ::
        (showInt a.end_ ++ kSplitter :: (showInt a.weight ++
          (arrows.flatMap (showArrow kSplitter) ++ text))) := by
      simp [showArrow, kSplitter]
    have hcomma : ∀ c ∈ (kSplitter :: (showInt a.weight ++
        (arrows.flatMap (showArrow kSplitter) ++ text))).head?, ¬c.isDigit := by
      intro c hc
      obtain rfl : kSplitter = c := by simpa using hc
      decide
    rw [hline, skip_after_cons, List.length_cons, ← Nat.add_assoc, readArrows,
      extract_showInt a.end_ 0 hcomma]
    dsimp only
    rw [ok_after, skip_after_cons, extract_showInt a.weight 0 hrest.not_digit]
    dsimp only
    rw [ok_after, ih]
    simp

theorem readArrows_end (fuel : ℕ) (result : List Arrow) :
    ∃ ss, readArrows (fuel + 1) ((after []).skip kSplitter) result = (.ok result, ss) := by
  rw [skip_after_nil, readArrows, extract_of_not_good rfl]
  exact ⟨_, rfl⟩

/-- A number that no weight follows, with or without a comma behind it. -/
theorem readArrows_broken (x : Int32) (comma : Bool) (fuel : ℕ) (result : List Arrow) :
    ∃ ss, readArrows (fuel + 1)
        ((after (showBroken kSplitter x comma)).skip kSplitter) result =
      (.error (.invalidArgument "Error: String format is broken."), ss) := by
  have hdigit : ∀ c ∈ (if comma then [','] else [] : List Char).head?, ¬c.isDigit := by
    cases comma <;> simp
  unfold showBroken
  rw [skip_after_cons, readArrows, extract_showInt x 0 hdigit]
  dsimp only
  rw [ok_after]
  cases comma with
  | false =>
    simp only [Bool.false_eq_true, if_false]
    rw [skip_after_nil, extract_of_not_good rfl]
    exact ⟨_, rfl⟩
  | true =>
    simp only [if_true]
    rw [show ([','] : List Char) = [kSplitter] from rfl, skip_after_cons, extract_nil]
    exact ⟨_, rfl⟩

end Read

private theorem length_le_length_flatMap (arrows : List Arrow) :
    arrows.length ≤ (arrows.flatMap (showArrow kSplitter)).length := by
  induction arrows with
  | nil => exact Nat.le_refl 0
  | cons a arrows ih =>
    have hone : 1 ≤ (showArrow kSplitter a).length := Nat.le_add_left 1 _
    rw [List.flatMap_cons, List.length_append, List.length_cons]
    omega

/-- A line that is trimmed and rewritten to a root, arrows and something separated from them is read
up to there. -/
theorem parseNodeData_eq (root : Int32) (arrows : List Arrow) (h : Separated text)
    (line : List Char) (ss : StringStream)
    (hline : (line.rdropWhile isTrimmed).map (fun c => if c = '\t' then kSplitter else c) =
      showInt root ++ (arrows.flatMap (showArrow kSplitter) ++ text)) :
    ∃ fuel, parseNodeData line ss =
      let r := readArrows (fuel + 1) ((StringStream.after text).skip kSplitter) arrows
      (r.1.map fun result => (root, result), r.2) := by
  have hrest := separated_body arrows h
  obtain ⟨fuel, hfuel⟩ : ∃ fuel, (showInt root ++
      (arrows.flatMap (showArrow kSplitter) ++ text)).length + 1 = fuel + 1 + arrows.length := by
    have hlen := length_le_length_flatMap arrows
    rw [List.length_append, List.length_append]
    exact ⟨(showInt root).length + ((arrows.flatMap (showArrow kSplitter)).length + text.length) -
      arrows.length, by omega⟩
  refine ⟨fuel, ?_⟩
  unfold parseNodeData
  dsimp only
  rw [hline, StringStream.clear_str, StringStream.extract_showInt root 0 hrest.not_digit]
  dsimp only
  rw [hfuel, readArrows_body arrows h, List.nil_append]

/-- Parsing undoes printing, whatever white space ends the line and whatever state the stream is in;
a line whose last weight is missing is refused. -/
theorem parseNodeData_showNode (root : Int32) (arrows : List Arrow) (trail : List Char)
    (htrail : ∀ c ∈ trail, c = ' ' ∨ c = '\t' ∨ c = '\r' ∨ c = '\n') (ss : StringStream) :
    (∃ ss', parseNodeData (showNode root arrows ++ trail) ss = (.ok (root, arrows), ss')) ∧
      ∀ (x : Int32) (comma : Bool), ∃ ss', parseNodeData (showNode root arrows ++
          showBroken '\t' x comma ++ trail) ss =
        (.error (.invalidArgument "Error: String format is broken."), ss') := by
  have htrimmed : ∀ c ∈ trail, isTrimmed c := by
    intro c hc
    unfold isTrimmed
    rw [decide_eq_true_eq]
    obtain rfl | rfl | rfl | rfl := htrail c hc <;> simp
  constructor
  · have hline := rdropWhile_trail (getLast?_showNode root arrows) htrimmed
    have hempty : Separated [] := fun c hc => by simp at hc
    obtain ⟨fuel, hparse⟩ := parseNodeData_eq root arrows hempty
      (showNode root arrows ++ trail) ss (by rw [hline, replace_showNode, List.append_nil])
    obtain ⟨ss', hend⟩ := readArrows_end fuel arrows
    rw [hend] at hparse
    exact ⟨ss', hparse⟩
  · intro x comma
    have hmap : (showNode root arrows ++ showBroken '\t' x comma).map
        (fun c => if c = '\t' then kSplitter else c) = showInt root ++
          (arrows.flatMap (showArrow kSplitter) ++ showBroken kSplitter x comma) := by
      rw [List.map_append, replace_showNode, replace_showBroken, List.append_assoc]
    have hline := rdropWhile_trail (getLast?_showBroken (showNode root arrows) x comma) htrimmed
    have hseparated : Separated (showBroken kSplitter x comma) :=
      fun c hc => by simpa [showBroken, eq_comm] using hc
    obtain ⟨fuel, hparse⟩ := parseNodeData_eq root arrows hseparated _ ss (by rw [hline, hmap])
    obtain ⟨ss', hbroken⟩ := readArrows_broken x comma fuel arrows
    rw [hbroken] at hparse
    exact ⟨ss', hparse⟩

example : (parseNodeData "0\t8,89\t9,90\t\n".toList ⟨[], true, true, false⟩).1 =
    .ok (0, [⟨8, 89⟩, ⟨9, 90⟩]) := by decide

theorem parseNodeData_showNode_two :
    (∃ ss', parseNodeData (showNode 1 [⟨2, 5⟩, ⟨3, -9⟩] ++ ['\t', ' ', '\r', '\n'])
        ⟨[], true, true, false⟩ = (.ok (1, [⟨2, 5⟩, ⟨3, -9⟩]), ss')) ∧
      ∀ (x : Int32) (comma : Bool), ∃ ss', parseNodeData (showNode 1 [⟨2, 5⟩, ⟨3, -9⟩] ++
          showBroken '\t' x comma ++ ['\t', ' ', '\r', '\n']) ⟨[], true, true, false⟩ =
        (.error (.invalidArgument "Error: String format is broken."), ss') :=
  parseNodeData_showNode 1 [⟨2, 5⟩, ⟨3, -9⟩] ['\t', ' ', '\r', '\n'] (by simp) _

end CppTricks.GraphRecords
