import Mathlib.Data.List.Basic
import Mathlib.Data.List.TakeWhile

/-! Files that are read line by line. -/
namespace Foundation

structure FileStream where
  rest : List Char
  eof : Bool
  fail : Bool

def unlines (lines : List (List Char)) : List Char := lines.flatMap (· ++ ['\n'])

/-- What `line` holds in each round of a loop that tests the stream before it reads a line and not
after it: a last line without its newline is there twice, once more when the next read fails, and
without such a line there is a round with nothing. -/
def delivered (lines : List (List Char)) (last : List Char) : List (List Char) :=
  lines ++ if last = [] then [[]] else [last, last]

namespace FileStream

def ofText (text : List Char) : FileStream := ⟨text, false, false⟩

def getline (s : FileStream) (line : List Char) : List Char × FileStream :=
  if s.eof || s.fail then (line, { s with fail := true })
  else
    let line := s.rest.takeWhile (· != '\n')
    match s.rest.dropWhile (· != '\n') with
    | [] => (line, ⟨[], true, line.isEmpty⟩)
    | _ :: rest => (line, ofText rest)

variable {line old text : List Char}

private theorem takeWhile_line (h : '\n' ∉ line) (tail : List Char)
    (htail : ∀ c ∈ tail.head?, c = '\n') :
    (line ++ tail).takeWhile (· != '\n') = line ∧ (line ++ tail).dropWhile (· != '\n') = tail := by
  have hline : ∀ c ∈ line, (c != '\n') = true := by
    intro c hc
    rw [bne_iff_ne]
    rintro rfl
    exact h hc
  have hnone : tail.takeWhile (· != '\n') = [] ∧ tail.dropWhile (· != '\n') = tail := by
    cases tail with
    | nil => exact ⟨rfl, rfl⟩
    | cons c tail =>
      obtain rfl := htail c rfl
      exact ⟨rfl, rfl⟩
  rw [List.takeWhile_append_of_pos hline, List.dropWhile_append_of_pos hline, hnone.1, hnone.2,
    List.append_nil]
  exact ⟨rfl, rfl⟩

theorem getline_cons (h : '\n' ∉ line) (old text : List Char) :
    (ofText (line ++ '\n' :: text)).getline old = (line, ofText text) := by
  obtain ⟨htake, hdrop⟩ := takeWhile_line h ('\n' :: text) (fun c hc => (Option.some.inj hc).symm)
  simp only [getline, ofText, Bool.or_self, Bool.false_eq_true, if_false, htake, hdrop]

theorem getline_last (h : '\n' ∉ line) (old : List Char) :
    (ofText line).getline old = (line, ⟨[], true, line.isEmpty⟩) := by
  obtain ⟨htake, hdrop⟩ := takeWhile_line h [] nofun
  rw [List.append_nil] at htake hdrop
  simp only [getline, ofText, Bool.or_self, Bool.false_eq_true, if_false, htake, hdrop]

theorem getline_eof (line text : List Char) (fail : Bool) :
    (⟨text, true, fail⟩ : FileStream).getline line = (line, ⟨text, true, true⟩) := rfl

end FileStream

/-- The lines that a loop over the file sees, each with its newline. -/
def readlines : List Char → List (List Char)
  | [] => []
  | c :: text =>
    if c = '\n' then [c] :: readlines text
    else
      match readlines text with
      | [] => [[c]]
      | line :: lines => (c :: line) :: lines

theorem readlines_cons {line : List Char} (h : '\n' ∉ line) (text : List Char) :
    readlines (line ++ '\n' :: text) = (line ++ ['\n']) :: readlines text := by
  induction line with
  | nil =>
    rw [List.nil_append, readlines, if_pos rfl]
    rfl
  | cons c line ih =>
    rw [List.mem_cons, not_or] at h
    rw [List.cons_append, readlines, if_neg (Ne.symm h.1), ih h.2]
    rfl

theorem readlines_unlines {lines : List (List Char)} (h : ∀ line ∈ lines, '\n' ∉ line) :
    readlines (unlines lines) = lines.map (· ++ ['\n']) := by
  induction lines with
  | nil => rfl
  | cons line lines ih =>
    rw [List.forall_mem_cons] at h
    have hcons : unlines (line :: lines) = line ++ '\n' :: unlines lines := by
      simp [unlines]
    rw [hcons, readlines_cons h.1, ih h.2, List.map_cons]

/-- Every text is made of lines, of which the last one may lack its newline. -/
theorem exists_unlines (text : List Char) : ∃ lines last,
    (∀ line ∈ lines, '\n' ∉ line) ∧ '\n' ∉ last ∧ text = unlines lines ++ last := by
  induction text with
  | nil => exact ⟨[], [], fun line h => absurd h List.not_mem_nil, List.not_mem_nil, rfl⟩
  | cons c text ih =>
    obtain ⟨lines, last, hlines, hlast, rfl⟩ := ih
    by_cases hc : c = '\n'
    · subst hc
      refine ⟨[] :: lines, last, ?_, hlast, rfl⟩
      rw [List.forall_mem_cons]
      exact ⟨List.not_mem_nil, hlines⟩
    · have hcons : ∀ {line : List Char}, '\n' ∉ line → '\n' ∉ c :: line := by
        intro line h hmem
        rcases List.mem_cons.mp hmem with heq | hmem
        · exact hc heq.symm
        · exact h hmem
      cases lines with
      | nil => exact ⟨[], c :: last, hlines, hcons hlast, rfl⟩
      | cons line lines =>
        rw [List.forall_mem_cons] at hlines
        refine ⟨(c :: line) :: lines, last, ?_, hlast, rfl⟩
        rw [List.forall_mem_cons]
        exact ⟨hcons hlines.1, hlines.2⟩

end Foundation
