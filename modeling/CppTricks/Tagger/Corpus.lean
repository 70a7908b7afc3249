import CppTricks.Foundation.FileStream
import CppTricks.Foundation.StringStream
import CppTricks.Foundation.Windows
import Mathlib.Data.List.DropRight

/-! The corpus files of `count_freqs.py` and `eval_gene_tagger.py`, and the n-grams of their
sentences. -/
namespace CppTricks.Tagger
open Foundation

inductive Raised
  | indexError
  | keyError
  | stopIteration
  | systemExit (status : ℕ)
  | valueError
  | zeroDivisionError
  deriving DecidableEq

abbrev Token := List Char × List Char

def strip (line : List Char) : List Char :=
  (line.dropWhile isSpace).rdropWhile isSpace

/-- An iteration of `simple_conll_corpus_iterator`; `none` stands for `(None, None)`. -/
def readToken (l : List Char) : Option Token :=
  let line := strip l
  if line = [] then none
  else
    let fields := line.splitOn ' '
    some ([' '].intercalate fields.dropLast, fields.getLastD [])

def simpleConllCorpusIterator (corpusFile : List Char) : List (Option Token) :=
  (readlines corpusFile).map readToken

/-- The sentences, from the buffer and the lines that are left. A blank line without a sentence in
front of it ends them all. -/
def sentenceIterator (currentSentence : List Token) : List (Option Token) → List (List Token)
  | [] => if currentSentence = [] then [] else [currentSentence]
  | none :: ls =>
    if currentSentence = [] then [] else currentSentence :: sentenceIterator [] ls
  | some l :: ls => sentenceIterator (currentSentence ++ [l]) ls

abbrev Padded := Option (List Char) × List Char

def star : List Char := ['*']

def stop : List Char := ['S', 'T', 'O', 'P']

def wBoundary (n : ℕ) (sent : List Token) : List Padded :=
  List.replicate (n - 1) (none, star) ++ sent.map (fun l => (some l.1, l.2)) ++ [(none, stop)]

def getNgrams (n : ℕ) (sents : List (List Token)) : List (List Padded) :=
  sents.flatMap fun sent => windows n (wBoundary n sent)

/-! ### Printed corpora -/

/-- A word or tag that a line can hold. -/
def Plain (s : List Char) : Prop := s ≠ [] ∧ ∀ c ∈ s, isSpace c = false

instance (s : List Char) : Decidable (Plain s) :=
  @instDecidableAnd _ _ inferInstance (List.decidableBAll _ s)

variable {s : List Char} {sents : List (List Token)}

theorem Plain.not_mem {c : Char} (h : Plain s) (hc : isSpace c = true) : c ∉ s := by
  intro hmem
  rw [h.2 c hmem] at hc
  cases hc

def showFields (fields : List (List Char)) : List Char := [' '].intercalate fields

theorem showFields_cons_cons (s s' : List Char) (fields : List (List Char)) :
    showFields (s :: s' :: fields) = s ++ ' ' :: showFields (s' :: fields) := by
  unfold showFields
  rw [List.intercalate_cons_cons, List.append_assoc]
  rfl

/-- The line begins and ends with a character that is no space. -/
theorem showFields_ends {fields : List (List Char)} (hne : fields ≠ [])
    (h : ∀ s ∈ fields, Plain s) : ∃ c d cs ds, showFields fields = c :: cs ∧
      showFields fields = ds ++ [d] ∧ isSpace c = false ∧
      isSpace d = false := by
  induction fields with
  | nil => exact absurd rfl hne
  | cons s fields ih =>
    rw [List.forall_mem_cons] at h
    obtain ⟨⟨hs, hspace⟩, hfields⟩ := h
    obtain ⟨c, cs, rfl⟩ := List.exists_cons_of_ne_nil hs
    have hc := hspace c List.mem_cons_self
    cases fields with
    | nil =>
      refine ⟨c, (c :: cs).getLast hs, cs, (c :: cs).dropLast, ?_, ?_, hc, ?_⟩
      · exact List.intercalate_singleton
      · rw [List.dropLast_append_getLast]
        exact List.intercalate_singleton
      · exact hspace _ (List.getLast_mem hs)
    | cons s' fields =>
      obtain ⟨-, d, -, ds, -, hds, -, hd⟩ := ih (List.cons_ne_nil _ _) hfields
      refine ⟨c, d, _, c :: cs ++ ' ' :: ds, showFields_cons_cons _ _ _, ?_, hc, hd⟩
      rw [showFields_cons_cons, hds, List.append_assoc]
      rfl

/-- What follows the fields on their line is stripped off, and they are split apart again. -/
theorem splitOn_strip_showFields {fields : List (List Char)} (hne : fields ≠ [])
    (h : ∀ s ∈ fields, Plain s) : strip (showFields fields ++ ['\n']) = showFields fields ∧
      showFields fields ≠ [] ∧ (showFields fields).splitOn ' ' = fields := by
  obtain ⟨c, d, cs, ds, hcons, hconcat, hc, hd⟩ := showFields_ends hne h
  refine ⟨?_, by rw [hcons]; exact List.cons_ne_nil c cs, ?_⟩
  · have hnewline : isSpace '\n' = true := by decide
    have hfront : (showFields fields ++ ['\n']).dropWhile isSpace =
        showFields fields ++ ['\n'] := by
      rw [hcons, List.cons_append, List.dropWhile_cons_of_neg]
      rw [hc]
      exact Bool.false_ne_true
    unfold strip
    rw [hfront, List.rdropWhile_concat_pos _ _ _ hnewline, hconcat,
      List.rdropWhile_concat_neg]
    rw [hd]
    exact Bool.false_ne_true
  · refine List.splitOn_intercalate ' ' ?_ hne
    intro s hs
    exact (h s hs).not_mem (by decide)

theorem newline_not_mem_showFields {fields : List (List Char)} (h : ∀ s ∈ fields, Plain s) :
    '\n' ∉ showFields fields := by
  induction fields with
  | nil => exact List.not_mem_nil
  | cons s fields ih =>
    rw [List.forall_mem_cons] at h
    have hs := h.1.not_mem (c := '\n') (by decide)
    cases fields with
    | nil =>
      unfold showFields
      rwa [List.intercalate_singleton]
    | cons s' fields =>
      rw [showFields_cons_cons, List.mem_append, List.mem_cons]
      rintro (hmem | hmem | hmem)
      · exact hs hmem
      · exact absurd hmem (by decide)
      · exact ih h.2 hmem

def showCorpus (sents : List (List Token)) : List Char :=
  unlines (sents.flatMap fun sent => sent.map (fun l => showFields [l.1, l.2]) ++ [[]])

/-- A sentence that a corpus file can hold. -/
def Printable (sent : List Token) : Prop := sent ≠ [] ∧ ∀ l ∈ sent, Plain l.1 ∧ Plain l.2

instance (sent : List Token) : Decidable (Printable sent) := instDecidableAnd

theorem plain_pair {l : Token} (h : Plain l.1 ∧ Plain l.2) : ∀ s ∈ [l.1, l.2], Plain s := by
  rw [List.forall_mem_cons, List.forall_mem_singleton]
  exact h

theorem readToken_showFields {l : Token} (h : Plain l.1 ∧ Plain l.2) :
    readToken (showFields [l.1, l.2] ++ ['\n']) = some l := by
  obtain ⟨hstrip, hne, hsplit⟩ := splitOn_strip_showFields (List.cons_ne_nil _ _) (plain_pair h)
  have hword : [' '].intercalate [l.1, l.2].dropLast = l.1 := List.intercalate_singleton
  unfold readToken
  simp only [hstrip, if_neg hne, hsplit, hword]
  rfl

theorem simpleConllCorpusIterator_showCorpus (h : ∀ sent ∈ sents, Printable sent) :
    simpleConllCorpusIterator (showCorpus sents) =
      sents.flatMap fun sent => sent.map some ++ [none] := by
  unfold simpleConllCorpusIterator showCorpus
  rw [readlines_unlines, List.map_map, List.map_flatMap]
  · apply List.flatMap_congr
    intro sent hsent
    rw [List.map_append, List.map_map]
    refine congrArg₂ _ (List.map_congr_left fun l hl => ?_) rfl
    exact readToken_showFields ((h sent hsent).2 l hl)
  · intro line hline
    obtain ⟨sent, hsent, hline⟩ := List.mem_flatMap.mp hline
    rcases List.mem_append.mp hline with htoken | hblank
    · obtain ⟨l, hl, rfl⟩ := List.mem_map.mp htoken
      exact newline_not_mem_showFields (plain_pair ((h sent hsent).2 l hl))
    · rw [List.mem_singleton.mp hblank]
      exact List.not_mem_nil

theorem sentenceIterator_sentence (current sent : List Token) (ls : List (Option Token)) :
    sentenceIterator current (sent.map some ++ ls) = sentenceIterator (current ++ sent) ls := by
  induction sent generalizing current with
  | nil => rw [List.map_nil, List.nil_append, List.append_nil]
  | cons l sent ih =>
    rw [List.map_cons, List.cons_append, sentenceIterator, ih, List.append_assoc]
    rfl

/-- A printed corpus is read back. -/
theorem sentenceIterator_showCorpus (h : ∀ sent ∈ sents, Printable sent) :
    sentenceIterator [] (simpleConllCorpusIterator (showCorpus sents)) = sents := by
  rw [simpleConllCorpusIterator_showCorpus h]
  induction sents with
  | nil => rfl
  | cons sent sents ih =>
    rw [List.forall_mem_cons] at h
    rw [List.flatMap_cons, List.append_assoc, sentenceIterator_sentence, List.nil_append,
      List.singleton_append, sentenceIterator, if_neg h.1.1, ih h.2]

end CppTricks.Tagger
