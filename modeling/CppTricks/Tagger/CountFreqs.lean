import CppTricks.Foundation.Tallies
import CppTricks.Tagger.Corpus
import Mathlib.Algebra.BigOperators.Group.List.Basic
import Mathlib.Data.Finset.Insert
import Mathlib.Data.List.Infix
import Mathlib.Tactic.IntervalCases

/-! The n-gram counter of `count_freqs.py`: what a trained counter counts. -/
namespace CppTricks.Tagger
open Foundation

/-- The counter, with counts of type `ν`. The dictionary of the `k`-grams is at index `k - 1`. -/
structure Hmm (ν : Type) where
  n : ℕ
  emissionCounts : AList fun _ : Token => ν
  ngramCounts : List (AList fun _ : List (List Char) => ν)
  allStates : Finset (List Char)

namespace Hmm

def init (ν : Type) (n : ℕ) : Hmm ν := ⟨n, ∅, List.replicate n ∅, ∅⟩

def bumpNgram (h : Hmm ℕ) (k : ℕ) (ngram : List (List Char)) : Hmm ℕ :=
  { h with ngramCounts := h.ngramCounts.modify k fun t => Tally.bump t ngram }

def bumpEmission (h : Hmm ℕ) (l : Token) : Hmm ℕ :=
  { h with emissionCounts := Tally.bump h.emissionCounts l }

def asToken (l : Padded) : Option Token := l.1.map (·, l.2)

/-- `ngram[-1]`, if its word is not `None` -/
def lastToken (ngram : List Padded) : Option Token := ngram.reverse[0]?.bind asToken

/-- `ngram[-2][0] is None` -/
def startsSentence (ngram : List Padded) : Bool := ngram.reverse[1]?.any (·.1.isNone)

def trainNgram (h : Hmm ℕ) (ngram : List Padded) : Hmm ℕ :=
  let tagsonly := ngram.map Prod.snd
  let h := (List.range' 2 (h.n - 1)).foldl (fun h i => h.bumpNgram (i - 1) (tagsonly.rtake i)) h
  let h := match lastToken ngram with
    | some l => (h.bumpNgram 0 (tagsonly.rtake 1)).bumpEmission l
    | none => h
  if startsSentence ngram then h.bumpNgram (h.n - 2) (List.replicate (h.n - 1) star) else h

def trainSentences (h : Hmm ℕ) (sents : List (List Token)) : Hmm ℕ :=
  (getNgrams h.n sents).foldl trainNgram h

def train (h : Hmm ℕ) (corpusFile : List Char) : Hmm ℕ :=
  h.trainSentences (sentenceIterator [] (simpleConllCorpusIterator corpusFile))

def ngramCount (h : Hmm ℕ) (k : ℕ) (ngram : List (List Char)) : ℕ :=
  Tally.count (h.ngramCounts.getD k ∅) ngram

/-- The sum of `self.ngram_counts[k]` over the n-grams that satisfy `p`. -/
def ngramTotal (h : Hmm ℕ) (k : ℕ) (p : List (List Char) → Bool) : ℕ :=
  Tally.total p (h.ngramCounts.getD k ∅)

/-! ### What training counts -/

variable {h h' h'' : Hmm ℕ} {n k : ℕ} {ngram : List Padded}

/-- What the dictionaries of `h'` have been given since `h`: n-grams to the one at each index, and
tokens to the emissions. -/
structure Counted (h h' : Hmm ℕ) (keys : ℕ → List (List (List Char))) (tokens : List Token) :
    Prop where
  n_eq : h'.n = h.n
  length_eq : h'.ngramCounts.length = h.ngramCounts.length
  ngram : ∀ k p, h'.ngramTotal k p = h.ngramTotal k p + (keys k).countP p
  emission : h'.emissionCounts = tokens.foldl Tally.bump h.emissionCounts
  positive : (∀ t ∈ h.ngramCounts, Tally.Positive t) → ∀ t ∈ h'.ngramCounts, Tally.Positive t

namespace Counted

variable {keys keys' : ℕ → List (List (List Char))} {tokens tokens' : List Token}

theorem refl (h : Hmm ℕ) : Counted h h (fun _ => []) [] :=
  ⟨rfl, rfl, fun _ _ => rfl, rfl, id⟩

theorem trans (h₁ : Counted h h' keys tokens) (h₂ : Counted h' h'' keys' tokens') :
    Counted h h'' (fun k => keys k ++ keys' k) (tokens ++ tokens') where
  n_eq := h₂.n_eq.trans h₁.n_eq
  length_eq := h₂.length_eq.trans h₁.length_eq
  ngram := by
    intro k p
    rw [h₂.ngram, h₁.ngram, List.countP_append, Nat.add_assoc]
  emission := by rw [h₂.emission, h₁.emission, List.foldl_append]
  positive := fun hpos => h₂.positive (h₁.positive hpos)

theorem congr_keys (h₁ : Counted h h' keys tokens) (hkeys : ∀ k, (keys k) = keys' k) :
    Counted h h' keys' tokens :=
  funext hkeys ▸ h₁

theorem bumpNgram (hk : k < h.ngramCounts.length) (key : List (List Char)) :
    Counted h (h.bumpNgram k key) (fun j => if j = k then [key] else []) [] where
  n_eq := rfl
  length_eq := List.length_modify _ _ _
  ngram := by
    intro j p
    unfold ngramTotal Hmm.bumpNgram
    dsimp only
    rw [List.getD_eq_getElem?_getD, List.getD_eq_getElem?_getD, List.getElem?_modify]
    by_cases hkj : k = j
    · subst hkj
      rw [List.getElem?_eq_getElem hk]
      simpa [List.countP_singleton] using Tally.total_bump p h.ngramCounts[k] key
    · simp [hkj, Ne.symm hkj]
  emission := rfl
  positive := by
    intro hpos t ht
    obtain ⟨j, ht⟩ := List.mem_iff_getElem?.mp ht
    unfold Hmm.bumpNgram at ht
    rw [List.getElem?_modify] at ht
    obtain ⟨t', ht', rfl⟩ := Option.map_eq_some_iff.mp ht
    have hpos' := hpos t' (List.mem_of_getElem? ht')
    by_cases hkj : k = j
    · simpa [hkj] using hpos'.bump key
    · simpa [hkj] using hpos'

theorem bumpEmission (h : Hmm ℕ) (l : Token) :
    Counted h (h.bumpEmission l) (fun _ => []) [l] := ⟨rfl, rfl, fun _ _ => rfl, rfl, id⟩

theorem loop (tags : List (List Char)) {m i : ℕ} (hi : i + m ≤ h.ngramCounts.length) :
    Counted h ((List.range' (i + 1) m).foldl (fun h i => h.bumpNgram (i - 1) (tags.rtake i)) h)
      (fun k => if i ≤ k ∧ k < i + m then [tags.rtake (k + 1)] else []) [] := by
  induction m generalizing h i with
  | zero =>
    refine (refl h).congr_keys fun k => ?_
    rw [if_neg (by omega)]
  | succ m ih =>
    have hfirst := bumpNgram (k := i) (h := h) (by omega) (tags.rtake (i + 1))
    have hrest : i + 1 + m ≤ (h.bumpNgram i (tags.rtake (i + 1))).ngramCounts.length := by
      rw [hfirst.length_eq]
      omega
    refine (hfirst.trans (ih hrest)).congr_keys fun k => ?_
    by_cases hki : k = i
    · subst hki
      rw [if_pos rfl, if_neg (by omega), if_pos (by omega)]
      rfl
    · have hrange : (i + 1 ≤ k ∧ k < i + 1 + m) ↔ i ≤ k ∧ k < i + (m + 1) := by omega
      simp only [hki, if_false, List.nil_append, hrange]

end Counted

/-- What a round counts in the dictionary at index `k`. -/
def bumps (n k : ℕ) (ngram : List Padded) : List (List (List Char)) :=
  (if 1 ≤ k ∧ k < n then [(ngram.map Prod.snd).rtake (k + 1)] else []) ++
    ((if k = 0 ∧ (lastToken ngram).isSome then [(ngram.map Prod.snd).rtake 1] else []) ++
      if k = n - 2 ∧ startsSentence ngram then [List.replicate (n - 1) star] else [])

/-- As many dictionaries as the constructor made. -/
def Sized (h : Hmm ℕ) : Prop := h.ngramCounts.length = h.n ∧ 2 ≤ h.n

theorem Counted.trainNgram (hs : h.Sized) (ngram : List Padded) :
    Counted h (h.trainNgram ngram) (fun k => bumps h.n k ngram) (lastToken ngram).toList := by
  obtain ⟨hlen, htwo⟩ := hs
  have hloop := loop (h := h) (ngram.map Prod.snd) (m := h.n - 1) (i := 1) (by omega)
  unfold Hmm.trainNgram
  dsimp only
  generalize (List.range' 2 (h.n - 1)).foldl _ h = h₁ at hloop ⊢
  have hlast : Counted h₁ (match lastToken ngram with
      | some l => (h₁.bumpNgram 0 ((ngram.map Prod.snd).rtake 1)).bumpEmission l
      | none => h₁)
      (fun k => if k = 0 ∧ (lastToken ngram).isSome then [(ngram.map Prod.snd).rtake 1] else [])
      (lastToken ngram).toList := by
    cases lastToken ngram with
    | none => exact (refl h₁).congr_keys fun k => by simp
    | some l =>
      have hpos : 0 < h₁.ngramCounts.length := by
        rw [hloop.length_eq]
        omega
      refine ((bumpNgram hpos _).trans (bumpEmission _ l)).congr_keys fun k => ?_
      simp
  generalize (match lastToken ngram with
    | some l => (h₁.bumpNgram 0 ((ngram.map Prod.snd).rtake 1)).bumpEmission l
    | none => h₁) = h₂ at hlast ⊢
  have hboth := hloop.trans hlast
  rw [hboth.n_eq]
  have hrange : ∀ k, (1 ≤ k ∧ k < 1 + (h.n - 1)) ↔ 1 ≤ k ∧ k < h.n := by omega
  by_cases hstart : startsSentence ngram
  · have hk : h.n - 2 < h₂.ngramCounts.length := by
      rw [hboth.length_eq]
      omega
    rw [if_pos hstart]
    have hall := hboth.trans (bumpNgram hk (List.replicate (h.n - 1) star))
    rw [List.append_nil, List.nil_append] at hall
    refine hall.congr_keys fun k => ?_
    simp only [bumps, hstart, hrange, and_true, List.append_assoc]
  · rw [if_neg hstart]
    refine hboth.congr_keys fun k => ?_
    simp only [bumps, hstart, hrange, and_false, if_false, List.append_nil, Bool.false_eq_true]

theorem Counted.foldl_trainNgram (hs : h.Sized) (ngrams : List (List Padded)) :
    Counted h (ngrams.foldl Hmm.trainNgram h) (fun k => ngrams.flatMap (bumps h.n k))
      (ngrams.filterMap lastToken) := by
  induction ngrams generalizing h with
  | nil => exact refl h
  | cons ngram ngrams ih =>
    have hfirst := trainNgram hs ngram
    have hs' : (h.trainNgram ngram).Sized := by
      unfold Sized
      rw [hfirst.n_eq, hfirst.length_eq]
      exact hs
    have hall := hfirst.trans (ih hs')
    rw [hfirst.n_eq] at hall
    have htokens : (ngram :: ngrams).filterMap lastToken =
        (lastToken ngram).toList ++ ngrams.filterMap lastToken := by
      rw [List.filterMap_cons]
      cases lastToken ngram <;> rfl
    rw [htokens]
    exact hall.congr_keys fun k => rfl

/-! ### The n-grams of a sentence -/

section Sentence

variable (n : ℕ) (sent : List Token)

def paddedTags : List (List Char) := (wBoundary n sent).map Prod.snd

variable {n}

theorem length_wBoundary (hn : 2 ≤ n) : (wBoundary n sent).length = n + sent.length := by
  simp only [wBoundary, List.length_append, List.length_replicate, List.length_map,
    List.length_singleton]
  omega

theorem drop_wBoundary : (wBoundary n sent).drop (n - 1) =
    sent.map (fun l => (some l.1, l.2)) ++ [(none, stop)] := by
  unfold wBoundary
  rw [List.append_assoc]
  exact List.drop_left' List.length_replicate

theorem map_getElem?_last (hn : 2 ≤ n) : (windows n (wBoundary n sent)).map (fun w => w[n - 1]?) =
    (sent.map (fun l : Token => (some l.1, l.2)) ++ [(none, stop)]).map some := by
  have hget := map_getElem?_windows (j := n - 1) (n := n) (by omega) (wBoundary n sent)
  have htake : (wBoundary n sent).length + 1 - n = sent.length + 1 := by
    rw [length_wBoundary sent hn]
    omega
  rwa [drop_wBoundary, htake, List.take_of_length_le (by simp)] at hget

theorem map_lastToken (hn : 2 ≤ n) :
    (windows n (wBoundary n sent)).map lastToken = sent.map some ++ [none] := by
  have hlast : ∀ w ∈ windows n (wBoundary n sent), lastToken w = w[n - 1]?.bind asToken := by
    intro w hw
    have hlen := length_of_mem_windows hw
    unfold lastToken
    rw [List.getElem?_reverse (by omega), hlen, Nat.sub_zero]
  have hmap := congrArg (List.map (·.bind asToken)) (map_getElem?_last sent hn)
  rw [List.map_map] at hmap
  rw [List.map_congr_left hlast]
  refine hmap.trans ?_
  simp [asToken, Function.comp_def]

theorem map_startsSentence (hn : 2 ≤ n) : (windows n (wBoundary n sent)).map startsSentence =
    true :: sent.map fun _ => false := by
  have hget := map_getElem?_windows (j := n - 2) (n := n) (by omega) (wBoundary n sent)
  have htake : (wBoundary n sent).length + 1 - n = sent.length + 1 := by
    rw [length_wBoundary sent hn]
    omega
  have hdrop : (wBoundary n sent).drop (n - 2) = (none, star) ::
      sent.map (fun l => (some l.1, l.2)) ++ [(none, stop)] := by
    have hsucc : n - 1 = n - 2 + 1 := by omega
    unfold wBoundary
    rw [hsucc, List.replicate_succ', List.append_assoc, List.append_assoc,
      List.drop_left' List.length_replicate]
    rfl
  rw [hdrop, htake, List.take_left' (by simp)] at hget
  have hstarts : ∀ w ∈ windows n (wBoundary n sent),
      startsSentence w = w[n - 2]?.any (·.1.isNone) := by
    intro w hw
    have hlen := length_of_mem_windows hw
    have hindex : w.length - 1 - 1 = n - 2 := by omega
    unfold startsSentence
    rw [List.getElem?_reverse (by omega), hindex]
  have hmap := congrArg (List.map fun o : Option Padded => o.any (·.1.isNone)) hget
  rw [List.map_map] at hmap
  rw [List.map_congr_left hstarts]
  refine hmap.trans ?_
  simp [Function.comp_def]

/-- The tags that a round counts together, for each n-gram of the sentence. -/
theorem map_tags_windows : (windows n (wBoundary n sent)).map (List.map Prod.snd) =
    windows n (paddedTags n sent) := (windows_map Prod.snd n _).symm

theorem length_paddedTags (hn : 2 ≤ n) : (paddedTags n sent).length = n + sent.length := by
  unfold paddedTags
  rw [List.length_map, length_wBoundary sent hn]

theorem take_paddedTags : (paddedTags n sent).take (n - 1) = List.replicate (n - 1) star := by
  unfold paddedTags wBoundary
  rw [List.map_append, List.map_append, List.map_replicate, List.append_assoc]
  exact List.take_left' List.length_replicate

/-- The last dictionary gets the tags of every n-gram. -/
theorem flatMap_bumps_last (hn : 2 ≤ n) :
    (windows n (wBoundary n sent)).flatMap (bumps n (n - 1)) = windows n (paddedTags n sent) := by
  rw [← map_tags_windows, ← List.flatMap_pure_eq_map]
  apply List.flatMap_congr
  intro w hw
  have hlen := length_of_mem_windows hw
  have hsub : (w.map Prod.snd).length - (n - 1 + 1) = 0 := by
    rw [List.length_map]
    omega
  unfold bumps
  rw [if_pos (by omega), if_neg (by omega), if_neg (by omega), List.rtake, hsub]
  rfl

/-- An n-gram with its last token apart. Without a word it is the end of the sentence. -/
theorem exists_concat_of_mem_windows (hn : 2 ≤ n) {w : List Padded}
    (hw : w ∈ windows n (wBoundary n sent)) : ∃ w' l, w = w' ++ [l] ∧ w'.length = n - 1 ∧
      (asToken l = none → l.2 = stop) := by
  have hlen := length_of_mem_windows hw
  have hne : w ≠ [] := by
    rintro rfl
    rw [List.length_nil] at hlen
    omega
  have hlast : w[n - 1]? = some (w.getLast hne) := by
    rw [← hlen, ← List.getLast?_eq_getElem?, List.getLast?_eq_getLast_of_ne_nil hne]
  have hmem : w[n - 1]? ∈ (windows n (wBoundary n sent)).map (fun w => w[n - 1]?) :=
    List.mem_map_of_mem hw
  rw [map_getElem?_last sent hn, hlast, List.mem_map_of_injective (Option.some_injective _)] at hmem
  refine ⟨w.dropLast, w.getLast hne, (List.dropLast_append_getLast hne).symm, ?_, ?_⟩
  · rw [List.length_dropLast, hlen]
  · intro hnone
    rcases List.mem_append.mp hmem with hword | hstop
    · obtain ⟨l, -, hl⟩ := List.mem_map.mp hword
      rw [← hl] at hnone
      cases hnone
    · rw [List.mem_singleton.mp hstop]

/-- The dictionary before the last one gets the tags of every n-gram without the first of them, and
those in front of the sentence. For `n = 2` the last of them is no tag of a word and is left out. -/
theorem countP_bumps_of_mem_windows (hn : 2 ≤ n) {p : List (List Char) → Bool}
    (hp : n = 2 → p [stop] = false) {w : List Padded} (hw : w ∈ windows n (wBoundary n sent)) :
    (bumps n (n - 2) w).countP p = [(w.map Prod.snd).tail].countP p +
      if startsSentence w then [List.replicate (n - 1) star].countP p else 0 := by
  obtain ⟨w', l, hw', hlen, hstop⟩ := exists_concat_of_mem_windows sent hn hw
  have hlast : lastToken w = asToken l := by
    rw [hw', lastToken, List.reverse_concat]
    rfl
  have hstarts : (if n - 2 = n - 2 ∧ startsSentence w then [List.replicate (n - 1) star]
      else []).countP p =
      if startsSentence w then [List.replicate (n - 1) star].countP p else 0 := by
    by_cases hw : startsSentence w
    · rw [if_pos ⟨rfl, hw⟩, if_pos hw]
    · rw [if_neg (fun h => hw h.2), if_neg hw]
      rfl
  unfold bumps
  rw [List.countP_append, List.countP_append, hstarts, ← Nat.add_assoc]
  congr 1
  by_cases htwo : n = 2
  · subst htwo
    obtain ⟨a, rfl⟩ := List.length_eq_one_iff.mp hlen
    rw [if_neg (by omega), List.countP_nil, Nat.zero_add, hlast, hw']
    cases hl : asToken l with
    | none =>
      have htag := hstop hl
      rw [if_neg (by simp)]
      simp [htag, hp rfl]
    | some t =>
      rw [if_pos ⟨rfl, rfl⟩]
      rfl
  · have hrtake : (w.map Prod.snd).rtake (n - 2 + 1) = (w.map Prod.snd).tail := by
      have hsub : (w.map Prod.snd).length - (n - 2 + 1) = 1 := by
        rw [List.length_map, hw', List.length_append, hlen, List.length_singleton]
        omega
      rw [List.rtake, hsub, List.drop_one]
    rw [if_pos (by omega), if_neg (by omega), hrtake]
    rfl

theorem countP_bumps_prefix (hn : 2 ≤ n) {p : List (List Char) → Bool}
    (hp : n = 2 → p [stop] = false) :
    ((windows n (wBoundary n sent)).flatMap (bumps n (n - 2))).countP p =
      (windows (n - 1) (paddedTags n sent)).countP p := by
  have hsucc : n - 1 + 1 = n := by omega
  have hfirst : n - 1 ≤ (paddedTags n sent).length := by
    rw [length_paddedTags sent hn]
    omega
  have hstarts : ∀ c : ℕ, ((windows n (wBoundary n sent)).map
      fun w => if startsSentence w then c else 0).sum = c := by
    intro c
    have hmap := congrArg (List.map fun b : Bool => if b then c else 0)
      (map_startsSentence sent hn)
    rw [List.map_map] at hmap
    have hsum := congrArg List.sum hmap
    refine hsum.trans ?_
    simp
  have htails : ((windows n (wBoundary n sent)).map
      fun w => [(w.map Prod.snd).tail].countP p).sum =
        ((windows n (paddedTags n sent)).map List.tail).countP p := by
    rw [← map_tags_windows, List.map_map]
    induction windows n (wBoundary n sent) with
    | nil => rfl
    | cons w ws ih =>
      rw [List.map_cons, List.map_cons, List.sum_cons, ih, ← List.countP_append]
      rfl
  have hmap : ((windows n (wBoundary n sent)).map fun w => (bumps n (n - 2) w).countP p) =
      (windows n (wBoundary n sent)).map fun w => [(w.map Prod.snd).tail].countP p +
        if startsSentence w then [List.replicate (n - 1) star].countP p else 0 :=
    List.map_congr_left fun w hw => countP_bumps_of_mem_windows sent hn hp hw
  have hwindows := windows_eq_cons hfirst
  rw [hsucc, take_paddedTags] at hwindows
  have hsum := congrArg List.sum hmap
  rw [List.sum_map_add, hstarts, htails] at hsum
  rw [List.countP_flatMap]
  refine hsum.trans ?_
  rw [hwindows, List.countP_singleton, List.countP_cons]

/-- The last n-gram without its first tag ends the sentence. -/
theorem countP_windows_dropLast (hn : 2 ≤ n) {p : List (List Char) → Bool}
    (hp : ∀ key, key.getLast? = some stop → p key = false) :
    (windows (n - 1) (paddedTags n sent)).countP p =
      ((windows n (paddedTags n sent)).map List.dropLast).countP p := by
  have hsucc : n - 1 + 1 = n := by omega
  have hle : n - 1 ≤ (paddedTags n sent).length := by
    rw [length_paddedTags sent hn]
    omega
  have hlast : p ((paddedTags n sent).drop ((paddedTags n sent).length - (n - 1))) = false := by
    apply hp
    rw [List.getLast?_drop, length_paddedTags sent hn, if_neg (by omega)]
    unfold paddedTags wBoundary
    rw [List.map_append]
    exact List.getLast?_concat
  rw [windows_eq_concat hle, hsucc, List.countP_append, List.countP_singleton, hlast]
  rfl

theorem countP_bumps_zero (hn : 2 ≤ n) {p : List (List Char) → Bool}
    (hp : n = 2 → p [star] = false) {w : List Padded} (hw : w ∈ windows n (wBoundary n sent)) :
    (bumps n 0 w).countP p = ((lastToken w).toList.map fun l => [l.2]).countP p := by
  obtain ⟨w', l, hw', -, -⟩ := exists_concat_of_mem_windows sent hn hw
  have hlast : lastToken w = asToken l := by
    rw [hw', lastToken, List.reverse_concat]
    rfl
  have hrtake : (w.map Prod.snd).rtake 1 = [l.2] := by
    rw [hw', List.map_append, List.map_singleton]
    rw [List.rtake_concat_succ, List.rtake_zero]
    rfl
  have hstarts : (if 0 = n - 2 ∧ startsSentence w then [List.replicate (n - 1) star]
      else []).countP p = 0 := by
    by_cases h : 0 = n - 2 ∧ startsSentence w
    · obtain rfl : n = 2 := by omega
      rw [if_pos h, List.countP_singleton]
      simpa using hp rfl
    · rw [if_neg h]
      rfl
  unfold bumps
  rw [if_neg (by omega), List.nil_append, List.countP_append, hstarts, hrtake, hlast]
  cases hl : asToken l with
  | none => rfl
  | some t =>
    have htag : l.2 = t.2 := by
      obtain ⟨word, neTag⟩ := l
      cases word with
      | none => cases hl
      | some word =>
        obtain rfl := Option.some.inj hl
        rfl
    rw [if_pos ⟨rfl, rfl⟩, htag]
    rfl

theorem filterMap_lastToken (hn : 2 ≤ n) :
    (windows n (wBoundary n sent)).filterMap lastToken = sent := by
  have hmap := congrArg (List.filterMap id) (map_lastToken sent hn)
  rw [List.filterMap_map, List.filterMap_append, List.filterMap_map] at hmap
  refine hmap.trans ?_
  simp

end Sentence

/-! ### Whole corpora -/

variable {sents : List (List Token)}

theorem sized_init (hn : 2 ≤ n) : (init ℕ n).Sized := ⟨List.length_replicate, hn⟩

theorem ngramTotal_init (n k : ℕ) (p : List (List Char) → Bool) :
    (init ℕ n).ngramTotal k p = 0 := by
  unfold ngramTotal init
  dsimp only
  rw [List.getD_eq_getElem?_getD, List.getElem?_replicate]
  split_ifs <;> rfl

theorem counted_train (hn : 2 ≤ n) (sents : List (List Token)) :
    Counted (init ℕ n) ((init ℕ n).trainSentences sents)
      (fun k => sents.flatMap fun sent => (windows n (wBoundary n sent)).flatMap (bumps n k))
      sents.flatten := by
  have hall := Counted.foldl_trainNgram (sized_init hn) (getNgrams n sents)
  have htokens : (getNgrams n sents).filterMap lastToken = sents.flatten := by
    unfold getNgrams
    rw [List.filterMap_flatMap, List.flatten_eq_flatMap]
    apply List.flatMap_congr
    intro sent _
    exact filterMap_lastToken sent hn
  rw [htokens] at hall
  refine hall.congr_keys fun k => ?_
  unfold getNgrams
  exact List.flatMap_assoc

/-- The n-grams that the dictionaries count, sentence by sentence. -/
theorem ngramTotal_train_congr (hn : 2 ≤ n) {p : List (List Char) → Bool}
    {keys : List Token → List (List (List Char))}
    (h : ∀ sent, ((windows n (wBoundary n sent)).flatMap (bumps n k)).countP p =
      (keys sent).countP p) :
    ((init ℕ n).trainSentences sents).ngramTotal k p = (sents.flatMap keys).countP p := by
  rw [(counted_train hn sents).ngram, ngramTotal_init, Nat.zero_add, List.countP_flatMap,
    List.countP_flatMap]
  exact congrArg List.sum (List.map_congr_left fun sent _ => h sent)

theorem ngramCount_eq_total (h : Hmm ℕ) (k : ℕ) (ngram : List (List Char)) :
    h.ngramCount k ngram = h.ngramTotal k (· = ngram) := Tally.count_eq_total _ _

theorem emission_total_train (hn : 2 ≤ n) (p : Token → Bool) :
    Tally.total p ((init ℕ n).trainSentences sents).emissionCounts = sents.flatten.countP p := by
  rw [(counted_train hn sents).emission, Tally.total_foldl_bump]
  exact Nat.zero_add _

theorem ngramTotal_train_last (hn : 2 ≤ n) (p : List (List Char) → Bool) :
    ((init ℕ n).trainSentences sents).ngramTotal (n - 1) p =
      (sents.flatMap fun sent => windows n (paddedTags n sent)).countP p :=
  ngramTotal_train_congr hn fun sent => congrArg (List.countP p) (flatMap_bumps_last sent hn)

theorem ngramTotal_train_prefix (hn : 2 ≤ n) {p : List (List Char) → Bool}
    (hp : n = 2 → p [stop] = false) :
    ((init ℕ n).trainSentences sents).ngramTotal (n - 2) p =
      (sents.flatMap fun sent => windows (n - 1) (paddedTags n sent)).countP p :=
  ngramTotal_train_congr hn fun sent => countP_bumps_prefix sent hn hp

theorem ngramTotal_train_zero (hn : 2 ≤ n) {p : List (List Char) → Bool}
    (hp : n = 2 → p [star] = false) :
    ((init ℕ n).trainSentences sents).ngramTotal 0 p =
      (sents.flatMap fun sent => sent.map fun l => [l.2]).countP p := by
  refine ngramTotal_train_congr hn fun sent => ?_
  rw [List.countP_flatMap]
  have hmap : ((windows n (wBoundary n sent)).map fun w => (bumps n 0 w).countP p) =
      (windows n (wBoundary n sent)).map fun w =>
        ((lastToken w).toList.map fun l => [l.2]).countP p :=
    List.map_congr_left fun w hw => countP_bumps_zero sent hn hp hw
  have htokens : sent.map (fun l => [l.2]) = (windows n (wBoundary n sent)).flatMap fun w =>
      (lastToken w).toList.map fun l => [l.2] := by
    rw [← List.map_flatMap, ← List.filterMap_eq_flatMap_toList, filterMap_lastToken sent hn]
  rw [htokens, List.countP_flatMap]
  exact congrArg List.sum hmap

/-- The n-grams of a corpus that the dictionary at index `k` counts for `n = 3`. -/
def ngramsOf (sents : List (List Token)) : ℕ → List (List (List Char))
  | 0 => sents.flatMap fun sent => sent.map fun l => [l.2]
  | k + 1 => sents.flatMap fun sent => windows (k + 2) (paddedTags 3 sent)

theorem ngramTotal_train_three (hk : k < 3) (p : List (List Char) → Bool) :
    ((init ℕ 3).trainSentences sents).ngramTotal k p = (ngramsOf sents k).countP p := by
  have htwo : ¬3 = 2 := by decide
  interval_cases k
  · exact ngramTotal_train_zero (by decide) fun h => absurd h htwo
  · exact ngramTotal_train_prefix (by decide) fun h => absurd h htwo
  · exact ngramTotal_train_last (by decide) p

/-- The counts are consistent: those of the n-grams that go on from the same tags add up to the
count of these, unless they end a sentence, and those of the words with one tag to its count. -/
theorem train_consistent (corpusFile : List Char) (hn : 2 ≤ n) :
    (∀ ngram, ngram.getLast? ≠ some stop →
      ((init ℕ n).train corpusFile).ngramTotal (n - 1) (·.dropLast = ngram) =
        ((init ℕ n).train corpusFile).ngramCount (n - 2) ngram) ∧
      ∀ neTag, 3 ≤ n ∨ neTag ≠ star →
        Tally.total (·.2 = neTag) ((init ℕ n).train corpusFile).emissionCounts =
          ((init ℕ n).train corpusFile).ngramCount 0 [neTag] := by
  unfold Hmm.train
  constructor
  · intro ngram hstop
    have hp : ∀ key : List (List Char), key.getLast? = some stop →
        decide (key = ngram) = false := by
      intro key hkey
      rw [decide_eq_false_iff_not]
      rintro rfl
      exact hstop hkey
    rw [ngramCount_eq_total, ngramTotal_train_last hn, ngramTotal_train_prefix hn fun _ => hp _ rfl,
      List.countP_flatMap, List.countP_flatMap]
    refine congrArg List.sum (List.map_congr_left fun sent _ => ?_)
    have hdrop := countP_windows_dropLast sent hn hp
    rw [List.countP_map] at hdrop
    exact hdrop.symm
  · intro neTag htag
    have hp : n = 2 → decide ([star] = [neTag]) = false := by
      intro htwo
      rw [decide_eq_false_iff_not]
      rintro h
      obtain rfl : star = neTag := List.head_eq_of_cons_eq h
      rcases htag with hthree | hne
      · omega
      · exact hne rfl
    rw [ngramCount_eq_total, ngramTotal_train_zero hn hp, emission_total_train hn,
      List.countP_flatten, List.countP_flatMap]
    refine congrArg List.sum (List.map_congr_left fun sent _ => ?_)
    rw [Function.comp_apply, List.countP_map]
    apply List.countP_congr
    intro l _
    simp

theorem train_consistent_three :
    ((init ℕ 3).train "the O\nras I-GENE\n".toList).ngramTotal 2 (·.dropLast = [star, star]) =
        ((init ℕ 3).train "the O\nras I-GENE\n".toList).ngramCount 1 [star, star] ∧
      Tally.total (·.2 = ['O']) ((init ℕ 3).train "the O\nras I-GENE\n".toList).emissionCounts =
        ((init ℕ 3).train "the O\nras I-GENE\n".toList).ngramCount 0 [['O']] :=
  ⟨(train_consistent _ (by decide)).1 [star, star] (by decide),
    (train_consistent _ (by decide)).2 ['O'] (Or.inl (by decide))⟩

end Hmm

end CppTricks.Tagger
