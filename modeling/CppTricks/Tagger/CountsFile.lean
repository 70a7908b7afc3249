import CppTricks.Tagger.CountFreqs

/-! `write_counts` and `read_counts`: the file of the counts. -/
namespace CppTricks.Tagger
open Foundation

def wordtag : List Char := "WORDTAG".toList

def emissionLine (e : Sigma fun _ : Token => ℕ) : List Char :=
  showFields [Nat.toDigits 10 e.2, wordtag, e.1.2, e.1.1]

def ngramLine (n : ℕ) (e : Sigma fun _ : List (List Char) => ℕ) : List Char :=
  showFields [Nat.toDigits 10 e.2, Nat.toDigits 10 n ++ "-GRAM".toList, showFields e.1]

def writeCounts (h : Hmm ℕ) : Except Raised (List Char) := do
  let printngrams := [1, 2, 3]
  let ngrams ← printngrams.mapM fun n =>
    match h.ngramCounts[n - 1]? with
    | none => .error .indexError
    | some t => .ok (t.entries.map (ngramLine n))
  return unlines (h.emissionCounts.entries.map emissionLine ++ ngrams.flatten)

def replaceGram : List Char → List Char
  | '-' :: 'G' :: 'R' :: 'A' :: 'M' :: s => replaceGram s
  | c :: s => c :: replaceGram s
  | [] => []

/-- `int(s)` -/
def int (s : List Char) : Except Raised ℤ :=
  let (minus, digits) := takeSign (strip s)
  if digits ≠ [] ∧ digits.all Char.isDigit then
    let n : ℤ := Nat.ofDigitChars 10 digits 0
    .ok (if minus then -n else n)
  else .error .valueError

/-- The place of `xs[i]` in a list of `len` elements. A negative index counts from the end. -/
def index (len : ℕ) (i : ℤ) : Except Raised ℕ :=
  if 0 ≤ i ∧ i < len then .ok i.toNat
  else if -len ≤ i ∧ i < 0 then .ok (len + i).toNat
  else .error .indexError

variable {ν : Type}

/-- An iteration of the loop of `read_counts`, where `float` turns a text into a count. -/
def readLine (float : List Char → Except Raised ν) (h : Hmm ν) (line : List Char) :
    Except Raised (Hmm ν) :=
  match (strip line).splitOn ' ' with
  | [] => .error .indexError
  | field :: parts => do
    let count ← float field
    match parts with
    | [] => .error .indexError
    | kind :: parts =>
      if kind = wordtag then
        match parts with
        | neTag :: word :: _ =>
          return { h with
            emissionCounts := h.emissionCounts.insert (word, neTag) count
            allStates := insert neTag h.allStates }
        | _ => .error .indexError
      else if "GRAM".toList <:+ kind then do
        let n ← int (replaceGram kind)
        let k ← index h.ngramCounts.length (n - 1)
        return { h with ngramCounts := h.ngramCounts.modify k (·.insert parts count) }
      else return h

def readCounts (float : List Char → Except Raised ν) (corpusfile : List Char) :
    Except Raised (Hmm ν) :=
  (readlines corpusfile).foldlM (readLine float) (.init ν 3)

/-! ### Reading a line -/

variable {float : List Char → Except Raised ν} {ofNat : ℕ → ν} {h : Hmm ν}

theorem plain_toDigits (n : ℕ) : Plain (Nat.toDigits 10 n) := by
  refine ⟨Nat.toDigits_ne_nil, ?_⟩
  intro c hc
  exact StringStream.isSpace_of_isDigit
    (Nat.isDigit_of_mem_toDigits (by decide) (by decide) hc)

theorem readLine_showFields {fields : List (List Char)} (hne : fields ≠ [])
    (hplain : ∀ s ∈ fields, Plain s) :
    (strip (showFields fields ++ ['\n'])).splitOn ' ' = fields := by
  obtain ⟨hstrip, -, hsplit⟩ := splitOn_strip_showFields hne hplain
  rw [hstrip, hsplit]

theorem plain_emissionFields {e : Sigma fun _ : Token => ℕ} (he : Plain e.1.1 ∧ Plain e.1.2) :
    ∀ s ∈ [Nat.toDigits 10 e.2, wordtag, e.1.2, e.1.1], Plain s := by
  simp only [List.forall_mem_cons]
  exact ⟨plain_toDigits _, by decide, he.2, he.1, List.forall_mem_nil _⟩

theorem readLine_emissionLine (hfloat : ∀ n, float (Nat.toDigits 10 n) = .ok (ofNat n))
    {e : Sigma fun _ : Token => ℕ} (he : Plain e.1.1 ∧ Plain e.1.2) (h : Hmm ν) :
    readLine float h (emissionLine e ++ ['\n']) = .ok { h with
      emissionCounts := h.emissionCounts.insert e.1 (ofNat e.2)
      allStates := insert e.1.2 h.allStates } := by
  unfold readLine emissionLine
  rw [readLine_showFields (List.cons_ne_nil _ _) (plain_emissionFields he)]
  dsimp only
  rw [hfloat]
  rfl

/-- The second fields of the lines of n-grams, and the dictionaries they stand for. -/
theorem read_gram {n : ℕ} (hn : n ∈ [1, 2, 3]) :
    let kind := Nat.toDigits 10 n ++ "-GRAM".toList
    Plain kind ∧ kind ≠ wordtag ∧ "GRAM".toList <:+ kind ∧ int (replaceGram kind) = .ok n ∧
      index 3 (n - 1) = .ok (n - 1) := by
  revert n
  decide

theorem readLine_ngramLine (hfloat : ∀ n, float (Nat.toDigits 10 n) = .ok (ofNat n)) {n : ℕ}
    (hn : n ∈ [1, 2, 3]) {e : Sigma fun _ : List (List Char) => ℕ} (hne : e.1 ≠ [])
    (he : ∀ s ∈ e.1, Plain s) (hlen : h.ngramCounts.length = 3) :
    readLine float h (ngramLine n e ++ ['\n']) = .ok { h with
      ngramCounts := h.ngramCounts.modify (n - 1) (·.insert e.1 (ofNat e.2)) } := by
  obtain ⟨hkind, hwordtag, hgram, hint, hindex⟩ := read_gram hn
  have hline : ngramLine n e = showFields
      (Nat.toDigits 10 e.2 :: (Nat.toDigits 10 n ++ "-GRAM".toList) :: e.1) := by
    obtain ⟨s, key, hkey⟩ := List.exists_cons_of_ne_nil hne
    have hsingle : showFields [showFields (s :: key)] = showFields (s :: key) :=
      List.intercalate_singleton
    unfold ngramLine
    rw [hkey, showFields_cons_cons, showFields_cons_cons, hsingle, showFields_cons_cons,
      showFields_cons_cons]
  have hplain : ∀ s ∈ Nat.toDigits 10 e.2 :: (Nat.toDigits 10 n ++ "-GRAM".toList) :: e.1,
      Plain s := by
    rw [List.forall_mem_cons, List.forall_mem_cons]
    exact ⟨plain_toDigits _, hkind, he⟩
  unfold readLine
  rw [hline, readLine_showFields (List.cons_ne_nil _ _) hplain]
  dsimp only
  rw [hfloat]
  dsimp only [bind, Except.bind]
  rw [if_neg hwordtag, if_pos hgram, hint, hlen]
  dsimp only
  rw [hindex]
  rfl

/-! ### Reading what was written -/

structure Writable (h : Hmm ℕ) : Prop where
  emission : ∀ e ∈ h.emissionCounts.entries, Plain e.1.1 ∧ Plain e.1.2
  ngram : ∀ t ∈ h.ngramCounts, ∀ e ∈ t.entries, e.1 ≠ [] ∧ ∀ s ∈ e.1, Plain s

theorem foldlM_emissionLine (hfloat : ∀ n, float (Nat.toDigits 10 n) = .ok (ofNat n))
    {es : List (Sigma fun _ : Token => ℕ)} (hes : ∀ e ∈ es, Plain e.1.1 ∧ Plain e.1.2) (h : Hmm ν) :
    ((es.map emissionLine).map (· ++ ['\n'])).foldlM (readLine float) h = .ok { h with
      emissionCounts := insertAll ofNat es h.emissionCounts
      allStates := es.foldl (fun states e => insert e.1.2 states) h.allStates } := by
  induction es generalizing h with
  | nil => rfl
  | cons e es ih =>
    rw [List.forall_mem_cons] at hes
    rw [List.map_cons, List.map_cons, List.foldlM_cons, readLine_emissionLine hfloat hes.1]
    exact ih hes.2 _

theorem foldlM_ngramLine (hfloat : ∀ n, float (Nat.toDigits 10 n) = .ok (ofNat n)) {n : ℕ}
    (hn : n ∈ [1, 2, 3]) {es : List (Sigma fun _ : List (List Char) => ℕ)}
    (hes : ∀ e ∈ es, e.1 ≠ [] ∧ ∀ s ∈ e.1, Plain s) (hlen : h.ngramCounts.length = 3) :
    ((es.map (ngramLine n)).map (· ++ ['\n'])).foldlM (readLine float) h = .ok { h with
      ngramCounts := h.ngramCounts.modify (n - 1) (insertAll ofNat es) } := by
  induction es generalizing h with
  | nil =>
    have hnil : h.ngramCounts.modify (n - 1) (insertAll ofNat []) = h.ngramCounts :=
      List.modify_id _ _
    rw [hnil]
    rfl
  | cons e es ih =>
    rw [List.forall_mem_cons] at hes
    rw [List.map_cons, List.map_cons, List.foldlM_cons,
      readLine_ngramLine hfloat hn hes.1.1 hes.1.2 hlen]
    refine (ih hes.2 ((List.length_modify _ _ _).trans hlen)).trans ?_
    rw [List.modify_modify_eq]
    rfl

theorem mem_foldl_insert (es : List (Sigma fun _ : Token => ℕ)) (states : Finset (List Char))
    (neTag : List Char) : neTag ∈ es.foldl (fun states e => insert e.1.2 states) states ↔
      (∃ e ∈ es, e.1.2 = neTag) ∨ neTag ∈ states := by
  induction es generalizing states with
  | nil => simp
  | cons e es ih =>
    rw [List.foldl_cons, ih, Finset.mem_insert, eq_comm (a := neTag)]
    simp only [List.mem_cons, exists_eq_or_imp]
    exact or_left_comm.trans or_assoc.symm

theorem newline_not_mem_ngramLine {n : ℕ} (hn : n ∈ [1, 2, 3])
    {e : Sigma fun _ : List (List Char) => ℕ} (he : ∀ s ∈ e.1, Plain s) :
    '\n' ∉ ngramLine n e := by
  have hkind := (read_gram hn).1.not_mem (c := '\n') (by decide)
  have hcount := (plain_toDigits e.2).not_mem (c := '\n') (by decide)
  have hngram := newline_not_mem_showFields he
  have hsingle : showFields [showFields e.1] = showFields e.1 := List.intercalate_singleton
  unfold ngramLine
  rw [showFields_cons_cons, showFields_cons_cons, hsingle]
  simp only [List.mem_append, List.mem_cons, not_or]
  exact ⟨hcount, by decide, not_or.mp (List.mem_append.not.mp hkind), by decide, hngram⟩

/-- The file of a trigram counter, and what is read from it. -/
theorem readCounts_writeCounts (hfloat : ∀ n, float (Nat.toDigits 10 n) = .ok (ofNat n)) {h : Hmm ℕ}
    (hh : Writable h) {t₁ t₂ t₃ : Tally (List (List Char))} (ht : h.ngramCounts = [t₁, t₂, t₃]) :
    ∃ text, writeCounts h = .ok text ∧ readCounts float text = .ok
      { n := 3
        emissionCounts := insertAll ofNat h.emissionCounts.entries ∅
        ngramCounts := [t₁, t₂, t₃].map fun t => insertAll ofNat t.entries ∅
        allStates := h.emissionCounts.entries.foldl (fun states e => insert e.1.2 states) ∅ } := by
  have hngram := hh.ngram
  rw [ht] at hngram
  simp only [List.forall_mem_cons] at hngram
  obtain ⟨h₁, h₂, h₃, -⟩ := hngram
  refine ⟨unlines (h.emissionCounts.entries.map emissionLine ++
    (t₁.entries.map (ngramLine 1) ++ (t₂.entries.map (ngramLine 2) ++
      t₃.entries.map (ngramLine 3)))), ?_, ?_⟩
  · unfold writeCounts
    rw [ht]
    simp [pure, Except.pure, bind, Except.bind]
  · have hnewline : ∀ line ∈ h.emissionCounts.entries.map emissionLine ++
        (t₁.entries.map (ngramLine 1) ++ (t₂.entries.map (ngramLine 2) ++
          t₃.entries.map (ngramLine 3))), '\n' ∉ line := by
      simp only [List.forall_mem_append, List.forall_mem_map]
      refine ⟨fun e he => ?_, fun e he => newline_not_mem_ngramLine (by decide) (h₁ e he).2,
        fun e he => newline_not_mem_ngramLine (by decide) (h₂ e he).2,
        fun e he => newline_not_mem_ngramLine (by decide) (h₃ e he).2⟩
      exact newline_not_mem_showFields (plain_emissionFields (hh.emission e he))
    unfold readCounts
    rw [readlines_unlines hnewline]
    simp only [List.map_append, List.foldlM_append]
    rw [foldlM_emissionLine hfloat hh.emission]
    dsimp only [bind, Except.bind]
    rw [foldlM_ngramLine hfloat (by decide) h₁ rfl]
    dsimp only
    rw [foldlM_ngramLine hfloat (by decide) h₂ rfl]
    dsimp only
    rw [foldlM_ngramLine hfloat (by decide) h₃ rfl]
    rfl

/-! ### The counts of a corpus -/

section Corpus

variable {sents : List (List Token)} {k : ℕ}

structure Hmm.Reorders (h h' : Hmm ν) : Prop where
  emission : h.emissionCounts.entries.Perm h'.emissionCounts.entries
  length_eq : h.ngramCounts.length = h'.ngramCounts.length
  ngram : ∀ (k : ℕ) (t t' : AList fun _ : List (List Char) => ν), h.ngramCounts[k]? = some t →
    h'.ngramCounts[k]? = some t' → t.entries.Perm t'.entries

theorem Hmm.Reorders.refl (h : Hmm ν) : h.Reorders h where
  emission := List.Perm.refl _
  length_eq := rfl
  ngram := by
    intro k t t' ht ht'
    rw [Option.some.inj (ht.symm.trans ht')]

def Hmm.lookupNgram (h : Hmm ν) (k : ℕ) (ngram : List (List Char)) : Option ν :=
  h.ngramCounts[k]?.bind fun t => t.lookup ngram

/-- What a dictionary of counts has for a key that was counted `n` times. -/
def seen (ofNat : ℕ → ν) (n : ℕ) : Option ν := if n = 0 then none else some (ofNat n)

theorem lookup_eq_seen {κ : Type*} [DecidableEq κ] [BEq κ] [LawfulBEq κ] {t : Tally κ}
    (ht : t.Positive) {keys : List κ} (htotal : ∀ p, t.total p = keys.countP p) (k : κ) :
    t.lookup k = seen id (keys.count k) := by
  have hcount : keys.count k = keys.countP (· = k) := by
    apply List.countP_congr
    intro j _
    simp
  rw [ht.lookup_eq, Tally.count_eq_total, htotal, hcount]
  rfl

theorem map_seen (ofNat : ℕ → ν) (n : ℕ) : (seen id n).map ofNat = seen ofNat n := by
  unfold seen
  split_ifs <;> rfl

theorem mem_of_seen {κ : Type*} [BEq κ] [LawfulBEq κ] {keys : List κ} {k : κ} {n : ℕ}
    (h : seen id (keys.count k) = some n) : k ∈ keys := by
  by_contra hk
  rw [List.count_eq_zero_of_not_mem hk] at h
  cases h

/-- The trained counter has three dictionaries, and each has the counts of its n-grams. -/
theorem lookup_ngram_train (sents : List (List Token)) :
    ((Hmm.init ℕ 3).trainSentences sents).ngramCounts.length = 3 ∧
      ∀ k t, ((Hmm.init ℕ 3).trainSentences sents).ngramCounts[k]? = some t →
        ∀ ngram, t.lookup ngram = seen id ((Hmm.ngramsOf sents k).count ngram) := by
  have hcounted := Hmm.counted_train (by decide : 2 ≤ 3) sents
  have hlen : ((Hmm.init ℕ 3).trainSentences sents).ngramCounts.length = 3 := hcounted.length_eq
  have hpositive := hcounted.positive fun t ht => by
    rw [List.eq_of_mem_replicate ht]
    exact Tally.positive_empty
  refine ⟨hlen, ?_⟩
  intro k t hk ngram
  have hlt : k < 3 := by
    obtain ⟨hlt, -⟩ := List.getElem?_eq_some_iff.mp hk
    omega
  refine lookup_eq_seen (hpositive t (List.mem_of_getElem? hk)) (fun p => ?_) ngram
  have htotal : ((Hmm.init ℕ 3).trainSentences sents).ngramTotal k p = _ :=
    Hmm.ngramTotal_train_three hlt p
  unfold Hmm.ngramTotal at htotal
  rwa [List.getD_eq_getElem?_getD, hk] at htotal

theorem lookup_emission_train (sents : List (List Token)) (l : Token) :
    ((Hmm.init ℕ 3).trainSentences sents).emissionCounts.lookup l =
      seen id (sents.flatten.count l) := by
  have hemission := (Hmm.counted_train (by decide : 2 ≤ 3) sents).emission
  have hpositive : Tally.Positive ((Hmm.init ℕ 3).trainSentences sents).emissionCounts := by
    rw [hemission]
    exact Tally.Positive.foldl_bump Tally.positive_empty _
  exact lookup_eq_seen hpositive (fun p => Hmm.emission_total_train (by decide) p) l

theorem plain_of_mem_ngramsOf (hsents : ∀ sent ∈ sents, Printable sent) {ngram : List (List Char)}
    (h : ngram ∈ Hmm.ngramsOf sents k) : ngram ≠ [] ∧ ∀ s ∈ ngram, Plain s := by
  cases k with
  | zero =>
    obtain ⟨sent, hsent, h⟩ := List.mem_flatMap.mp h
    obtain ⟨l, hl, rfl⟩ := List.mem_map.mp h
    exact ⟨List.cons_ne_nil _ _, List.forall_mem_singleton.mpr ((hsents sent hsent).2 l hl).2⟩
  | succ k =>
    obtain ⟨sent, hsent, h⟩ := List.mem_flatMap.mp h
    have hlen := length_of_mem_windows h
    constructor
    · rintro rfl
      cases hlen
    · intro s hs
      obtain ⟨i, -, rfl⟩ := List.mem_map.mp h
      have hmem := List.mem_of_mem_drop (List.mem_of_mem_take hs)
      unfold Hmm.paddedTags wBoundary at hmem
      simp only [List.map_append, List.mem_append, List.map_map, List.map_replicate,
        List.mem_replicate, List.mem_map, List.map_singleton, List.mem_singleton] at hmem
      rcases hmem with (⟨-, rfl⟩ | ⟨l, hl, rfl⟩) | rfl
      · decide
      · exact ((hsents sent hsent).2 l hl).2
      · decide

/-- The counts of a printed corpus are written, in whatever order the dictionaries are walked
through, and read back as the numbers of its tokens and n-grams. -/
theorem readCounts_writeCounts_train (hfloat : ∀ n, float (Nat.toDigits 10 n) = .ok (ofNat n))
    (hsents : ∀ sent ∈ sents, Printable sent) {h : Hmm ℕ}
    (hh : h.Reorders ((Hmm.init ℕ 3).train (showCorpus sents))) :
    ∃ text h', writeCounts h = .ok text ∧ readCounts float text = .ok h' ∧
      (∀ l, h'.emissionCounts.lookup l = seen ofNat (sents.flatten.count l)) ∧
      (∀ k < 3, ∀ ngram, h'.lookupNgram k ngram =
        seen ofNat ((Hmm.ngramsOf sents k).count ngram)) ∧
      ∀ neTag, neTag ∈ h'.allStates ↔ ∃ l ∈ sents.flatten, l.2 = neTag := by
  unfold Hmm.train at hh
  rw [sentenceIterator_showCorpus hsents] at hh
  obtain ⟨hlen', hlookup'⟩ := lookup_ngram_train sents
  obtain ⟨t₁, t₂, t₃, hts⟩ := List.length_eq_three.mp (hh.length_eq.trans hlen')
  have htokens : ∀ l, h.emissionCounts.lookup l = seen id (sents.flatten.count l) := fun l =>
    (AList.perm_lookup hh.emission).trans (lookup_emission_train sents l)
  have hngrams : ∀ k t, h.ngramCounts[k]? = some t →
      ∀ ngram, t.lookup ngram = seen id ((Hmm.ngramsOf sents k).count ngram) := by
    intro k t hk ngram
    obtain ⟨hlt, -⟩ := List.getElem?_eq_some_iff.mp hk
    rw [hh.length_eq] at hlt
    have hk' := List.getElem?_eq_getElem hlt
    exact (AList.perm_lookup (hh.ngram k t _ hk hk')).trans (hlookup' k _ hk' ngram)
  have hmem : ∀ e ∈ h.emissionCounts.entries, e.1 ∈ sents.flatten := by
    intro e he
    have hlookup := AList.mem_lookup_iff.mpr he
    rw [htokens] at hlookup
    exact mem_of_seen hlookup
  have hwritable : Writable h := by
    constructor
    · intro e he
      obtain ⟨sent, hsent, hl⟩ := List.mem_flatten.mp (hmem e he)
      exact (hsents sent hsent).2 e.1 hl
    · intro t ht e he
      obtain ⟨k, hk⟩ := List.mem_iff_getElem?.mp ht
      have hlookup := AList.mem_lookup_iff.mpr he
      rw [hngrams k t hk] at hlookup
      exact plain_of_mem_ngramsOf hsents (mem_of_seen hlookup)
  obtain ⟨text, hwrite, hread⟩ := readCounts_writeCounts hfloat hwritable hts
  refine ⟨text, _, hwrite, hread, ?_, ?_, ?_⟩
  · intro l
    refine (lookup_insertAll_empty ofNat h.emissionCounts l).trans ?_
    rw [htokens, map_seen]
  · intro k hk ngram
    have hlt : k < h.ngramCounts.length := by rwa [hh.length_eq, hlen']
    have hget := List.getElem?_eq_getElem hlt
    unfold Hmm.lookupNgram
    dsimp only
    rw [← hts, List.getElem?_map, hget]
    refine (lookup_insertAll_empty ofNat h.ngramCounts[k] ngram).trans ?_
    rw [hngrams k _ hget, map_seen]
  · intro neTag
    refine (mem_foldl_insert _ _ _).trans ?_
    constructor
    · rintro (⟨e, he, rfl⟩ | hnone)
      · exact ⟨e.1, hmem e he, rfl⟩
      · exact absurd hnone (Finset.notMem_empty neTag)
    · rintro ⟨l, hl, rfl⟩
      have hlookup := htokens l
      rw [seen, if_neg (List.count_pos_iff.mpr hl).ne'] at hlookup
      exact Or.inl ⟨_, AList.mem_lookup_iff.mp hlookup, rfl⟩

theorem readCounts_writeCounts_train_two :
    ∃ text h', writeCounts ((Hmm.init ℕ 3).train "the O\nras I-GENE\n\n".toList) = .ok text ∧
      readCounts (fun s => .ok (Nat.ofDigitChars 10 s 0)) text = .ok h' ∧
      (∀ l, h'.emissionCounts.lookup l =
        seen id ([("the".toList, "O".toList), ("ras".toList, "I-GENE".toList)].count l)) ∧
      (∀ k < 3, ∀ ngram, h'.lookupNgram k ngram = seen id ((Hmm.ngramsOf
        [[("the".toList, "O".toList), ("ras".toList, "I-GENE".toList)]] k).count ngram)) ∧
      ∀ neTag, neTag ∈ h'.allStates ↔
        ∃ l ∈ [("the".toList, "O".toList), ("ras".toList, "I-GENE".toList)], l.2 = neTag := by
  have hfloat : ∀ n, (fun s => (Except.ok (Nat.ofDigitChars 10 s 0) : Except Raised ℕ))
      (Nat.toDigits 10 n) = .ok (id n) := fun _ => congrArg Except.ok Nat.ofDigitChars_ten_toDigits
  have hsents : ∀ sent ∈ [[("the".toList, "O".toList), ("ras".toList, "I-GENE".toList)]],
      Printable sent := by decide
  exact readCounts_writeCounts_train hfloat hsents (Hmm.Reorders.refl _)

end Corpus

end CppTricks.Tagger
