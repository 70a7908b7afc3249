import CppTricks.Foundation.NodeList
import CppTricks.Foundation.Worklist
import CppTricks.WordBreak.Records

/-! The loops of `WordBreak2`, over a vector, and of `WordBreak2List`, over a list. -/
namespace CppTricks.WordBreak
open Foundation

/-- The loop over `idx`; `none` is that it takes more than `fuel` rounds. -/
def vectorLoop (dict : Finset Text) : ℕ → List Text → ℕ → Option (List Text)
  | 0, _, _ => none
  | fuel + 1, store, idx =>
    match store[idx]? with
    | none => some store
    | some value =>
      let (first, tail) := cut value
      let store := pushRecords (fun store record => store ++ [record]) dict first tail store
      if tail ∈ dict then vectorLoop dict fuel store (idx + 1)
      else vectorLoop dict fuel (store.eraseIdx idx) idx

/-- `r` at the end of a round of `WordBreak2`. -/
def wordBreak2 (dict : Finset Text) (s : Text) (fuel : ℕ) : Option (List Text) :=
  vectorLoop dict fuel [s] 0

/-- The loop over `elem`, which is `none` at `store.end()`. -/
def listLoop (dict : Finset Text) : ℕ → NodeList Text → Option ℕ → Option (NodeList Text)
  | 0, _, _ => none
  | _ + 1, store, none => some store
  | fuel + 1, store, some elem => do
    let value ← store.get? elem
    let (first, tail) := cut value
    let store := pushRecords (fun store record => (store.insertEnd record).2) dict first tail store
    if tail ∈ dict then listLoop dict fuel store (store.next? elem)
    else
      let after := store.next? elem
      let store ← store.erase? elem
      listLoop dict fuel store after

/-- `r` at the end of a round of `WordBreak2List`. -/
def wordBreak2List (dict : Finset Text) (s : Text) (fuel : ℕ) : Option (List Text) :=
  let store := (NodeList.empty.insertEnd s).2
  (listLoop dict fuel store store.begin?).map NodeList.toList

variable {dict : Finset Text} {s : Text}

private theorem foldl_push (records store : List Text) :
    records.foldl (fun store record => store ++ [record]) store = store ++ records := by
  induction records generalizing store with
  | nil => exact (List.append_nil store).symm
  | cons record records ih => rw [List.foldl_cons, ih, ← List.append_cons]

private theorem nodes_foldl_insertEnd (records : List Text) (store : NodeList Text) :
    ∃ new, (records.foldl (fun store record => (store.insertEnd record).2) store).nodes =
      store.nodes ++ new ∧ new.map Prod.snd = records := by
  induction records generalizing store with
  | nil => exact ⟨[], (List.append_nil _).symm, rfl⟩
  | cons record records ih =>
    obtain ⟨new, hnodes, hnew⟩ := ih (store.insertEnd record).2
    refine ⟨(store.fresh, record) :: new, ?_, ?_⟩
    · rw [List.foldl_cons, hnodes, List.append_cons]
      rfl
    · rw [List.map_cons, hnew]

theorem vectorLoop_eq_drain (fuel : ℕ) (kept todo : List Text) :
    vectorLoop dict fuel (kept ++ todo) kept.length =
      drain (newRecords dict) (isWhole dict) fuel kept todo := by
  induction fuel generalizing kept todo with
  | zero => rfl
  | succ fuel ih =>
    unfold vectorLoop
    cases todo with
    | nil =>
      have hend : (kept ++ [])[kept.length]? = none := by simp
      rw [hend, List.append_nil]
      rfl
    | cons value rest =>
      have hvalue : (kept ++ value :: rest)[kept.length]? = some value := by simp
      rw [hvalue, drain_cons]
      dsimp only
      rw [pushRecords_eq, foldl_push, List.append_assoc, List.cons_append]
      by_cases htail : (cut value).2 ∈ dict
      · have hwhole : isWhole dict value = true := decide_eq_true htail
        have hlen : kept.length + 1 = (kept ++ [value]).length := by
          rw [List.length_append, List.length_singleton]
        rw [if_pos htail, List.filter_cons_of_pos hwhole, List.filter_nil, List.append_cons, hlen]
        exact ih (kept ++ [value]) (rest ++ newRecords dict value)
      · have hwhole : ¬ isWhole dict value = true := fun h => htail (of_decide_eq_true h)
        have herase : (kept ++ value :: (rest ++ newRecords dict value)).eraseIdx kept.length =
            kept ++ (rest ++ newRecords dict value) := by
          simp [List.eraseIdx_append_of_length_le]
        rw [if_neg htail, List.filter_cons_of_neg hwhole, List.filter_nil, List.append_nil, herase]
        exact ih kept (rest ++ newRecords dict value)

theorem listLoop_eq_drain (fuel : ℕ) (store : NodeList Text) (pre post : List (ℕ × Text))
    (hnodes : store.nodes = pre ++ post) :
    (listLoop dict fuel store (post.head?.map Prod.fst)).map NodeList.toList =
      drain (newRecords dict) (isWhole dict) fuel (pre.map Prod.snd) (post.map Prod.snd) := by
  induction fuel generalizing store pre post with
  | zero => rfl
  | succ fuel ih =>
    unfold listLoop
    cases post with
    | nil =>
      have hlist : store.toList = pre.map Prod.snd := by
        unfold NodeList.toList
        rw [hnodes, List.append_nil]
      exact congrArg some hlist
    | cons node rest =>
      obtain ⟨elem, value⟩ := node
      obtain ⟨new, hpushed, hnew⟩ := nodes_foldl_insertEnd (newRecords dict value) store
      rw [hnodes, List.append_assoc, List.cons_append] at hpushed
      rw [List.head?_cons, Option.map_some, List.map_cons, drain_cons]
      dsimp only
      have htodo : rest.map Prod.snd ++ newRecords dict value = (rest ++ new).map Prod.snd := by
        rw [List.map_append, hnew]
      rw [NodeList.get?_of_split hnodes, Option.bind_eq_bind, Option.bind_some, pushRecords_eq,
        NodeList.next?_of_split hpushed, htodo]
      by_cases htail : (cut value).2 ∈ dict
      · have hwhole : isWhole dict value = true := decide_eq_true htail
        rw [if_pos htail, List.filter_cons_of_pos hwhole, List.filter_nil]
        rw [List.append_cons] at hpushed
        have hstep := ih _ (pre ++ [(elem, value)]) (rest ++ new) hpushed
        rwa [List.map_append] at hstep
      · have hwhole : ¬ isWhole dict value = true := fun h => htail (of_decide_eq_true h)
        obtain ⟨store', herase, herased⟩ := NodeList.erase?_of_split hpushed
        rw [if_neg htail, List.filter_cons_of_neg hwhole, List.filter_nil, List.append_nil, herase]
        exact ih store' pre (rest ++ new) herased

/-- The records that come of `s`, in the order of their numbers of words, with a whole tail. -/
def wholeRecords (dict : Finset Text) (s : Text) : List Text :=
  (generations (newRecords dict) ((cut s).2.length + 1) [s]).filter (isWhole dict)

private theorem rank_lt (s : Text) : ∀ x ∈ [s], (cut x).2.length < (cut s).2.length + 1 := by
  intro x hx
  rw [List.mem_singleton.mp hx]
  exact Nat.lt_succ_self _

theorem exists_wordBreak2 (dict : Finset Text) (s : Text) :
    ∃ n, ∀ fuel, n ≤ fuel → wordBreak2 dict s fuel = some (wholeRecords dict s) ∧
      wordBreak2List dict s fuel = some (wholeRecords dict s) := by
  obtain ⟨n, hn⟩ := @exists_drain Text (newRecords dict) (isWhole dict)
    (fun value => (cut value).2.length) (fun _ _ => length_tail_newRecord)
    ((cut s).2.length + 1) [] [s] (rank_lt s)
  refine ⟨n, ?_⟩
  intro fuel hfuel
  have hvector : wordBreak2 dict s fuel = _ := vectorLoop_eq_drain fuel [] [s]
  have hlist : wordBreak2List dict s fuel = _ :=
    listLoop_eq_drain fuel (NodeList.empty.insertEnd s).2 [] [(0, s)] rfl
  rw [hlist, hvector]
  exact ⟨hn fuel hfuel, hn fuel hfuel⟩

/-- No record comes up twice: it has one space more than the only record it comes of. -/
theorem nodup_wholeRecords (dict : Finset Text) (s : Text) : (wholeRecords dict s).Nodup := by
  have hunique : ∀ x x' y, y ∈ newRecords dict x → y ∈ newRecords dict x' → x = x' := by
    intro x x' y hx hx'
    rw [value_of_newRecord hx, ← value_of_newRecord hx']
  have hcount : ∀ x ∈ [s], x.count ' ' = s.count ' ' := by
    intro x hx
    rw [List.mem_singleton.mp hx]
  have hnodup := @nodup_generations Text (newRecords dict) (List.count ' ')
    (fun _ _ => count_newRecord) hunique (nodup_newRecords dict) _ ((cut s).2.length + 1) [s]
    hcount (List.nodup_singleton s)
  exact hnodup.filter _

theorem mem_wholeRecords (hdict : ∀ w ∈ dict, w ≠ []) (hspace : ' ' ∉ s) (record : Text) :
    record ∈ wholeRecords dict s ↔
      ∃ ws t, (∀ w ∈ ws, w ∈ dict) ∧ t ∈ dict ∧ ws.flatten ++ t = s ∧ record = join ws t := by
  have htail : ∀ ws t, ws.flatten ++ t = s → (cut (join ws t)).2 = t := by
    intro ws t hflat
    rw [← hflat, List.mem_append, not_or] at hspace
    rw [cut_join ws hspace.2]
  have hcome := @mem_generations Text (newRecords dict) (fun value => (cut value).2.length)
    (fun _ _ => length_tail_newRecord) _ [s] (rank_lt s) record
  unfold wholeRecords
  rw [List.mem_filter, hcome]
  simp only [List.mem_singleton, exists_eq_left, reachable_iff hdict hspace]
  constructor
  · intro h
    obtain ⟨⟨ws, t, hws, hflat, rfl⟩, hwhole⟩ := h
    have hmem : (cut (join ws t)).2 ∈ dict := of_decide_eq_true hwhole
    rw [htail ws t hflat] at hmem
    exact ⟨ws, t, hws, hmem, hflat, rfl⟩
  · intro h
    obtain ⟨ws, t, hws, ht, hflat, rfl⟩ := h
    refine ⟨⟨ws, t, hws, hflat, rfl⟩, decide_eq_true ?_⟩
    rwa [htail ws t hflat]

/-- Read as lists of words, the records are the ways to write `s` with words of the dictionary. -/
theorem mem_map_splitOn_wholeRecords (hdict : ∀ w ∈ dict, w ≠ [] ∧ ' ' ∉ w) (hs : s ≠ [])
    (hspace : ' ' ∉ s) (words : List Text) :
    words ∈ (wholeRecords dict s).map (List.splitOn ' ') ↔
      (∀ w ∈ words, w ∈ dict) ∧ words.flatten = s := by
  have hmem := mem_wholeRecords (fun w hw => (hdict w hw).1) hspace
  rw [List.mem_map]
  constructor
  · intro h
    obtain ⟨record, hrecord, rfl⟩ := h
    obtain ⟨ws, t, hws, ht, hflat, rfl⟩ := (hmem record).mp hrecord
    rw [splitOn_join (fun w hw => (hdict w (hws w hw)).2) (hdict t ht).2, List.flatten_append,
      List.flatten_singleton]
    refine ⟨?_, hflat⟩
    intro w hw
    cases List.mem_append.mp hw with
    | inl hfront => exact hws w hfront
    | inr hlast => exact List.mem_singleton.mp hlast ▸ ht
  · intro h
    obtain ⟨hwords, hflat⟩ := h
    cases List.eq_nil_or_concat' words with
    | inl hnil =>
      rw [hnil] at hflat
      exact absurd hflat.symm hs
    | inr hconcat =>
      obtain ⟨ws, t, rfl⟩ := hconcat
      have hws : ∀ w ∈ ws, w ∈ dict := fun w hw => hwords w (List.mem_append_left [t] hw)
      have ht : t ∈ dict := hwords t (List.mem_append_right ws (List.mem_singleton.mpr rfl))
      rw [List.flatten_append, List.flatten_singleton] at hflat
      refine ⟨join ws t, (hmem _).mpr ⟨ws, t, hws, ht, hflat, rfl⟩, ?_⟩
      exact splitOn_join (fun w hw => (hdict w (hws w hw)).2) (hdict t ht).2

/-- The loops over the vector and the list end with the same records, which are the ways to write
`s` with words of the dictionary. -/
theorem wordBreak2_segmentations (hdict : ∀ w ∈ dict, w ≠ [] ∧ ' ' ∉ w) (hs : s ≠ [])
    (hspace : ' ' ∉ s) :
    ∃ r n, (∀ fuel, n ≤ fuel →
        wordBreak2 dict s fuel = some r ∧ wordBreak2List dict s fuel = some r) ∧
      r.Nodup ∧ ∀ words, words ∈ r.map (List.splitOn ' ') ↔
        (∀ w ∈ words, w ∈ dict) ∧ words.flatten = s := by
  obtain ⟨n, hn⟩ := exists_wordBreak2 dict s
  exact ⟨wholeRecords dict s, n, hn, nodup_wholeRecords dict s,
    mem_map_splitOn_wholeRecords hdict hs hspace⟩

theorem wordBreak2_segmentations_aa :
    ∃ r n, (∀ fuel, n ≤ fuel →
        wordBreak2 {['a'], ['a', 'a']} ['a', 'a'] fuel = some r ∧
        wordBreak2List {['a'], ['a', 'a']} ['a', 'a'] fuel = some r) ∧
      r.Nodup ∧ ∀ words, words ∈ r.map (List.splitOn ' ') ↔
        (∀ w ∈ words, w ∈ ({['a'], ['a', 'a']} : Finset Text)) ∧ words.flatten = ['a', 'a'] :=
  wordBreak2_segmentations (by decide) (by decide) (by decide)

example : wordBreak2 {['a'], ['a', 'a']} ['a', 'a'] 5 = some [['a', 'a'], ['a', ' ', 'a']] := by
  decide

end CppTricks.WordBreak
