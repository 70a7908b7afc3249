import Mathlib.Data.Finset.Basic
import Mathlib.Data.List.InsertIdx
import Mathlib.Data.List.Nodup
import Mathlib.Logic.Relation

/-! Records: the words found so far, a space after each, and the tail that is still to be broken. -/
namespace CppTricks.WordBreak

abbrev Text := List Char

/-- `value.rfind(" ")`, where `none` is `string::npos`. -/
def rfind : Text → Option ℕ
  | [] => none
  | c :: cs =>
    match rfind cs with
    | some i => some (i + 1)
    | none => if c = ' ' then some 0 else none

def cut (value : Text) : Text × Text :=
  match rfind value with
  | none => ([], value)
  | some i => (value.take (i + 1), value.drop (i + 1))

/-- Push a new record for each word at the front of `tail`; `tmp` grows with `offset`. -/
def pushRecords {S : Type} (pushBack : S → Text → S) (dict : Finset Text) (first tail : Text)
    (store : S) : S :=
  ((List.range tail.length).foldl (fun (p : Text × S) offset =>
    let tmp := p.1 ++ tail[offset]?.toList
    if tmp ∈ dict then (tmp, pushBack p.2 (first ++ tail.insertIdx (offset + 1) ' '))
    else (tmp, p.2)) ([], store)).2

def recordAt (dict : Finset Text) (value : Text) (offset : ℕ) : Option Text :=
  let (first, tail) := cut value
  if offset < tail.length ∧ tail.take (offset + 1) ∈ dict then
    some (first ++ tail.insertIdx (offset + 1) ' ')
  else none

def newRecords (dict : Finset Text) (value : Text) : List Text :=
  (List.range (cut value).2.length).filterMap (recordAt dict value)

def isWhole (dict : Finset Text) (value : Text) : Bool := (cut value).2 ∈ dict

variable {dict : Finset Text} {s t value record : Text}

theorem pushRecords_eq {S : Type} (pushBack : S → Text → S) (store : S) :
    pushRecords pushBack dict (cut value).1 (cut value).2 store =
      (newRecords dict value).foldl pushBack store := by
  have hcut : ∀ n, n ≤ (cut value).2.length →
      (List.range n).foldl (fun (p : Text × S) offset =>
        let tmp := p.1 ++ (cut value).2[offset]?.toList
        if tmp ∈ dict then
          (tmp, pushBack p.2 ((cut value).1 ++ (cut value).2.insertIdx (offset + 1) ' '))
        else (tmp, p.2)) ([], store) =
      ((cut value).2.take n,
        ((List.range n).filterMap (recordAt dict value)).foldl pushBack store) := by
    intro n hn
    induction n with
    | zero => rfl
    | succ n ih =>
      rw [List.range_succ, List.foldl_append, List.filterMap_append, List.foldl_append,
        ih (Nat.le_of_succ_le hn), List.foldl_cons, List.foldl_nil, List.filterMap_cons,
        List.filterMap_nil]
      unfold recordAt
      dsimp only
      rw [← List.take_add_one]
      by_cases hmem : (cut value).2.take (n + 1) ∈ dict
      · rw [if_pos hmem, if_pos ⟨hn, hmem⟩]
        rfl
      · rw [if_neg hmem, if_neg fun hboth => hmem hboth.2]
        rfl
  unfold pushRecords newRecords
  rw [hcut _ (Nat.le_refl _)]

theorem rfind_eq_none (ht : ' ' ∉ t) : rfind t = none := by
  induction t with
  | nil => rfl
  | cons c t ih =>
    rw [List.mem_cons, not_or] at ht
    unfold rfind
    rw [ih ht.2]
    exact if_neg (Ne.symm ht.1)

theorem rfind_append (s : Text) (ht : ' ' ∉ t) : rfind (s ++ ' ' :: t) = some s.length := by
  induction s with
  | nil =>
    rw [List.nil_append]
    unfold rfind
    rw [rfind_eq_none ht]
    rfl
  | cons c s ih =>
    rw [List.cons_append]
    unfold rfind
    rw [ih]
    rfl

theorem cut_of_notMem (ht : ' ' ∉ t) : cut t = ([], t) := by
  unfold cut
  rw [rfind_eq_none ht]

theorem cut_append (s : Text) (ht : ' ' ∉ t) : cut (s ++ ' ' :: t) = (s ++ [' '], t) := by
  have hsplit : s ++ ' ' :: t = s ++ [' '] ++ t := by rw [List.append_assoc]; rfl
  have hlen : s.length + 1 = (s ++ [' ']).length := by
    rw [List.length_append, List.length_singleton]
  unfold cut
  rw [rfind_append s ht]
  dsimp only
  rw [hsplit, hlen, List.take_left, List.drop_left]

private theorem exists_last_space (h : ' ' ∈ value) :
    ∃ s t, value = s ++ ' ' :: t ∧ ' ' ∉ t := by
  induction value with
  | nil => cases h
  | cons c value ih =>
    by_cases hlater : ' ' ∈ value
    · obtain ⟨s, t, rfl, ht⟩ := ih hlater
      exact ⟨c :: s, t, rfl, ht⟩
    · obtain rfl : ' ' = c := (List.mem_cons.mp h).resolve_right hlater
      exact ⟨[], value, rfl, hlater⟩

/-- The two parts make up the record; the second has no space, and the first ends in one. -/
theorem cut_spec (value : Text) : (cut value).1 ++ (cut value).2 = value ∧ ' ' ∉ (cut value).2 ∧
    ((cut value).1 = [] ∨ ∃ s, (cut value).1 = s ++ [' ']) := by
  by_cases hspace : ' ' ∈ value
  · obtain ⟨s, t, rfl, ht⟩ := exists_last_space hspace
    rw [cut_append s ht]
    refine ⟨?_, ht, .inr ⟨s, rfl⟩⟩
    rw [List.append_assoc]
    rfl
  · rw [cut_of_notMem hspace]
    exact ⟨rfl, hspace, .inl rfl⟩

private theorem insertIdx_length_append (w rest : Text) :
    (w ++ rest).insertIdx w.length ' ' = w ++ ' ' :: rest := by
  induction w with
  | nil => rfl
  | cons c w ih =>
    rw [List.length_cons, List.cons_append, List.insertIdx_succ_cons, ih]
    rfl

theorem recordAt_eq_some {offset : ℕ} : recordAt dict value offset = some record ↔
    offset < (cut value).2.length ∧ (cut value).2.take (offset + 1) ∈ dict ∧
      record = (cut value).1 ++ (cut value).2.take (offset + 1) ++
        ' ' :: (cut value).2.drop (offset + 1) := by
  have hinsert : offset < (cut value).2.length → (cut value).2.insertIdx (offset + 1) ' ' =
      (cut value).2.take (offset + 1) ++ ' ' :: (cut value).2.drop (offset + 1) := by
    intro hoffset
    have hlen : ((cut value).2.take (offset + 1)).length = offset + 1 :=
      List.length_take_of_le hoffset
    have h := insertIdx_length_append ((cut value).2.take (offset + 1))
      ((cut value).2.drop (offset + 1))
    rwa [List.take_append_drop, hlen] at h
  unfold recordAt
  dsimp only
  rw [Option.ite_none_right_eq_some, Option.some_inj, and_assoc, List.append_assoc]
  apply and_congr_right
  intro hoffset
  rw [hinsert hoffset, eq_comm (a := record)]

theorem mem_newRecords : record ∈ newRecords dict value ↔
    ∃ w ∈ dict, w ≠ [] ∧ ∃ rest, (cut value).2 = w ++ rest ∧
      record = (cut value).1 ++ w ++ ' ' :: rest := by
  unfold newRecords
  rw [List.mem_filterMap]
  constructor
  · intro h
    obtain ⟨offset, -, hrecord⟩ := h
    obtain ⟨hoffset, hmem, rfl⟩ := recordAt_eq_some.mp hrecord
    refine ⟨_, hmem, ?_, (cut value).2.drop (offset + 1), (List.take_append_drop _ _).symm, rfl⟩
    intro hnil
    have hlen : ((cut value).2.take (offset + 1)).length = offset + 1 :=
      List.length_take_of_le hoffset
    rw [hnil, List.length_nil] at hlen
    omega
  · intro h
    obtain ⟨w, hw, hne, rest, htail, rfl⟩ := h
    have hpos := List.length_pos_of_ne_nil hne
    have hsucc : w.length - 1 + 1 = w.length := by omega
    have htake : (w ++ rest).take w.length = w := List.take_left
    have hdrop : (w ++ rest).drop w.length = rest := List.drop_left
    have hoffset : w.length - 1 < (w ++ rest).length := by
      rw [List.length_append]
      omega
    refine ⟨w.length - 1, ?_, recordAt_eq_some.mpr ?_⟩
    · rwa [List.mem_range, htail]
    · rw [htail, hsucc, htake, hdrop]
      exact ⟨hoffset, hw, rfl⟩

section NewRecord

variable (h : record ∈ newRecords dict value)

include h

theorem cut_newRecord : ∃ w rest, w ≠ [] ∧ (cut value).2 = w ++ rest ∧
    cut record = ((cut value).1 ++ w ++ [' '], rest) := by
  obtain ⟨w, -, hne, rest, htail, rfl⟩ := mem_newRecords.mp h
  have hspace := (cut_spec value).2.1
  rw [htail, List.mem_append, not_or] at hspace
  exact ⟨w, rest, hne, htail, cut_append _ hspace.2⟩

theorem length_tail_newRecord : (cut record).2.length < (cut value).2.length := by
  obtain ⟨w, rest, hne, htail, hcut⟩ := cut_newRecord h
  have hpos := List.length_pos_of_ne_nil hne
  rw [hcut, htail, List.length_append]
  exact Nat.lt_add_of_pos_left hpos

/-- The record before a word was taken off is the new one without its last space. -/
theorem value_of_newRecord : value = (cut record).1.dropLast ++ (cut record).2 := by
  obtain ⟨w, rest, -, htail, hcut⟩ := cut_newRecord h
  rw [hcut, List.dropLast_concat, List.append_assoc, ← htail, (cut_spec value).1]

theorem count_newRecord : record.count ' ' = value.count ' ' + 1 := by
  obtain ⟨w, rest, -, htail, hcut⟩ := cut_newRecord h
  have hrecord := (cut_spec record).1
  have hvalue := (cut_spec value).1
  rw [← hrecord, ← hvalue, hcut, htail]
  simp only [List.count_append, List.count_singleton_self]
  omega

end NewRecord

/-- The offset can be read off the length of the tail. -/
private theorem length_tail_recordAt {offset : ℕ} (h : recordAt dict value offset = some record) :
    (cut record).2.length + (offset + 1) = (cut value).2.length := by
  obtain ⟨hoffset, -, rfl⟩ := recordAt_eq_some.mp h
  have hspace : ' ' ∉ (cut value).2.drop (offset + 1) :=
    fun hmem => (cut_spec value).2.1 (List.mem_of_mem_drop hmem)
  rw [cut_append _ hspace, List.length_drop]
  omega

theorem nodup_newRecords (dict : Finset Text) (value : Text) : (newRecords dict value).Nodup := by
  apply List.Nodup.filterMap _ List.nodup_range
  intro offset offset' record h h'
  have hlen := length_tail_recordAt h
  have hlen' := length_tail_recordAt h'
  omega

/-! ### Records as lists of words -/

def join (ws : List Text) (tail : Text) : Text := ws.flatMap (fun w => w ++ [' ']) ++ tail

theorem join_concat (ws : List Text) (w tail : Text) :
    join (ws ++ [w]) tail = ws.flatMap (fun w => w ++ [' ']) ++ w ++ ' ' :: tail := by
  unfold join
  rw [List.flatMap_append, List.flatMap_singleton]
  simp

theorem cut_join (ws : List Text) (ht : ' ' ∉ t) :
    cut (join ws t) = (ws.flatMap (fun w => w ++ [' ']), t) := by
  cases List.eq_nil_or_concat' ws with
  | inl hnil =>
    rw [hnil]
    exact cut_of_notMem ht
  | inr hconcat =>
    obtain ⟨ws, w, rfl⟩ := hconcat
    rw [join_concat, cut_append _ ht, List.flatMap_append, List.flatMap_singleton,
      List.append_assoc]

theorem join_eq_intercalate (ws : List Text) (tail : Text) :
    join ws tail = [' '].intercalate (ws ++ [tail]) := by
  induction ws with
  | nil =>
    rw [List.nil_append, List.intercalate_singleton]
    rfl
  | cons w ws ih =>
    have hne : ws ++ [tail] ≠ [] := List.append_ne_nil_of_right_ne_nil ws (List.cons_ne_nil _ _)
    rw [List.cons_append, List.intercalate_cons_of_ne_nil hne, ← ih]
    unfold join
    rw [List.flatMap_cons, List.append_assoc]

theorem splitOn_join {ws : List Text} (hws : ∀ w ∈ ws, ' ' ∉ w) (ht : ' ' ∉ t) :
    (join ws t).splitOn ' ' = ws ++ [t] := by
  have hne : ws ++ [t] ≠ [] := List.append_ne_nil_of_right_ne_nil ws (List.cons_ne_nil _ _)
  rw [join_eq_intercalate]
  apply List.splitOn_intercalate _ _ hne
  intro w hw
  cases List.mem_append.mp hw with
  | inl hmem => exact hws w hmem
  | inr hlast => exact List.mem_singleton.mp hlast ▸ ht

theorem mem_newRecords_join {ws : List Text} (ht : ' ' ∉ t) :
    record ∈ newRecords dict (join ws t) ↔
      ∃ w ∈ dict, w ≠ [] ∧ ∃ rest, t = w ++ rest ∧ record = join (ws ++ [w]) rest := by
  rw [mem_newRecords, cut_join ws ht]
  simp only [join_concat]

/-- The records that come of `s` are its divisions into words, all but the last in the
dictionary. -/
theorem reachable_iff (hdict : ∀ w ∈ dict, w ≠ []) (hs : ' ' ∉ s) :
    Relation.ReflTransGen (fun value record => record ∈ newRecords dict value) s record ↔
      ∃ ws t, (∀ w ∈ ws, w ∈ dict) ∧ ws.flatten ++ t = s ∧ record = join ws t := by
  constructor
  · intro h
    induction h with
    | refl => exact ⟨[], s, nofun, rfl, rfl⟩
    | tail _ hstep ih =>
      obtain ⟨ws, t, hws, rfl, rfl⟩ := ih
      rw [List.mem_append, not_or] at hs
      obtain ⟨w, hw, -, rest, rfl, rfl⟩ := (mem_newRecords_join hs.2).mp hstep
      refine ⟨ws ++ [w], rest, ?_, ?_, rfl⟩
      · intro v hv
        cases List.mem_append.mp hv with
        | inl hmem => exact hws v hmem
        | inr hlast => exact List.mem_singleton.mp hlast ▸ hw
      · rw [List.flatten_append, List.flatten_singleton, List.append_assoc]
  · intro h
    obtain ⟨ws, t, hws, hflat, rfl⟩ := h
    induction ws using List.reverseRecOn generalizing t with
    | nil =>
      obtain rfl : t = s := hflat
      exact .refl
    | append_singleton ws w ih =>
      have hw : w ∈ dict := hws w (List.mem_append_right ws (List.mem_singleton.mpr rfl))
      rw [List.flatten_append, List.flatten_singleton, List.append_assoc] at hflat
      have hspace : ' ' ∉ w ++ t := by
        rw [← hflat, List.mem_append, not_or] at hs
        exact hs.2
      apply (ih (w ++ t) (fun v hv => hws v (List.mem_append_left [w] hv)) hflat).tail
      exact (mem_newRecords_join hspace).mpr ⟨w, hw, hdict w hw, t, rfl, rfl⟩

end CppTricks.WordBreak
