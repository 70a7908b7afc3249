import CppTricks.Foundation.Arrays
import CppTricks.Foundation.CString
import CppTricks.Foundation.FirstOccurrences
import CppTricks.Foundation.FixedWidth
import CppTricks.Foundation.Loops
import Mathlib.Data.List.Nodup

/-! Removing duplicates in place: `unique_n2` in a buffer of characters, `List2_1` in a list. -/
namespace CppTricks.Crack
open Foundation

/-- The inner loop: the value that `finded` has afterwards. `none` is an access outside `str`. -/
def findElem (str : List Char) (elem : Char) (endIdx finded : ℕ) : Option ℕ := do
  if finded < endIdx then
    let c ← str[finded]?
    if c = elem then return finded
    findElem str elem endIdx (finded + 1)
  else return finded
termination_by endIdx - finded

/-- The body of the outer loop, with the step of `current`. `none` is an access outside `str`, or an
`int` out of range. -/
def uniqueStep (st : List Char × ℕ) (current : ℕ) : Option (List Char × ℕ) := do
  let (str, endIdx) := st
  let elem ← str[current]?
  let finded ← findElem str elem endIdx 0
  let st ← if finded = endIdx then do
      let str ← assign str endIdx elem
      let endIdx ← nat? (endIdx + 1)
      some (str, endIdx)
    else some (str, endIdx)
  let _ ← nat? (current + 1)
  return st

def uniqueN2 (str : List Char) (size : ℕ) : Option (List Char) := do
  let (str, endIdx) ← (List.range' 1 (size - 1)).foldlM uniqueStep (str, 1)
  assign str endIdx nul

/-- `unique_n2(str, strlen(str))`, where the length is converted to `unsigned`. -/
def uniqueString (str : List Char) : Option (List Char) :=
  uniqueN2 str (strlen nul str % 4294967296)

variable {α : Type} [DecidableEq α]

/-- The loop of `List2_1`: `find` in front of `forward`, and `erase` where it finds something. -/
def eraseLoop (l : List α) (forward : ℕ) : List α :=
  if h : forward < l.length then
    let finded := (l.take forward).idxOf l[forward]
    if finded = forward then eraseLoop l (forward + 1)
    else eraseLoop (l.eraseIdx forward) forward
  else l
termination_by l.length - forward
decreasing_by
  · omega
  · rw [List.length_eraseIdx_of_lt h]
    omega

def list21 (l : List α) : List α := eraseLoop l 0

/-! ### The list -/

theorem eraseLoop_append (u v : List α) (hu : u.Nodup) :
    eraseLoop (u ++ v) u.length = (u ++ v).eraseDups := by
  induction v generalizing u with
  | nil =>
    unfold eraseLoop
    rw [List.append_nil, dif_neg (Nat.lt_irrefl _), eraseDups_of_nodup hu]
  | cons x v ih =>
    have hlt : u.length < (u ++ x :: v).length := by
      rw [List.length_append, List.length_cons]
      omega
    have hget : (u ++ x :: v)[u.length] = x := by simp
    unfold eraseLoop
    rw [dif_pos hlt]
    dsimp only
    rw [hget, List.take_left]
    by_cases hx : x ∈ u
    · rw [if_neg (List.idxOf_lt_length_of_mem hx).ne, List.eraseIdx_append_of_length_le le_rfl,
        Nat.sub_self, List.eraseIdx_cons_zero, ih u hu, eraseDups_append_cons_of_mem hx]
    · have hnodup : (u ++ [x]).Nodup := by
        rw [List.nodup_append]
        refine ⟨hu, List.nodup_singleton x, ?_⟩
        rintro y hy _ (_ | ⟨_, ⟨⟩⟩) rfl
        exact hx hy
      have hih := ih (u ++ [x]) hnodup
      rw [List.length_append, List.length_singleton, List.append_assoc, List.singleton_append]
        at hih
      rw [if_pos (List.idxOf_eq_length hx), hih]

theorem list21_eq (l : List α) : list21 l = l.eraseDups := eraseLoop_append [] l List.nodup_nil

/-! ### The buffer -/

variable {text : List Char} {elem : Char} {size n : ℕ}

/-- The search goes through the characters in front of `endIdx`, of which `u` are passed. -/
theorem findElem_append (u v rest : List Char) (hu : elem ∉ u) :
    findElem (u ++ v ++ rest) elem (u ++ v).length u.length = some ((u ++ v).idxOf elem) := by
  induction v generalizing u with
  | nil =>
    unfold findElem
    rw [List.append_nil, if_neg (Nat.lt_irrefl _), List.idxOf_eq_length hu]
    rfl
  | cons c v ih =>
    have hlt : u.length < (u ++ c :: v).length := by
      rw [List.length_append, List.length_cons]
      omega
    have hget : (u ++ c :: v ++ rest)[u.length]? = some c := by simp
    unfold findElem
    rw [if_pos hlt, hget, Option.bind_eq_bind, Option.bind_some]
    by_cases hc : c = elem
    · rw [if_pos hc, List.idxOf_append_of_notMem hu, hc, List.idxOf_cons_self, Nat.add_zero]
      rfl
    · have hnot : elem ∉ u ++ [c] := by
        rw [List.mem_append, List.mem_singleton, not_or]
        exact ⟨hu, Ne.symm hc⟩
      have hih := ih (u ++ [c]) hnot
      have hlen : (u ++ [c]).length = u.length + 1 := by
        rw [List.length_append, List.length_singleton]
      rw [hlen, List.append_assoc u [c] v, List.singleton_append] at hih
      rw [if_neg hc, hih]

/-- A round up to the search: `front` is in front of `endIdx`, and `elem` is up. -/
theorem uniqueStep_eq (front junk rest : List Char) (elem : Char)
    (hn : front.length + junk.length = n) (hmax : n + 1 ≤ intMax) :
    uniqueStep (front ++ junk ++ elem :: rest, front.length) n =
      if front.idxOf elem = front.length then do
        let str ← assign (front ++ junk ++ elem :: rest) front.length elem
        let endIdx ← nat? (front.length + 1)
        some (str, endIdx)
      else some (front ++ junk ++ elem :: rest, front.length) := by
  have hget : (front ++ junk ++ elem :: rest)[n]? = some elem := by
    rw [← hn, ← List.length_append, List.getElem?_append_right (Nat.le_refl _), Nat.sub_self]
    rfl
  have hfind : findElem (front ++ junk ++ elem :: rest) elem front.length 0 =
      some (front.idxOf elem) := by
    rw [List.append_assoc]
    exact findElem_append [] front _ List.not_mem_nil
  unfold uniqueStep
  dsimp only
  rw [hget, Option.bind_eq_bind, Option.bind_some, hfind, Option.bind_eq_bind, Option.bind_some,
    nat?_eq_some hmax]
  rfl

/-- A character that has been seen stays where it is, and is no longer needed. -/
theorem uniqueStep_of_mem (junk rest : List Char) {front : List Char} (helem : elem ∈ front)
    (hn : front.length + junk.length = n) (hmax : n + 1 ≤ intMax) :
    uniqueStep (front ++ junk ++ elem :: rest, front.length) n =
      some (front ++ (junk ++ [elem]) ++ rest, front.length) := by
  rw [uniqueStep_eq front junk rest elem hn hmax, if_neg (List.idxOf_lt_length_of_mem helem).ne,
    List.append_assoc, List.append_assoc, List.append_assoc, List.singleton_append]

theorem uniqueStep_of_not_mem (junk rest : List Char) {front : List Char} (helem : elem ∉ front)
    (hn : front.length + junk.length = n) (hmax : n + 1 ≤ intMax) :
    ∃ junk', junk'.length = junk.length ∧
      uniqueStep (front ++ junk ++ elem :: rest, front.length) n =
        some (front ++ [elem] ++ junk' ++ rest, (front ++ [elem]).length) := by
  obtain ⟨c, junk', hjunk⟩ := List.exists_cons_of_ne_nil
    (List.append_ne_nil_of_right_ne_nil junk (List.cons_ne_nil elem []))
  have hlen := congrArg List.length hjunk
  rw [List.length_append, List.length_singleton, List.length_cons] at hlen
  have hsplit : front ++ junk ++ elem :: rest = front ++ c :: (junk' ++ rest) := by
    rw [← List.cons_append, ← hjunk]
    simp only [List.append_assoc, List.cons_append, List.nil_append]
  refine ⟨junk', by omega, ?_⟩
  rw [uniqueStep_eq front junk rest elem hn hmax, if_pos (List.idxOf_eq_length helem), hsplit,
    assign_append, nat?_eq_some (by omega), List.length_append, List.length_singleton,
    List.append_assoc, List.append_assoc]
  rfl

/-- After `n` characters of `text`: in front of `endIdx` the first occurrences among them, then what
is no longer needed, then the rest as it was. -/
def Scanned (text : List Char) (n : ℕ) (st : List Char × ℕ) : Prop :=
  ∃ junk, st.1 = (text.take n).eraseDups ++ junk ++ (text.drop n ++ [nul]) ∧
    st.2 = (text.take n).eraseDups.length ∧ st.2 + junk.length = n

theorem uniqueStep_scanned {st : List Char × ℕ} (h : Scanned text n st) (hn : n < text.length)
    (hmax : n + 1 ≤ intMax) :
    ∃ st', uniqueStep st n = some st' ∧ Scanned text (n + 1) st' := by
  obtain ⟨str, endIdx⟩ := st
  obtain ⟨junk, rfl, rfl, hlen⟩ := h
  have hrest : text.drop n = text[n] :: text.drop (n + 1) := List.drop_eq_getElem_cons hn
  have htake : text.take (n + 1) = text.take n ++ [text[n]] := List.take_succ_eq_append_getElem hn
  unfold Scanned
  rw [hrest, htake]
  by_cases hmem : text[n] ∈ text.take n
  · have hstep := uniqueStep_of_mem junk (text.drop (n + 1) ++ [nul]) (List.mem_eraseDups.mpr hmem)
      hlen hmax
    refine ⟨_, hstep, junk ++ [text[n]], ?_⟩
    rw [eraseDups_concat_of_mem hmem, List.length_append, List.length_singleton]
    exact ⟨rfl, rfl, by dsimp only at hlen ⊢; omega⟩
  · have hnot : text[n] ∉ (text.take n).eraseDups := fun h => hmem (List.mem_eraseDups.mp h)
    obtain ⟨junk', hlen', hstep⟩ :=
      uniqueStep_of_not_mem junk (text.drop (n + 1) ++ [nul]) hnot hlen hmax
    refine ⟨_, hstep, junk', ?_⟩
    rw [eraseDups_concat_of_not_mem hmem, hlen', List.length_append, List.length_singleton]
    exact ⟨rfl, rfl, by dsimp only at hlen ⊢; omega⟩

/-- What the buffer holds after the loop: a round for every character but the first. -/
theorem uniqueLoop_scanned (htext : text ≠ []) (hsize : size ≤ text.length)
    (hmax : size ≤ intMax) : ∃ st, (List.range' 1 (size - 1)).foldlM uniqueStep (text ++ [nul], 1) =
      some st ∧ Scanned text (max 1 size) st := by
  have hpos := List.length_pos_iff.mpr htext
  have hstart : Scanned text 1 (text ++ [nul], 1) := by
    obtain ⟨c, text', rfl⟩ := List.exists_cons_of_ne_nil htext
    exact ⟨[], rfl, rfl, rfl⟩
  obtain ⟨st, hrun, hscanned⟩ := foldlM_prefix (P := fun t st => Scanned text (1 + t.length) st)
    (List.range' 1 (size - 1)) (by
      intro t current st hfront hst
      obtain ⟨rfl, hlt⟩ := eq_add_length_of_prefix_range' hfront
      obtain ⟨st', hstep, hst'⟩ := uniqueStep_scanned hst (by omega) (by omega)
      refine ⟨st', hstep, ?_⟩
      rwa [List.length_append, List.length_singleton]) _ hstart
  rw [List.length_range'] at hscanned
  refine ⟨st, hrun, ?_⟩
  rwa [show max 1 size = 1 + (size - 1) by omega]

/-- The string afterwards: the first occurrences among the characters that have been scanned. -/
theorem uniqueN2_eq (htext : text ≠ []) (hnul : nul ∉ text) (hsize : size ≤ text.length)
    (hmax : size ≤ intMax) : ∃ str, uniqueN2 (text ++ [nul]) size = some str ∧
      cString nul str = (text.take (max 1 size)).eraseDups := by
  obtain ⟨⟨_, _⟩, hrun, junk, rfl, rfl, hlen⟩ := uniqueLoop_scanned htext hsize hmax
  have hnot : nul ∉ (text.take (max 1 size)).eraseDups := fun h =>
    hnul (List.mem_of_mem_take (List.mem_eraseDups.mp h))
  obtain ⟨c, rest, hrest⟩ := List.exists_cons_of_ne_nil
    (List.append_ne_nil_of_right_ne_nil (junk ++ text.drop (max 1 size)) (List.cons_ne_nil nul []))
  refine ⟨(text.take (max 1 size)).eraseDups ++ nul :: rest, ?_, cString_append hnot rest⟩
  unfold uniqueN2
  rw [hrun, Option.bind_eq_bind, Option.bind_some]
  dsimp only
  rw [List.append_assoc, ← List.append_assoc junk, hrest, assign_append]

theorem uniqueStep_eq_none {current : ℕ} (h : intMax < current + 1) (st : List Char × ℕ) :
    uniqueStep st current = none := by
  have hnat : nat? (current + 1) = none := if_neg (Nat.not_le.mpr h)
  unfold uniqueStep
  simp [hnat]

theorem uniqueN2_eq_none (str : List Char) (h : intMax < size) : uniqueN2 str size = none := by
  have hmem : intMax ∈ List.range' 1 (size - 1) := by
    have hpos : 1 ≤ intMax := by decide
    rw [List.mem_range'_1]
    omega
  unfold uniqueN2
  rw [foldlM_eq_none hmem (uniqueStep_eq_none (Nat.lt_succ_self _))]
  rfl

/-- Both leave the first occurrences, `unique_n2` exactly if the string is not empty, its length as
`unsigned` is an `int`, and every character occurs among those that are scanned. -/
theorem uniqueString_iff (text : List Char) (hnul : nul ∉ text) (l : List α) :
    ((∃ str, uniqueString (text ++ [nul]) = some str ∧
        cString nul str = text.eraseDups) ∧ list21 l = l.eraseDups) ↔
      text ≠ [] ∧ text.length % 4294967296 ≤ intMax ∧
        ∀ c ∈ text, c ∈ text.take (max 1 (text.length % 4294967296)) := by
  unfold uniqueString
  rw [strlen_append hnul [], and_iff_left (list21_eq l)]
  have hsize := Nat.mod_le text.length 4294967296
  by_cases htext : text = []
  · subst htext
    refine iff_of_false ?_ (fun h => h.1 rfl)
    rintro ⟨str, hrun, -⟩
    exact nomatch hrun
  · rcases Nat.lt_or_ge intMax (text.length % 4294967296) with hlt | hle
    · rw [uniqueN2_eq_none _ hlt]
      exact iff_of_false nofun (fun h => Nat.not_le.mpr hlt h.2.1)
    · obtain ⟨str, hrun, hstr⟩ := uniqueN2_eq htext hnul hsize hle
      rw [hrun, ← eraseDups_take_eq_iff, ← hstr]
      constructor
      · rintro ⟨_, ⟨⟩, hall⟩
        exact ⟨htext, hle, hall⟩
      · rintro ⟨-, -, hall⟩
        exact ⟨str, rfl, hall⟩

theorem uniqueString_iff_abac :
    ((∃ str, uniqueString (['a', 'b', 'a', 'c'] ++ [nul]) = some str ∧
        cString nul str = ['a', 'b', 'a', 'c'].eraseDups) ∧
      list21 [1, 3, 6, 7, 7, 8, 3, 9] = [1, 3, 6, 7, 7, 8, 3, 9].eraseDups) ↔
      ['a', 'b', 'a', 'c'] ≠ [] ∧ 4 % 4294967296 ≤ intMax ∧
        ∀ c ∈ ['a', 'b', 'a', 'c'], c ∈ ['a', 'b', 'a', 'c'].take (max 1 (4 % 4294967296)) :=
  uniqueString_iff ['a', 'b', 'a', 'c'] (by decide) [1, 3, 6, 7, 7, 8, 3, 9]

/-- In the empty string the terminator is written behind the buffer. -/
theorem uniqueString_empty : uniqueString ([] ++ [nul]) = none ∧
    ¬∃ str, uniqueString ([] ++ [nul]) = some str ∧ cString nul str = [].eraseDups := by
  refine ⟨rfl, ?_⟩
  rintro ⟨_, ⟨⟩, -⟩

end CppTricks.Crack
