import Mathlib.Data.List.Destutter
import Mathlib.Data.List.DropRight

/-! Lists as words between separators, and ranges that are reversed in place. -/
namespace Foundation

variable {α : Type} {x : α} {w l : List α} {ls : List (List α)}

/-- Turns the elements from `b` to before `e` round. `none` is not a range of `l`. -/
def reverseRange (l : List α) (b e : ℕ) : Option (List α) :=
  if b ≤ e ∧ e ≤ l.length then some (l.take b ++ ((l.take e).drop b).reverse ++ l.drop e) else none

theorem reverseRange_append (pre mid post : List α) :
    reverseRange (pre ++ mid ++ post) pre.length (pre.length + mid.length) =
      some (pre ++ mid.reverse ++ post) := by
  unfold reverseRange
  rw [if_pos (by simp), ← List.length_append, List.take_left, List.drop_left, List.drop_left,
    List.append_assoc pre mid post, List.take_left]

theorem reverseRange_self (l : List α) : reverseRange l 0 l.length = some l.reverse := by
  have h := reverseRange_append [] l []
  rwa [List.nil_append, List.append_nil, List.nil_append, List.append_nil, List.length_nil,
    Nat.zero_add] at h

theorem intercalate_concat (h : ls ≠ []) :
    [x].intercalate (ls ++ [w]) = [x].intercalate ls ++ x :: w := by
  induction ls with
  | nil => exact absurd rfl h
  | cons v ls ih =>
    rw [List.cons_append, List.intercalate_cons_of_ne_nil (by simp)]
    cases ls with
    | nil => simp
    | cons u ls =>
      rw [ih (List.cons_ne_nil u ls), List.intercalate_cons_cons]
      simp only [List.append_assoc]

theorem reverse_intercalate (x : α) (ls : List (List α)) :
    ([x].intercalate ls).reverse = [x].intercalate (ls.reverse.map List.reverse) := by
  induction ls with
  | nil => rfl
  | cons v ls ih =>
    cases ls with
    | nil => simp
    | cons u ls =>
      rw [List.intercalate_cons_cons, List.reverse_append, List.reverse_append, ih,
        List.reverse_cons (a := v), List.map_append, List.map_singleton,
        intercalate_concat (by simp), List.reverse_singleton, List.singleton_append]

variable [BEq α]

def reverseWords (x : α) (l : List α) : List α := [x].intercalate ((l.splitOn x).map List.reverse)

/-- The words that have elements. -/
def fullWords (x : α) (l : List α) : List (List α) := (l.splitOn x).filter fun w => !w.isEmpty

theorem fullWords_nil (x : α) : fullWords x [] = [] := by
  unfold fullWords
  rw [List.splitOn_nil]
  rfl

def stripped (x : α) (l : List α) : List α := (l.dropWhile (· == x)).rdropWhile (· == x)

theorem stripped_isInfix (x : α) (l : List α) : stripped x l <:+: l :=
  (List.rdropWhile_prefix _ _).isInfix.trans (List.dropWhile_suffix _).isInfix

variable [LawfulBEq α]

/-- A list is one word, or a word and a separator before another list. -/
theorem words_induction {P : List α → Prop} (x : α) (word : ∀ w, x ∉ w → P w)
    (sep : ∀ w l, x ∉ w → P l → P (w ++ x :: l)) (l : List α) : P l := by
  have hfrom : ∀ w, x ∉ w → P (w ++ l) := by
    induction l with
    | nil =>
      intro w hw
      rw [List.append_nil]
      exact word w hw
    | cons y l ih =>
      intro w hw
      cases h : y == x with
      | true =>
        rw [eq_of_beq h]
        exact sep w l hw (ih [] List.not_mem_nil)
      | false =>
        rw [← List.singleton_append, ← List.append_assoc]
        refine ih (w ++ [y]) ?_
        rw [List.mem_append, List.mem_singleton]
        rintro (hmem | rfl)
        · exact hw hmem
        · exact absurd h (by simp)
  exact hfrom [] List.not_mem_nil

theorem not_mem_of_mem_splitOn (hw : w ∈ l.splitOn x) : x ∉ w := by
  induction l using words_induction x with
  | word v hv =>
    rw [List.splitOn_eq_singleton hv, List.mem_singleton] at hw
    exact hw ▸ hv
  | sep v l hv ih =>
    rw [List.splitOn_append_cons_self_of_not_mem hv, List.mem_cons] at hw
    rcases hw with rfl | hw
    · exact hv
    · exact ih hw

/-! ### Words turned round -/

theorem reverseWords_of_not_mem (h : x ∉ w) : reverseWords x w = w.reverse := by
  unfold reverseWords
  rw [List.splitOn_eq_singleton h, List.map_singleton, List.intercalate_singleton]

theorem reverseWords_append_cons (h : x ∉ w) (l : List α) :
    reverseWords x (w ++ x :: l) = w.reverse ++ x :: reverseWords x l := by
  unfold reverseWords
  rw [List.splitOn_append_cons_self_of_not_mem h, List.map_cons, List.intercalate_cons_of_ne_nil]
  · rw [List.append_assoc, List.singleton_append]
  · simp

theorem length_reverseWords (x : α) (l : List α) : (reverseWords x l).length = l.length := by
  induction l using words_induction x with
  | word w hw => rw [reverseWords_of_not_mem hw, List.length_reverse]
  | sep w l hw ih =>
    rw [reverseWords_append_cons hw, List.length_append, List.length_append, List.length_cons,
      List.length_cons, List.length_reverse, ih]

theorem splitOn_reverse_reverseWords (x : α) (l : List α) :
    (reverseWords x l).reverse.splitOn x = (l.splitOn x).reverse := by
  have hl : (reverseWords x l).reverse = [x].intercalate (l.splitOn x).reverse := by
    unfold reverseWords
    rw [reverse_intercalate, ← List.map_reverse, List.map_map]
    simp
  rw [hl]
  refine List.splitOn_intercalate x ?_ (by simp)
  intro w hw
  exact not_mem_of_mem_splitOn (List.mem_reverse.mp hw)

theorem splitOn_reverse (x : α) (l : List α) :
    l.reverse.splitOn x = (l.splitOn x).reverse.map List.reverse := by
  have hl : l.reverse = [x].intercalate ((l.splitOn x).reverse.map List.reverse) := by
    rw [← reverse_intercalate, List.intercalate_splitOn]
  rw [hl]
  refine List.splitOn_intercalate x ?_ (by simp)
  intro w hw
  obtain ⟨v, hv, rfl⟩ := List.mem_map.mp hw
  rw [List.mem_reverse]
  exact not_mem_of_mem_splitOn (List.mem_reverse.mp hv)

theorem reverseWords_reverse (x : α) (l : List α) :
    reverseWords x l.reverse = [x].intercalate (l.splitOn x).reverse := by
  unfold reverseWords
  rw [splitOn_reverse, List.map_map]
  simp

/-! ### Words that have elements -/

theorem fullWords_append_cons (x : α) (u l : List α) :
    fullWords x (u ++ x :: l) = fullWords x u ++ fullWords x l := by
  unfold fullWords
  rw [List.splitOn_append_cons_self, List.filter_append]

theorem fullWords_cons_self (x : α) (l : List α) : fullWords x (x :: l) = fullWords x l := by
  have h := fullWords_append_cons x [] l
  rwa [fullWords_nil, List.nil_append, List.nil_append] at h

theorem fullWords_concat_self (x : α) (l : List α) : fullWords x (l ++ [x]) = fullWords x l := by
  rw [fullWords_append_cons, fullWords_nil, List.append_nil]

theorem fullWords_dropWhile (x : α) (l : List α) :
    fullWords x (l.dropWhile (· == x)) = fullWords x l := by
  induction l with
  | nil => rfl
  | cons y l ih =>
    rw [List.dropWhile_cons]
    split
    case isTrue h => rw [ih, eq_of_beq h, fullWords_cons_self]
    case isFalse h => rfl

theorem fullWords_rdropWhile (x : α) (l : List α) :
    fullWords x (l.rdropWhile (· == x)) = fullWords x l := by
  induction l using List.reverseRecOn with
  | nil => rfl
  | append_singleton l y ih =>
    rw [List.rdropWhile_concat]
    split
    case isTrue h => rw [ih, eq_of_beq h, fullWords_concat_self]
    case isFalse h => rfl

theorem fullWords_stripped (x : α) (l : List α) : fullWords x (stripped x l) = fullWords x l := by
  unfold stripped
  rw [fullWords_rdropWhile, fullWords_dropWhile]

theorem dropWhile_ne_nil (h : ∃ y ∈ l, y ≠ x) : l.dropWhile (· == x) ≠ [] := by
  obtain ⟨y, hy, hne⟩ := h
  rw [ne_eq, List.dropWhile_eq_nil_iff]
  intro hall
  exact hne (eq_of_beq (hall y hy))

theorem head?_dropWhile_ne (x : α) (l : List α) : (l.dropWhile (· == x)).head? ≠ some x := by
  intro hx
  have h := List.head?_dropWhile_not (· == x) l
  rw [hx] at h
  simp at h

theorem stripped_ne_nil (h : ∃ y ∈ l, y ≠ x) : stripped x l ≠ [] := by
  unfold stripped
  rw [ne_eq, List.rdropWhile_eq_nil_iff]
  intro hall
  have hne := dropWhile_ne_nil h
  have hhead := hall _ (List.head_mem hne)
  exact head?_dropWhile_ne x l (by rw [List.head?_eq_some_head hne, eq_of_beq hhead])

theorem head?_stripped (h : ∃ y ∈ l, y ≠ x) : (stripped x l).head? ≠ some x := by
  have hfront : stripped x l <+: l.dropWhile (· == x) := List.rdropWhile_prefix _ _
  obtain ⟨t, ht⟩ := hfront
  rw [← List.head?_append_of_ne_nil _ (stripped_ne_nil h), ht]
  exact head?_dropWhile_ne x l

theorem getLast?_stripped (x : α) (l : List α) : (stripped x l).getLast? ≠ some x := by
  intro hx
  have hne : stripped x l ≠ [] := by
    intro hnil
    rw [hnil] at hx
    cases hx
  have hlast : ¬((stripped x l).getLast hne == x) = true := List.rdropWhile_last_not _ _ hne
  rw [List.getLast?_eq_some_getLast hne] at hx
  rw [Option.some.inj hx] at hlast
  exact hlast BEq.rfl

theorem fullWords_destutter' {R : α → α → Prop} [DecidableRel R] {y : α} (u : List α)
    (hR : ∀ a ∈ y :: l, ∀ b ∈ y :: l, ¬R a b → a = x ∧ b = x) :
    fullWords x (u ++ l.destutter' R y) = fullWords x (u ++ y :: l) := by
  induction l generalizing u y with
  | nil => rfl
  | cons z l ih =>
    rw [List.destutter'_cons]
    split
    case isTrue h =>
      have htail := ih (y := z) (u ++ [y]) fun a ha b hb =>
        hR a (List.mem_cons_of_mem y ha) b (List.mem_cons_of_mem y hb)
      rwa [List.append_assoc, List.append_assoc, List.singleton_append,
        List.singleton_append] at htail
    case isFalse h =>
      obtain ⟨rfl, rfl⟩ := hR y (by simp) z (by simp) h
      rw [ih u fun a ha b hb => hR a (List.mem_cons_of_mem z ha) b (List.mem_cons_of_mem z hb),
        fullWords_append_cons, fullWords_append_cons, fullWords_cons_self]

theorem fullWords_destutter {R : α → α → Prop} [DecidableRel R]
    (hR : ∀ a ∈ l, ∀ b ∈ l, ¬R a b → a = x ∧ b = x) :
    fullWords x (l.destutter R) = fullWords x l := by
  cases l with
  | nil => rfl
  | cons y l => exact fullWords_destutter' [] hR

/-- With single separators between its elements a list has no empty words. -/
theorem fullWords_eq_splitOn (hne : l ≠ []) (hchain : l.IsChain fun a b => ¬(a = x ∧ b = x))
    (hhead : l.head? ≠ some x) (hlast : l.getLast? ≠ some x) : fullWords x l = l.splitOn x := by
  unfold fullWords
  induction l using words_induction x with
  | word w hw =>
    rw [List.splitOn_eq_singleton hw]
    simp [hne]
  | sep w l hw ih =>
    have hw' : w ≠ [] := by
      rintro rfl
      exact hhead rfl
    have hl : l ≠ [] := by
      rintro rfl
      exact hlast (by simp)
    rw [List.isChain_append] at hchain
    have htail : fullWords x l = l.splitOn x := by
      refine ih hl hchain.2.1.tail ?_ ?_
      · intro hx
        obtain ⟨l', rfl⟩ := List.head?_eq_some_iff.mp hx
        exact (List.isChain_cons_cons.mp hchain.2.1).1 ⟨rfl, rfl⟩
      · rwa [List.getLast?_append_cons, List.getLast?_cons_of_ne_nil hl] at hlast
    rw [List.splitOn_append_cons_self_of_not_mem hw, List.filter_cons_of_pos (by simp [hw'])]
    exact congrArg (w :: ·) htail

end Foundation
