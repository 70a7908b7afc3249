import CppTricks.Foundation.Memo
import CppTricks.Knapsack.KnapSackExp

/-! `knapSack_hashtable` and `knapSack_hashtable_2d`: the knapsack recursion with a store. -/
namespace CppTricks.Knapsack
open Foundation

structure TaskId where
  wBound : ℤ
  idx : ℕ
deriving DecidableEq

abbrev Store := Finmap fun _ : TaskId => ℤ

/-- A table of tables, keyed by `w_bound` and then by `idx`. -/
abbrev Store2d := Finmap fun _ : ℤ => Finmap fun _ : ℕ => ℤ

def table : Memo Store TaskId ℤ := Memo.flat TaskId ℤ

def table2d : Memo Store2d TaskId ℤ := Memo.nested TaskId.wBound TaskId.idx ℤ

variable {S : Type}

/-- The recursion over any store. Which of the two sibling calls is made first is left open by the
language: `includedFirst` settles it, each time anew. -/
def memoised (M : Memo S TaskId ℤ) (includedFirst : TaskId → S → Bool) (items : List Item)
    (wBound : ℤ) (idx : ℕ) (store : S) : Option (ℤ × S) :=
  match M.find store ⟨wBound, idx⟩ with
  | some value => some (value, store)
  | none =>
    match idx with
    | 0 => some (0, store)
    | n + 1 =>
      if wBound = 0 then some (0, store)
      else do
        let item ← items[n]?
        if item.w > wBound then memoised M includedFirst items wBound n store
        else
          let (included, excluded, store) ← Memo.inOrder (includedFirst ⟨wBound, n + 1⟩ store)
            (memoised M includedFirst items (wBound - item.w) n)
            (memoised M includedFirst items wBound n) store
          let sumValues := max (included + item.v) excluded
          return (sumValues, M.add store ⟨wBound, n + 1⟩ sumValues)

def knapSackHashtable (includedFirst : TaskId → Store → Bool) (id : TaskId) (items : List Item)
    (store : Store) : Option (ℤ × Store) :=
  memoised table includedFirst items id.wBound id.idx store

def knapSackHashtable2d (includedFirst : TaskId → Store2d → Bool) (id : TaskId) (items : List Item)
    (store : Store2d) : Option (ℤ × Store2d) :=
  memoised table2d includedFirst items id.wBound id.idx store

/-- `v` is the answer of `knapSackExp` for the fields of `id`. -/
def Correct (items : List Item) (id : TaskId) (v : ℤ) : Prop :=
  knapSackExp id.wBound id.idx items = some v

theorem table_lawful : table.Lawful := Memo.flat_lawful

theorem table2d_lawful : table2d.Lawful := by
  apply Memo.nested_lawful
  intro j k hw hi
  cases j with
  | mk wBound idx =>
    cases k with
    | mk wBound' idx' =>
      obtain rfl : wBound = wBound' := hw
      obtain rfl : idx = idx' := hi
      rfl

variable {M : Memo S TaskId ℤ} {items : List Item} {n : ℕ}

/-- One call answers as the recursion does, whether it finds its id or works it out. -/
theorem memoised_answers (hM : M.Lawful) (includedFirst : TaskId → S → Bool)
    (hn : n ≤ items.length) (wBound : ℤ) :
    M.Answers (Correct items) ⟨wBound, n⟩ (memoised M includedFirst items wBound n) := by
  induction n generalizing wBound with
  | zero =>
    intro store hstore
    unfold memoised
    cases hfind : M.find store ⟨wBound, 0⟩ with
    | some value => exact Memo.Answers.of_pure (hstore _ _ hfind) store hstore
    | none =>
      have hv : Correct items ⟨wBound, 0⟩ 0 := knapSackExp_idx_zero wBound items
      exact Memo.Answers.of_pure hv store hstore
  | succ n ih =>
    have hi : items[n]? = some items[n] := List.getElem?_eq_getElem hn
    intro store hstore
    unfold memoised
    cases hfind : M.find store ⟨wBound, n + 1⟩ with
    | some value => exact Memo.Answers.of_pure (hstore _ _ hfind) store hstore
    | none =>
      simp only [hi]
      by_cases hzero : wBound = 0
      · subst hzero
        have hv : Correct items ⟨0, n + 1⟩ 0 := knapSackExp_wBound_zero (n + 1) items
        exact Memo.Answers.of_pure hv store hstore
      · rw [if_neg hzero]
        by_cases h : items[n].w > wBound
        · obtain ⟨v, store', hrun, hv, hsound, hext⟩ := ih (by omega) wBound store hstore
          refine ⟨v, store', by simpa [h] using hrun, ?_, hsound, hext⟩
          exact (knapSackExp_of_lt hzero hi h).trans hv
        · obtain ⟨x, y, store', hrun, hx, hy, hsound, hext⟩ :=
            (ih (by omega) (wBound - items[n].w)).inOrder (ih (by omega) wBound)
              (includedFirst ⟨wBound, n + 1⟩ store) hstore
          have hv : Correct items ⟨wBound, n + 1⟩ (max (x + items[n].v) y) :=
            knapSackExp_of_le hzero hi (not_lt.mp h) hx hy
          refine ⟨_, _, by simp [h, hrun], hv, hM.sound_add hsound hv, ?_⟩
          exact hext.trans (hM.extends_add store' _ _)

/-- From a store of right answers both return the answer of the recursion, store right answers only,
and keep every entry that was there. -/
theorem knapSackHashtable_memoises (items : List Item) (W : ℤ) (n : ℕ) (hn : n ≤ items.length)
    (includedFirst : TaskId → Store → Bool) (includedFirst2d : TaskId → Store2d → Bool)
    (store : Store) (store2d : Store2d) (hstore : table.Sound (Correct items) store)
    (hstore2d : table2d.Sound (Correct items) store2d) :
    ∃ m, knapSackExp W n items = some m ∧
      (∃ store', knapSackHashtable includedFirst ⟨W, n⟩ items store = some (m, store') ∧
        table.Sound (Correct items) store' ∧ table.Extends store store') ∧
      ∃ store2d', knapSackHashtable2d includedFirst2d ⟨W, n⟩ items store2d = some (m, store2d') ∧
        table2d.Sound (Correct items) store2d' ∧ table2d.Extends store2d store2d' := by
  obtain ⟨m, store', hrun, hm, hsound, hext⟩ :=
    memoised_answers table_lawful includedFirst hn W store hstore
  obtain ⟨m', store2d', hrun2d, hm', hsound2d, hext2d⟩ :=
    memoised_answers table2d_lawful includedFirst2d hn W store2d hstore2d
  obtain rfl : m = m' := Option.some.inj (hm.symm.trans hm')
  exact ⟨m, hm, ⟨store', hrun, hsound, hext⟩, store2d', hrun2d, hsound2d, hext2d⟩

theorem knapSackHashtable_memoises_getTestItems :
    ∃ store store2d,
      knapSackHashtable (fun _ _ => true) ⟨6, 5⟩ getTestItems.2 (table.add ∅ ⟨6, 2⟩ 3) =
        some (8, store) ∧
      knapSackHashtable2d (fun _ _ => false) ⟨6, 5⟩ getTestItems.2 (table2d.add ∅ ⟨6, 2⟩ 3) =
        some (8, store2d) := by
  have hentry : Correct getTestItems.2 ⟨6, 2⟩ 3 := by
    unfold Correct
    decide
  obtain ⟨m, hm, ⟨store, hrun, -⟩, store2d, hrun2d, -⟩ :=
    knapSackHashtable_memoises getTestItems.2 6 5 (by decide) (fun _ _ => true) (fun _ _ => false)
      (table.add ∅ ⟨6, 2⟩ 3) (table2d.add ∅ ⟨6, 2⟩ 3)
      (table_lawful.sound_add (Memo.flat_sound_empty _) hentry)
      (table2d_lawful.sound_add (Memo.nested_sound_empty _ _ _) hentry)
  have height : knapSackExp 6 5 getTestItems.2 = some 8 := by decide
  obtain rfl : m = 8 := Option.some.inj (hm.symm.trans height)
  exact ⟨store, store2d, hrun, hrun2d⟩

end CppTricks.Knapsack
