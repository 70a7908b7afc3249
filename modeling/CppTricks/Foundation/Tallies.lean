import Mathlib.Algebra.Ring.Nat
import Mathlib.Data.List.AList

/-! Dictionaries of counts, in which a missing key stands for zero. -/
namespace Foundation

variable {κ : Type*} [DecidableEq κ]

abbrev Tally (κ : Type*) := AList fun _ : κ => ℕ

namespace Tally

def count (t : Tally κ) (k : κ) : ℕ := (t.lookup k).getD 0

def bump (t : Tally κ) (k : κ) : Tally κ := t.insert k (t.count k + 1)

/-- The keys of the dictionary are those that were counted. -/
def Positive (t : Tally κ) : Prop := ∀ k n, t.lookup k = some n → 0 < n

theorem positive_empty : Positive (∅ : Tally κ) := by
  intro k n h
  rw [AList.lookup_empty] at h
  cases h

theorem Positive.bump {t : Tally κ} (ht : t.Positive) (k : κ) : (t.bump k).Positive := by
  intro j n h
  by_cases hjk : j = k
  · subst hjk
    rw [Tally.bump, AList.lookup_insert] at h
    obtain rfl := Option.some.inj h
    exact Nat.succ_pos _
  · rw [Tally.bump, AList.lookup_insert_ne hjk] at h
    exact ht j n h

theorem Positive.foldl_bump {t : Tally κ} (ht : t.Positive) (keys : List κ) :
    (keys.foldl Tally.bump t).Positive := by
  induction keys generalizing t with
  | nil => exact ht
  | cons k keys ih => exact ih (ht.bump k)

theorem Positive.lookup_eq {t : Tally κ} (ht : t.Positive) (k : κ) :
    t.lookup k = if t.count k = 0 then none else some (t.count k) := by
  unfold count
  cases hk : t.lookup k with
  | none => rfl
  | some n => exact (if_neg (Nat.ne_of_gt (ht k n hk))).symm

/-! ### Sums -/

def total (p : κ → Bool) (t : Tally κ) : ℕ :=
  ((t.entries.filter fun e => p e.1).map Sigma.snd).sum

omit [DecidableEq κ] in
@[simp] theorem total_empty (p : κ → Bool) : total p (∅ : Tally κ) = 0 := rfl

private theorem sum_kerase (p : κ → Bool) (k : κ) {entries : List (Sigma fun _ : κ => ℕ)}
    (hnodup : entries.NodupKeys) :
    ((entries.filter fun e => p e.1).map Sigma.snd).sum =
      (((entries.kerase k).filter fun e => p e.1).map Sigma.snd).sum +
        if p k then (entries.dlookup k).getD 0 else 0 := by
  induction entries with
  | nil => simp
  | cons e entries ih =>
    obtain ⟨j, n⟩ := e
    obtain ⟨-, hrest⟩ := List.nodupKeys_cons.mp hnodup
    by_cases hkj : k = j
    · subst hkj
      have herase : (Sigma.mk k n :: entries).kerase k = entries := List.kerase_cons_eq rfl
      rw [herase, List.dlookup_cons_eq]
      by_cases hp : p k
      · simp [hp, Nat.add_comm]
      · simp [hp]
    · have herase : (Sigma.mk j n :: entries).kerase k = ⟨j, n⟩ :: entries.kerase k :=
        List.kerase_cons_ne hkj
      have hlookup : (Sigma.mk j n :: entries).dlookup k = entries.dlookup k :=
        List.dlookup_cons_ne _ _ hkj
      rw [herase, hlookup]
      by_cases hp : p j
      · simp only [List.filter_cons, hp, if_true, List.map_cons, List.sum_cons, ih hrest,
          Nat.add_assoc]
      · simp only [List.filter_cons, hp, if_false, ih hrest, Bool.false_eq_true]

theorem count_eq_total (t : Tally κ) (k : κ) : t.count k = t.total (· = k) := by
  have hsum := sum_kerase (· = k) k t.nodupKeys
  have hnone : (t.entries.kerase k).filter (fun e => decide (e.1 = k)) = [] := by
    rw [List.filter_eq_nil_iff]
    intro e he
    rw [decide_eq_true_eq]
    rintro rfl
    exact List.notMem_keys_kerase e.1 t.nodupKeys (List.mem_keys_of_mem he)
  unfold total
  rw [hsum, hnone]
  simp [count, AList.lookup]

theorem total_bump (p : κ → Bool) (t : Tally κ) (k : κ) :
    (t.bump k).total p = t.total p + if p k then 1 else 0 := by
  have hsum := sum_kerase p k t.nodupKeys
  unfold total
  rw [hsum, bump, AList.entries_insert]
  by_cases hp : p k
  · have hcount : (List.dlookup k t.entries).getD 0 = t.count k := rfl
    simp only [List.filter_cons, hp, if_true, List.map_cons, List.sum_cons, hcount]
    omega
  · simp [hp]

theorem total_foldl_bump (p : κ → Bool) (t : Tally κ) (keys : List κ) :
    (keys.foldl Tally.bump t).total p = t.total p + keys.countP p := by
  induction keys generalizing t with
  | nil => rfl
  | cons k keys ih =>
    rw [List.foldl_cons, ih, Tally.total_bump, List.countP_cons]
    omega

end Tally

section Copy

variable {V W : Type*}

def insertAll (f : V → W) (entries : List (Sigma fun _ : κ => V)) (d : AList fun _ : κ => W) :
    AList fun _ : κ => W :=
  entries.foldl (fun d e => d.insert e.1 (f e.2)) d

theorem lookup_insertAll (f : V → W) {entries : List (Sigma fun _ : κ => V)}
    (hnodup : entries.NodupKeys) (d : AList fun _ : κ => W) (k : κ) :
    (insertAll f entries d).lookup k = ((entries.dlookup k).map f).or (d.lookup k) := by
  induction entries generalizing d with
  | nil => rfl
  | cons e entries ih =>
    obtain ⟨j, v⟩ := e
    obtain ⟨hj, hrest⟩ := List.nodupKeys_cons.mp hnodup
    refine (ih hrest (d.insert j (f v))).trans ?_
    by_cases hkj : k = j
    · subst hkj
      have hnone : entries.dlookup k = none := List.dlookup_eq_none.mpr hj
      rw [hnone, List.dlookup_cons_eq, AList.lookup_insert]
      rfl
    · have hlookup : (Sigma.mk j v :: entries).dlookup k = entries.dlookup k :=
        List.dlookup_cons_ne _ _ hkj
      rw [hlookup, AList.lookup_insert_ne hkj]

theorem lookup_insertAll_empty (f : V → W) (d : AList fun _ : κ => V) (k : κ) :
    (insertAll f d.entries ∅).lookup k = (d.lookup k).map f := by
  rw [lookup_insertAll f d.nodupKeys, AList.lookup_empty, Option.or_none]
  rfl

end Copy

end Foundation
