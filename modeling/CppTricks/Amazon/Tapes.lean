import CppTricks.Foundation.FixedWidth
import CppTricks.Foundation.Packing
import Mathlib.Algebra.Order.Group.Nat
import Mathlib.Algebra.Ring.Nat
import Mathlib.Data.List.Sort
import Mathlib.Tactic.Common

/-! `TEST(CCupAmazon, One)`: files on tapes, two on a tape at most, with exact sums and with sums in
`int`. -/
namespace CppTricks.Amazon
open Foundation

/-- The indices and the counter of the loop, and which positions of `files` each tape counted so far
takes. -/
structure Tapes where
  b : ℕ
  e : ℕ
  res : ℕ
  tapes : List (List ℕ)
  deriving DecidableEq

namespace Tapes

/-- `--e` of an unsigned index. -/
def decrement : ℕ → Option ℕ
  | 0 => none
  | e + 1 => some e

/-- `if (b == e) ++res;`: the file where the pointers meet has a tape of its own. -/
def settle (st : Tapes) : Tapes :=
  if st.b = st.e then { st with res := st.res + 1, tapes := st.tapes ++ [[st.b]] } else st

/-- The body of the loop. `none` is an access outside `files` or an underflow. -/
def body (tapeSize : ℕ) (files : List ℕ) (st : Tapes) : Option Tapes := do
  let x ← files[st.b]?
  let y ← files[st.e]?
  if x + y ≤ tapeSize then
    let e ← decrement st.e
    return settle ⟨st.b + 1, e, st.res + 1, st.tapes ++ [[st.b, st.e]]⟩
  else return settle ⟨st.b + 1, st.e, st.res + 1, st.tapes ++ [[st.b]]⟩

/-- Also `none` is a loop that was cut off. -/
def loop (tapeSize : ℕ) (files : List ℕ) : ℕ → Tapes → Option Tapes
  | 0, _ => none
  | fuel + 1, st =>
    if st.b ≥ st.e then some st
    else do
      let st ← body tapeSize files st
      loop tapeSize files fuel st

/-- `sort(files.begin(), files.end(), greater<int>())` -/
def sort (files : List ℕ) : List ℕ := files.mergeSort (· ≥ ·)

def one (tapeSize : ℕ) (files : List ℕ) (fuel : ℕ) : Option Tapes := do
  let files := sort files
  let e ← decrement files.length
  loop tapeSize files fuel ⟨0, e, 0, []⟩

/-- Each of the `n` positions from `b` on is on exactly one tape, and no tape has more than it can
take. -/
structure Cover (tapeSize : ℕ) (files : List ℕ) (b n : ℕ) (tapes : List (List ℕ)) : Prop where
  perm : tapes.flatten.Perm (List.range' b n)
  length : ∀ tape ∈ tapes, 1 ≤ tape.length ∧ tape.length ≤ 2
  fits : ∀ tape ∈ tapes, (tape.map fun i => files[i]?.getD 0).sum ≤ tapeSize

variable {tapeSize : ℕ} {files pre suf mid rest : List ℕ} {tapes : List (List ℕ)}
  {b e n res x y : ℕ}

theorem settle_of_ne (h : b ≠ e) (res : ℕ) (tapes : List (List ℕ)) :
    settle ⟨b, e, res, tapes⟩ = ⟨b, e, res, tapes⟩ := if_neg h

theorem settle_self (b res : ℕ) (tapes : List (List ℕ)) :
    settle ⟨b, b, res, tapes⟩ = ⟨b, b, res + 1, tapes ++ [[b]]⟩ := if_pos rfl

theorem loop_of_le (h : e ≤ b) (fuel res : ℕ) (tapes : List (List ℕ)) :
    loop tapeSize files (fuel + 1) ⟨b, e, res, tapes⟩ = some ⟨b, e, res, tapes⟩ := if_pos h

theorem loop_of_lt (tapeSize : ℕ) (h : b < e) (hx : files[b]? = some x)
    (hy : files[e]? = some y) (fuel res : ℕ) (tapes : List (List ℕ)) :
    loop tapeSize files (fuel + 1) ⟨b, e, res, tapes⟩ =
      loop tapeSize files fuel (if x + y ≤ tapeSize
        then settle ⟨b + 1, e - 1, res + 1, tapes ++ [[b, e]]⟩
        else settle ⟨b + 1, e, res + 1, tapes ++ [[b]]⟩) := by
  obtain ⟨e, rfl⟩ := Nat.exists_eq_succ_of_ne_zero (Nat.ne_zero_of_lt h)
  have hbody : body tapeSize files ⟨b, e + 1, res, tapes⟩ = some (if x + y ≤ tapeSize
      then settle ⟨b + 1, e, res + 1, tapes ++ [[b, e + 1]]⟩
      else settle ⟨b + 1, e + 1, res + 1, tapes ++ [[b]]⟩) := by
    unfold body
    dsimp only
    rw [hx, hy]
    simp only [Option.bind_eq_bind, Option.bind_some, decrement]
    split
    · rfl
    · rfl
  rw [loop, if_neg (Nat.not_le.mpr h), hbody]
  rfl

namespace Cover

theorem nil (tapeSize : ℕ) (files : List ℕ) (b : ℕ) : Cover tapeSize files b 0 [] :=
  ⟨List.Perm.refl [], nofun, nofun⟩

theorem cons_one (h : Cover tapeSize files (b + 1) n tapes) (hx : files[b]? = some x)
    (hfits : x ≤ tapeSize) : Cover tapeSize files b (n + 1) ([b] :: tapes) := by
  constructor
  · rw [List.flatten_cons, List.range'_succ]
    exact h.perm.cons b
  · rw [List.forall_mem_cons]
    exact ⟨by simp, h.length⟩
  · rw [List.forall_mem_cons]
    exact ⟨by simpa [hx] using hfits, h.fits⟩

theorem cons_two (h : Cover tapeSize files (b + 1) n tapes) (hx : files[b]? = some x)
    (hy : files[b + 1 + n]? = some y) (hfits : x + y ≤ tapeSize) :
    Cover tapeSize files b (n + 2) ([b, b + 1 + n] :: tapes) := by
  constructor
  · rw [List.flatten_cons, List.range'_succ, List.range'_1_concat]
    exact ((h.perm.cons _).trans (List.perm_append_singleton _ _).symm).cons b
  · rw [List.forall_mem_cons]
    exact ⟨by simp, h.length⟩
  · rw [List.forall_mem_cons]
    exact ⟨by simpa [hx, hy] using hfits, h.fits⟩

end Cover

/-- With `res` tapes counted, the loop covers the range from `b` on by as few more as can be. -/
def Finishes (tapeSize : ℕ) (files : List ℕ) (fuel : ℕ) (st : Tapes) (res : ℕ)
    (tapes : List (List ℕ)) (b : ℕ) (rest : List ℕ) : Prop :=
  ∃ b' e' more, loop tapeSize files fuel st = some ⟨b', e', res + more.length, tapes ++ more⟩ ∧
    Cover tapeSize files b rest.length more ∧ FewestBins tapeSize rest more.length

namespace Finishes

variable {fuel : ℕ} {st st' : Tapes}

/-- The greatest file fits with no other one. -/
theorem cons_one (h : Finishes tapeSize files fuel st' (res + 1) (tapes ++ [[b]]) (b + 1) rest)
    (hstep : loop tapeSize files (fuel + 1) st = loop tapeSize files fuel st')
    (hx : files[b]? = some x) (hfits : x ≤ tapeSize) (hbig : ∀ z ∈ rest, tapeSize < x + z) :
    Finishes tapeSize files (fuel + 1) st res tapes b (x :: rest) := by
  obtain ⟨b', e', more, hloop, hcover, hfewest⟩ := h
  refine ⟨b', e', [b] :: more, ?_, hcover.cons_one hx hfits, hfewest.cons_alone hfits hbig⟩
  rw [hstep, hloop, List.append_assoc, List.length_cons, Nat.add_right_comm, Nat.add_assoc]
  rfl

theorem cons_two
    (h : Finishes tapeSize files fuel st' (res + 1) (tapes ++ [[b, b + 1 + mid.length]])
      (b + 1) mid)
    (hstep : loop tapeSize files (fuel + 1) st = loop tapeSize files fuel st')
    (hx : files[b]? = some x) (hy : files[b + 1 + mid.length]? = some y) (hfits : x + y ≤ tapeSize)
    (hle : ∀ w ∈ mid, w ≤ x) :
    Finishes tapeSize files (fuel + 1) st res tapes b (x :: (mid ++ [y])) := by
  obtain ⟨b', e', more, hloop, hcover, hfewest⟩ := h
  refine ⟨b', e', [b, b + 1 + mid.length] :: more, ?_, ?_, ?_⟩
  · rw [hstep, hloop, List.append_assoc, List.length_cons, Nat.add_right_comm, Nat.add_assoc]
    rfl
  · rw [List.length_cons, List.length_append]
    exact hcover.cons_two hx hy hfits
  · have hpair := hfewest.cons_pair hfits hle
    exact hpair.of_perm ((List.perm_append_singleton y mid).symm.cons x)

end Finishes

theorem ordered_of_sorted (h : (pre ++ (x :: (mid ++ [y]) ++ suf)).Pairwise (· ≥ ·)) :
    ∀ w ∈ mid, w ≤ x ∧ y ≤ w := by
  have hrange := (List.pairwise_append.mp (List.pairwise_append.mp h).2.1).1
  rw [List.pairwise_cons, List.pairwise_append] at hrange
  intro w hw
  exact ⟨hrange.1 w (List.mem_append_left _ hw), hrange.2.2.2 w hw y (List.mem_singleton_self y)⟩

/-- The loop from a range on, whose file has its tape already where it is the only one. -/
theorem loop_settle (hsorted : files.Pairwise (· ≥ ·)) (hfits : ∀ f ∈ files, f ≤ tapeSize)
    (pre rest suf : List ℕ) (hfiles : files = pre ++ (rest ++ suf)) (e : ℕ)
    (he : e + 1 = pre.length + rest.length) (fuel : ℕ) (hfuel : rest.length < fuel) (res : ℕ)
    (tapes : List (List ℕ)) : Finishes tapeSize files fuel (settle ⟨pre.length, e, res, tapes⟩) res
      tapes pre.length rest := by
  induction fuel generalizing pre rest suf e res tapes with
  | zero => exact absurd hfuel (Nat.not_lt_zero _)
  | succ fuel ih =>
    match rest with
    | [] =>
      rw [List.length_nil] at he
      rw [settle_of_ne (by omega)]
      exact ⟨pre.length, e, [], by simp [loop_of_le (show e ≤ pre.length by omega)], .nil _ _ _,
        .nil _⟩
    | x :: rest =>
      have hx : files[pre.length]? = some x := by simp [hfiles]
      have hxfits : x ≤ tapeSize := hfits x (List.mem_of_getElem? hx)
      have hlen : (pre ++ [x]).length = pre.length + 1 := List.length_append
      obtain rfl | ⟨mid, y, rfl⟩ := List.eq_nil_or_concat' rest
      · obtain rfl : pre.length = e := by
          rw [List.length_singleton] at he
          omega
        rw [settle_self]
        exact ⟨_, _, [[pre.length]], loop_of_le (Nat.le_refl _) _ _ _,
          (Cover.nil _ _ _).cons_one hx hxfits, (FewestBins.nil _).cons_alone hxfits nofun⟩
      · have hrest : files = (pre ++ [x]) ++ (mid ++ y :: suf) := by simp [hfiles]
        have hordered := ordered_of_sorted (hfiles ▸ hsorted)
        simp only [List.length_cons, List.length_append, List.length_nil] at he hfuel
        obtain rfl : e = pre.length + 1 + mid.length := by omega
        have hy : files[pre.length + 1 + mid.length]? = some y := by
          rw [hrest, ← hlen, ← List.length_append, ← List.append_assoc]
          simp
        rw [settle_of_ne (by omega)]
        have hstep := loop_of_lt tapeSize (by omega) hx hy fuel res tapes
        by_cases hxy : x + y ≤ tapeSize
        · rw [if_pos hxy] at hstep
          have hfin := ih (pre ++ [x]) mid (y :: suf) hrest (pre.length + 1 + mid.length - 1)
            (by omega) (by omega) (res + 1) (tapes ++ [[pre.length, pre.length + 1 + mid.length]])
          rw [hlen] at hfin
          exact hfin.cons_two hstep hx hy hxy fun w hw => (hordered w hw).1
        · rw [if_neg hxy] at hstep
          have hfin := ih (pre ++ [x]) (mid ++ [y]) suf (by rw [hrest]; simp)
            (pre.length + 1 + mid.length) (by simp; omega) (by simp; omega) (res + 1)
            (tapes ++ [[pre.length]])
          rw [hlen] at hfin
          apply hfin.cons_one hstep hx hxfits
          intro z hz
          have hle : y ≤ z := by
            cases List.mem_append.mp hz with
            | inl hz => exact (hordered z hz).2
            | inr hz => exact Nat.le_of_eq (List.mem_singleton.mp hz).symm
          omega

theorem sort_perm (files : List ℕ) : (sort files).Perm files := List.mergeSort_perm files _

theorem sort_sorted (files : List ℕ) : (sort files).Pairwise (· ≥ ·) :=
  files.pairwise_mergeSort' (· ≥ ·)

theorem length_sort (files : List ℕ) : (sort files).length = files.length :=
  (sort_perm files).length_eq

theorem length_flatten_bounds (h : ∀ tape ∈ tapes, 1 ≤ tape.length ∧ tape.length ≤ 2) :
    tapes.flatten.length ≤ 2 * tapes.length ∧ tapes.length ≤ tapes.flatten.length := by
  induction tapes with
  | nil => simp
  | cons tape tapes ih =>
    rw [List.forall_mem_cons] at h
    have hrest := ih h.2
    simp only [List.flatten_cons, List.length_append, List.length_cons]
    omega

theorem Cover.length_le (h : Cover tapeSize files b n tapes) :
    n ≤ 2 * tapes.length ∧ tapes.length ≤ n := by
  have hlen := h.perm.length_eq
  have hbounds := length_flatten_bounds h.length
  rw [List.length_range'] at hlen
  omega

theorem one_spec (tapeSize : ℕ) (files : List ℕ) (htwo : 2 ≤ files.length)
    (hfits : ∀ f ∈ files, f ≤ tapeSize) (fuel : ℕ) (hfuel : files.length < fuel) :
    ∃ st, one tapeSize files fuel = some st ∧ Cover tapeSize (sort files) 0 files.length st.tapes ∧
      st.tapes.length = st.res ∧ FewestBins tapeSize files st.res := by
  have hperm := sort_perm files
  have hlen := length_sort files
  have hfin := loop_settle (sort_sorted files) (fun f hf => hfits f (hperm.mem_iff.mp hf)) []
    (sort files) [] (by simp) (files.length - 1) (by simp; omega) fuel (by omega) 0 []
  rw [List.length_nil, settle_of_ne (by omega)] at hfin
  obtain ⟨b, e, tapes, hloop, hcover, hfewest⟩ := hfin
  rw [Nat.zero_add, List.nil_append] at hloop
  rw [hlen] at hcover
  refine ⟨⟨b, e, tapes.length, tapes⟩, ?_, hcover, rfl, hfewest.of_perm hperm⟩
  obtain ⟨n, hn⟩ := Nat.exists_eq_succ_of_ne_zero (show files.length ≠ 0 by omega)
  unfold one
  dsimp only
  rw [hlen, hn, decrement, Option.bind_eq_bind, Option.bind_some, ← hloop, hn]
  rfl

/-! ### Sums in `int` -/

/-- Also `none` is an overflow of the sum that is compared. -/
def body? (tapeSize : ℕ) (files : List ℕ) (st : Tapes) : Option Tapes := do
  let x ← files[st.b]?
  let y ← files[st.e]?
  let _ ← nat? (x + y)
  body tapeSize files st

def loop? (tapeSize : ℕ) (files : List ℕ) : ℕ → Tapes → Option Tapes
  | 0, _ => none
  | fuel + 1, st =>
    if st.b ≥ st.e then some st
    else do
      let st ← body? tapeSize files st
      loop? tapeSize files fuel st

def one? (tapeSize : ℕ) (files : List ℕ) (fuel : ℕ) : Option Tapes := do
  let files := sort files
  let e ← decrement files.length
  loop? tapeSize files fuel ⟨0, e, 0, []⟩

/-- No two files are larger than an `int` together. -/
def PairsInt (files : List ℕ) : Prop := files.Pairwise fun x y => x + y ≤ intMax

instance (files : List ℕ) : Decidable (PairsInt files) :=
  inferInstanceAs (Decidable (files.Pairwise _))

theorem PairsInt.sort (h : PairsInt files) : PairsInt (sort files) :=
  (sort_perm files).symm.pairwise h fun hxy => by rwa [Nat.add_comm]

theorem PairsInt.body? (h : PairsInt files) {st : Tapes} (hlt : st.b < st.e) :
    Tapes.body? tapeSize files st = body tapeSize files st := by
  unfold Tapes.body?
  cases hx : files[st.b]? with
  | none => simp [body, hx]
  | some x =>
    cases hy : files[st.e]? with
    | none => simp [body, hx, hy]
    | some y =>
      obtain ⟨hb, rfl⟩ := List.getElem?_eq_some_iff.mp hx
      obtain ⟨he, rfl⟩ := List.getElem?_eq_some_iff.mp hy
      have hsum := List.pairwise_iff_getElem.mp h st.b st.e hb he hlt
      rw [Option.bind_eq_bind, Option.bind_some, Option.bind_some, nat?_eq_some hsum,
        Option.bind_some]

theorem PairsInt.loop? (h : PairsInt files) (fuel : ℕ) (st : Tapes) :
    Tapes.loop? tapeSize files fuel st = loop tapeSize files fuel st := by
  induction fuel generalizing st with
  | zero => rfl
  | succ fuel ih =>
    unfold Tapes.loop? loop
    by_cases hle : st.b ≥ st.e
    · rw [if_pos hle, if_pos hle]
    · rw [if_neg hle, if_neg hle, h.body? (not_le.mp hle)]
      exact congrArg (body tapeSize files st >>= ·) (funext ih)

/-- Where no sum overflows, the loop counts as few tapes as can be, and `e` does not underflow. -/
theorem one_fewest (tapeSize : ℕ) (files : List ℕ) (htwo : 2 ≤ files.length)
    (hfits : ∀ f ∈ files, f ≤ tapeSize) (hint : PairsInt files) (fuel : ℕ)
    (hfuel : files.length < fuel) :
    ∃ st, one? tapeSize files fuel = some st ∧ FewestBins tapeSize files st.res := by
  obtain ⟨st, hone, -, -, hfewest⟩ := one_spec tapeSize files htwo hfits fuel hfuel
  refine ⟨st, ?_, hfewest⟩
  rw [← hone]
  unfold one? one
  exact congrArg (decrement (sort files).length >>= ·) (funext fun e => hint.sort.loop? fuel _)

theorem one_fewest_five : ∃ st, one? 100 [70, 10, 20, 30, 100] 6 = some st ∧
    FewestBins 100 [70, 10, 20, 30, 100] st.res :=
  one_fewest 100 [70, 10, 20, 30, 100] (by decide) (by decide) (by decide) 6 (by decide)

/-- Two files whose sizes are no `int` together, on a tape that has room for both. -/
theorem one_overflow : ¬ ∃ fuel st,
    one? 4294967296 [2147483647, 2147483647] fuel = some st ∧
      FewestBins 4294967296 [2147483647, 2147483647] st.res := by
  intro h
  obtain ⟨fuel, st, hone, -⟩ := h
  have hsort : sort [2147483647, 2147483647] = [2147483647, 2147483647] :=
    List.perm_replicate (n := 2).mp (sort_perm _)
  unfold one? at hone
  rw [hsort] at hone
  cases fuel with
  | zero => cases hone
  | succ fuel => cases hone

theorem one_singleton (tapeSize x fuel : ℕ) :
    one tapeSize [x] (fuel + 1) = some ⟨0, 0, 0, []⟩ := by
  unfold one sort
  rw [List.mergeSort_singleton]
  rfl

end Tapes

end CppTricks.Amazon
