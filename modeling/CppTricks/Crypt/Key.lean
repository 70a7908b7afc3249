import CppTricks.Foundation.BitMask
import CppTricks.Foundation.ExtendedEuclid
import CppTricks.Foundation.FixedWidth
import CppTricks.Foundation.Loops
import Mathlib.Tactic.IntervalCases
import Mathlib.Tactic.NormNum.Prime

/-! `crypt.c`: the keys of a cipher on blocks of four 16-bit words. -/
namespace CppTricks.Crypt
open Foundation

def CHUNK_SIZE : ℕ := 8
def KEY_LENGTH : ℕ := 52

/-- `z & 0xffff` of a signed `int`. -/
def low16 (z : ℤ) : ℕ := (z % 0x10000).toNat

/-- A quotient, where `none` is a division by zero. -/
def div? (x y : ℕ) : Option ℕ := if y = 0 then none else some (x / y)

/-- The loop of `inv`. `none` is a division by zero, an overflow or a run without end. -/
def invLoop : ℕ → ℕ → ℕ → ℕ → ℕ → Option ℕ
  | 0, _, _, _, _ => none
  | fuel + 1, x, y, t0, t1 => do
    let q ← div? x y
    let x := x % y
    let t0 ← nat? (t0 + q * t1)
    if x = 1 then return t0
    let q ← div? y x
    let y := y % x
    let t1 ← nat? (t1 + q * t0)
    if y = 1 then return low16 (1 - t1)
    invLoop fuel x y t0 t1

def inv (x : ℕ) : Option ℕ :=
  if x ≤ 1 then some x
  else
    let t1 := 0x10001 / x
    let y := 0x10001 % x
    if y = 1 then some (low16 (1 - t1)) else invLoop x x y 1 t1

def nextWord (key : List ℕ) (i : ℕ) : ℕ :=
  let j := i % CHUNK_SIZE
  if j < 6 then (key.getD (i - 7) 0 >>> 9 ||| key.getD (i - 6) 0 <<< 7) &&& 0xffff
  else if j = 6 then (key.getD (i - 7) 0 >>> 9 ||| key.getD (i - 14) 0 <<< 7) &&& 0xffff
  else (key.getD (i - 15) 0 >>> 9 ||| key.getD (i - 14) 0 <<< 7) &&& 0xffff

/-- The words of a user key are `int16_t`. -/
def generateEncryptKey (userkey : List (BitVec 16)) : List ℕ :=
  let key := List.replicate KEY_LENGTH 0
  let key := fill (fun _ i => low16 (userkey.getD i 0).toInt) 0 CHUNK_SIZE key
  fill nextWord CHUNK_SIZE (KEY_LENGTH - CHUNK_SIZE) key

/-- The key is written from its last word to its first: `key[j--] = w` is a word in front. -/
def generateDecryptKey (userkey : List (BitVec 16)) : Option (List ℕ) := do
  let Z := fun k => (generateEncryptKey userkey).getD k 0
  let t1 ← inv (Z 0)
  let t2 := low16 (-Z 1)
  let t3 := low16 (-Z 2)
  let key := [t1, t2, t3, ← inv (Z 3)]
  let (key, k) ← (List.range 7).foldlM (fun (key, k) _ => do
    let key := Z k :: Z (k + 1) :: key
    let t1 ← inv (Z (k + 2))
    let t2 := low16 (-Z (k + 3))
    let t3 := low16 (-Z (k + 4))
    return (t1 :: t3 :: t2 :: (← inv (Z (k + 5))) :: key, k + 6)) (key, 4)
  let key := Z k :: Z (k + 1) :: key
  let t1 ← inv (Z (k + 2))
  let t2 := low16 (-Z (k + 3))
  let t3 := low16 (-Z (k + 4))
  return t1 :: t2 :: t3 :: (← inv (Z (k + 5))) :: key

variable {a x y s t i b fuel : ℕ} {userkey : List (BitVec 16)} {key : List ℕ}

theorem and_ffff (x : ℕ) : x &&& 0xffff = x % 0x10000 := Nat.and_two_pow_sub_one_eq_mod x 16

theorem low16_lt (z : ℤ) : low16 z < 0x10000 := by
  unfold low16
  omega

/-! ### Inverses -/

theorem prime_10001 : Nat.Prime 0x10001 := by norm_num

theorem coprime_10001 (hpos : 0 < x) (hx : x < 0x10000) : Nat.Coprime x 0x10001 :=
  Nat.Coprime.symm ((Nat.Prime.coprime_iff_not_dvd prime_10001).mpr
    (Nat.not_dvd_of_pos_of_lt hpos (hx.trans (by omega))))

/-- A coefficient with which the algorithm ends is too small for its negation to be cut off. -/
theorem low16_one_sub (h : Euclid a 0x10001 x 1 s t) (hx : 1 < x) (ha : a < 0x10000) :
    low16 (1 - t) = 0x10001 - t ∧ t < 0x10001 := by
  have hdet := h.det
  have hhalf : 2 * t ≤ x * t := Nat.mul_le_mul_right t hx
  have htwo : 1 < t := by
    by_contra hle
    have hdvd : ((0x10001 : ℕ) : ℤ) ∣ a * t + 1 := by
      have hsub := (Int.modEq_iff_dvd.mp h.right.symm)
      rwa [show (a * t - -(1 : ℕ) : ℤ) = a * t + 1 by push_cast; ring] at hsub
    have hge : 0x10001 ≤ a * t + 1 := Nat.le_of_dvd (Nat.succ_pos _) (by exact_mod_cast hdvd)
    have hat : a * t ≤ a * 1 := Nat.mul_le_mul_left a (by omega)
    omega
  unfold low16
  omega

/-- The loop of `inv` returns, without a division by zero or an overflow, and with an inverse. -/
theorem invLoop_spec (h : Euclid a 0x10001 x y s t) (ha : a < 0x10000) (hx : 1 < x) (hy : 1 < y)
    (hfuel : y ≤ fuel) :
    ∃ r, invLoop fuel x y s t = some r ∧ a * r ≡ 1 [MOD 0x10001] ∧ r ≤ 0x10001 := by
  have hmax : intMax = 2147483647 := rfl
  induction fuel generalizing x y s t with
  | zero => omega
  | succ fuel ih =>
    have hl := h.stepLeft
    have hmod : x % y < y := Nat.mod_lt x (by omega)
    have hne := hl.left_ne_zero (by omega)
    have hs := hl.left_le (by omega)
    have hdiv : div? x y = some (x / y) := if_neg (by omega)
    have hnat : nat? (s + x / y * t) = some (s + x / y * t) := nat?_eq_some (by omega)
    simp only [invLoop, hdiv, hnat, Option.bind_eq_bind, Option.bind_some]
    by_cases hx1 : x % y = 1
    · rw [if_pos hx1]
      rw [hx1] at hl
      exact ⟨_, rfl, hl.left_inverse, hs⟩
    · have hr := hl.stepRight
      have hmod' : y % (x % y) < x % y := Nat.mod_lt y (by omega)
      have hne' := hr.right_ne_zero hx1
      have ht := hr.right_le (by omega)
      have hdiv' : div? y (x % y) = some (y / (x % y)) := if_neg hne
      have hnat' : nat? (t + y / (x % y) * (s + x / y * t)) =
        some (t + y / (x % y) * (s + x / y * t)) := nat?_eq_some (by omega)
      rw [if_neg hx1]
      simp only [hdiv', hnat', Option.bind_some]
      by_cases hy1 : y % (x % y) = 1
      · rw [if_pos hy1]
        rw [hy1] at hr
        obtain ⟨hlow, hlt⟩ := low16_one_sub hr (by omega) ha
        exact ⟨_, rfl, hlow ▸ hr.right_inverse hlt.le, by omega⟩
      · rw [if_neg hy1]
        exact ih hr (by omega) (by omega) (by omega)

theorem inv_spec (hpos : 0 < x) (hx : x < 0x10000) :
    ∃ r, inv x = some r ∧ x * r ≡ 1 [MOD 0x10001] ∧ r < 0x10000 := by
  have hcop := coprime_10001 hpos hx
  obtain ⟨r, hrun, hmod, hle⟩ :
      ∃ r, inv x = some r ∧ x * r ≡ 1 [MOD 0x10001] ∧ r ≤ 0x10001 := by
    by_cases hx1 : x = 1
    · exact ⟨1, by rw [hx1]; rfl, by rw [hx1], by omega⟩
    · have h := Euclid.start hcop
      have hmod : 0x10001 % x < x := Nat.mod_lt _ hpos
      have hne := h.right_ne_zero hx1
      unfold inv
      rw [if_neg (by omega)]
      dsimp only
      by_cases hy1 : 0x10001 % x = 1
      · rw [if_pos hy1]
        rw [hy1] at h
        obtain ⟨hlow, hlt⟩ := low16_one_sub h (by omega) hx
        exact ⟨_, rfl, hlow ▸ h.right_inverse hlt.le, (low16_lt _).le.trans (Nat.le_succ _)⟩
      · rw [if_neg hy1]
        have hy : 1 < 0x10001 % x := Nat.lt_of_le_of_ne (Nat.pos_of_ne_zero hne) (Ne.symm hy1)
        exact invLoop_spec h hx (by omega) hy hmod.le
  refine ⟨r, hrun, hmod, ?_⟩
  -- the greatest residue is its own inverse, and `0x10001` is none
  by_contra hge
  have hcases : r = 0x10000 ∨ r = 0x10001 := by omega
  have hmod' : x * r % 0x10001 = 1 := hmod
  rcases hcases with rfl | rfl <;> omega

theorem inverse_unique (hx : x * y ≡ 1 [MOD 0x10001]) (ht : x * t ≡ 1 [MOD 0x10001])
    (hy : y < 0x10001) (hlt : t < 0x10001) : y = t := by
  refine Nat.ModEq.eq_of_lt_of_lt ?_ hy hlt
  calc y = y * 1 := (Nat.mul_one y).symm
    _ ≡ y * (x * t) [MOD 0x10001] := (ht.symm).mul_left y
    _ = x * y * t := by ring
    _ ≡ 1 * t [MOD 0x10001] := hx.mul_right t
    _ = t := Nat.one_mul t

theorem inv_eq_some (hx : x < 0x10000) : ∃ r, inv x = some r ∧ r < 0x10000 := by
  rcases Nat.eq_zero_or_pos x with rfl | hpos
  · exact ⟨0, rfl, by omega⟩
  · obtain ⟨r, hrun, -, hlt⟩ := inv_spec hpos hx
    exact ⟨r, hrun, hlt⟩

/-- Inverses come in pairs of words. -/
theorem inv_symm (x : ℕ) (hx : x < 0x10000) :
    ∃ y < 0x10000, inv x = some y ∧ inv y = some x ∧ (0 < x → x * y % 0x10001 = 1) := by
  rcases Nat.eq_zero_or_pos x with rfl | hpos
  · exact ⟨0, by omega, rfl, rfl, fun h => absurd h (Nat.lt_irrefl 0)⟩
  · obtain ⟨y, hrun, hmod, hlt⟩ := inv_spec hpos hx
    have hy : 0 < y := by
      refine Nat.pos_of_ne_zero fun hzero => ?_
      rw [hzero] at hmod
      rw [Nat.mul_zero] at hmod
      exact absurd hmod (by decide)
    obtain ⟨z, hrun', hmod', hlt'⟩ := inv_spec hy hlt
    have hz : z = x := inverse_unique hmod' (by rwa [Nat.mul_comm]) (by omega) (by omega)
    exact ⟨y, hlt, hrun, hz ▸ hrun', fun _ => hmod⟩

theorem inv_symm_three :
    ∃ y < 0x10000, inv 3 = some y ∧ inv y = some 3 ∧ (0 < 3 → 3 * y % 0x10001 = 1) :=
  inv_symm 3 (by decide)

/-! ### The schedule -/

theorem nextWord_lt (key : List ℕ) (i : ℕ) : nextWord key i < 0x10000 := by
  unfold nextWord
  dsimp only
  simp only [and_ffff]
  split_ifs <;> exact Nat.mod_lt _ (by omega)

theorem length_generateEncryptKey (userkey : List (BitVec 16)) :
    (generateEncryptKey userkey).length = KEY_LENGTH := by
  unfold generateEncryptKey
  rw [length_fill, length_fill, List.length_replicate]

theorem low16_toInt (w : BitVec 16) : low16 w.toInt = w.toNat := by
  have hlt := w.isLt
  unfold low16
  rw [BitVec.toInt_eq_toNat_cond]
  split_ifs <;> omega

/-- What the schedule gives each word, if it gives it to a word of the user key and to `nextWord`
of an array that has it. -/
theorem generateEncryptKey_induction {P : ℕ → ℕ → Prop}
    (huser : ∀ i < 8, P i (userkey.getD i 0).toNat)
    (hnext : ∀ i key, 8 ≤ i → i < 52 → (∀ j < i, P j (key.getD j 0)) → P i (nextWord key i)) :
    ∀ i < 52, P i ((generateEncryptKey userkey).getD i 0) := by
  refine fill_getD (s := CHUNK_SIZE) (n := KEY_LENGTH - CHUNK_SIZE) 0 ?_
    (fill_getD (s := 0) (n := CHUNK_SIZE) 0 ?_ ?_ ?_) hnext
  · rw [length_fill]
    decide
  · decide
  · intro j hj
    exact absurd hj (Nat.not_lt_zero j)
  · intro i key _ hi _
    rw [low16_toInt]
    exact huser i (by simpa [CHUNK_SIZE] using hi)

theorem generateEncryptKey_lt (userkey : List (BitVec 16)) (i : ℕ) :
    (generateEncryptKey userkey).getD i 0 < 0x10000 := by
  by_cases hi : i < 52
  · exact generateEncryptKey_induction (P := fun _ w => w < 0x10000)
      (fun i _ => (userkey.getD i 0).isLt) (fun i key _ _ _ => nextWord_lt key i) i hi
  · have hlen := length_generateEncryptKey userkey
    have hnone : (generateEncryptKey userkey)[i]? = none := List.getElem?_eq_none (by
      rw [hlen]
      exact Nat.le_of_not_lt hi)
    rw [List.getD_eq_getElem?_getD, hnone]
    decide

theorem testBit_join (hb : b < 16) (u v : ℕ) (hu : u < 0x10000) :
    ((u >>> 9 ||| v <<< 7) &&& 0xffff).testBit b =
      if b < 7 then u.testBit (9 + b) else v.testBit (b - 7) := by
  rw [show 0xffff = 2 ^ 16 - 1 by rfl, Nat.testBit_and, Nat.testBit_two_pow_sub_one,
    decide_eq_true hb, Bool.and_true, Nat.testBit_or, Nat.testBit_shiftRight,
    Nat.testBit_shiftLeft]
  split_ifs with h7
  · rw [decide_eq_false (by omega), Bool.false_and, Bool.or_false]
  · have hhigh : u < 2 ^ (9 + b) := by
      calc u < 2 ^ 16 := hu
        _ ≤ 2 ^ (9 + b) := Nat.pow_le_pow_right (by omega) (by omega)
    rw [Nat.testBit_lt_two_pow hhigh, decide_eq_true (by omega), Bool.false_or, Bool.true_and]

/-- Bit `b` of word `i` of the key, as a bit of the user key: word `i % 8` of it, after `i / 8`
rotations by 25 bits. -/
def sourceBit (i b : ℕ) : ℕ := (16 * (i % 8) + 25 * (i / 8) + b) % 128

/-- A word that is the slice of the user key at `i`. -/
def IsSlice (userkey : List (BitVec 16)) (i w : ℕ) : Prop :=
  w < 0x10000 ∧ ∀ b < 16, w.testBit b = bitAt userkey (sourceBit i b)

theorem isSlice_join {j k u v : ℕ} (hu : IsSlice userkey j u) (hv : IsSlice userkey k v)
    (hlow : ∀ b < 7, sourceBit j (9 + b) = sourceBit i b)
    (hhigh : ∀ b < 16, 7 ≤ b → sourceBit k (b - 7) = sourceBit i b) :
    IsSlice userkey i ((u >>> 9 ||| v <<< 7) &&& 0xffff) := by
  refine ⟨by rw [and_ffff]; exact Nat.mod_lt _ (by omega), ?_⟩
  intro b hb
  rw [testBit_join hb u v hu.1]
  split_ifs with h7
  · rw [hu.2 (9 + b) (by omega), hlow b h7]
  · rw [hv.2 (b - 7) (by omega), hhigh b hb (by omega)]

theorem sourceBit_mk {q j : ℕ} (hj : j < 8) (b : ℕ) :
    sourceBit (8 * q + j) b = (16 * j + 25 * q + b) % 128 := by
  have hmod : (8 * q + j) % 8 = j := by omega
  have hdiv : (8 * q + j) / 8 = q := by omega
  unfold sourceBit
  rw [hmod, hdiv]

/-- The word after the last word of a rotated key is its first word. -/
theorem isSlice_next {q j m k u v : ℕ} (hj : j < 8) (hm : m = (j + 1) % 8) (hk : k = (j + 2) % 8)
    (hu : IsSlice userkey (8 * q + m) u) (hv : IsSlice userkey (8 * q + k) v) :
    IsSlice userkey (8 * (q + 1) + j) ((u >>> 9 ||| v <<< 7) &&& 0xffff) := by
  refine isSlice_join hu hv ?_ ?_
  · intro b hb
    rw [sourceBit_mk (by omega), sourceBit_mk hj]
    omega
  · intro b hb h7
    rw [sourceBit_mk (by omega), sourceBit_mk hj]
    omega

theorem isSlice_nextWord (hge : 8 ≤ i) (hkey : ∀ j < i, IsSlice userkey j (key.getD j 0)) :
    IsSlice userkey i (nextWord key i) := by
  obtain ⟨q, j, hj, rfl⟩ : ∃ q j, j < 8 ∧ i = 8 * (q + 1) + j :=
    ⟨i / 8 - 1, i % 8, by omega, by omega⟩
  have hmod : (8 * (q + 1) + j) % 8 = j := by omega
  unfold nextWord CHUNK_SIZE
  dsimp only
  rw [hmod]
  split_ifs with h6 h7
  · rw [show 8 * (q + 1) + j - 7 = 8 * q + (j + 1) by omega,
      show 8 * (q + 1) + j - 6 = 8 * q + (j + 2) by omega]
    exact isSlice_next hj (by omega) (by omega) (hkey _ (by omega)) (hkey _ (by omega))
  · subst h7
    rw [show 8 * (q + 1) + 6 - 7 = 8 * q + 7 by omega,
      show 8 * (q + 1) + 6 - 14 = 8 * q + 0 by omega]
    exact isSlice_next hj rfl rfl (hkey _ (by omega)) (hkey _ (by omega))
  · obtain rfl : j = 7 := by omega
    rw [show 8 * (q + 1) + 7 - 15 = 8 * q + 0 by omega,
      show 8 * (q + 1) + 7 - 14 = 8 * q + 1 by omega]
    exact isSlice_next hj rfl rfl (hkey _ (by omega)) (hkey _ (by omega))

theorem generateEncryptKey_isSlice (userkey : List (BitVec 16)) :
    ∀ i < 52, IsSlice userkey i ((generateEncryptKey userkey).getD i 0) := by
  refine generateEncryptKey_induction ?_ fun i key hge _ hkey => isSlice_nextWord hge hkey
  intro i hi
  refine ⟨(userkey.getD i 0).isLt, ?_⟩
  intro b hb
  have hbit : sourceBit i b = 16 * i + b := by
    have hmk := sourceBit_mk (q := 0) hi b
    rw [Nat.mul_zero, Nat.zero_add] at hmk
    omega
  unfold bitAt
  rw [BitVec.testBit_toNat, hbit, show (16 * i + b) / 16 = i by omega,
    show (16 * i + b) % 16 = b by omega]

/-- The encryption key is made of the slices of a user key that is rotated by 25 bits for every
eight words. -/
theorem generateEncryptKey_testBit (userkey : List (BitVec 16)) (i b : ℕ) (hi : i < KEY_LENGTH)
    (hb : b < 16) : ((generateEncryptKey userkey).getD i 0).testBit b =
      bitAt userkey ((16 * (i % 8) + 25 * (i / 8) + b) % 128) :=
  (generateEncryptKey_isSlice userkey i hi).2 b hb

theorem generateEncryptKey_testBit_nine :
    ((generateEncryptKey [1, 2, 3, 4, 5, 6, 7, 8]).getD 9 0).testBit 7 =
      bitAt [1, 2, 3, 4, 5, 6, 7, (8 : BitVec 16)] 48 :=
  generateEncryptKey_testBit [1, 2, 3, 4, 5, 6, 7, 8] 9 7 (by decide) (by decide)

/-! ### The decryption key -/

def inverse (x : ℕ) : ℕ := (inv x).getD 0

theorem inv_eq_inverse (hx : x < 0x10000) : inv x = some (inverse x) := by
  obtain ⟨r, hrun, -⟩ := inv_eq_some hx
  unfold inverse
  rw [hrun]
  rfl

/-- The decryption key is the encryption key from its end, with inverses in the four words that
are not for the inner layer. -/
structure Inverted (Z D : List ℕ) : Prop where
  products : ∀ r ≤ 8, D.getD (6 * r) 0 = inverse (Z.getD (6 * (8 - r)) 0) ∧
    D.getD (6 * r + 3) 0 = inverse (Z.getD (6 * (8 - r) + 3) 0)
  ends : ∀ r, r = 0 ∨ r = 8 → D.getD (6 * r + 1) 0 = low16 (-Z.getD (6 * (8 - r) + 1) 0) ∧
    D.getD (6 * r + 2) 0 = low16 (-Z.getD (6 * (8 - r) + 2) 0)
  sums : ∀ r, 0 < r → r < 8 → D.getD (6 * r + 1) 0 = low16 (-Z.getD (6 * (8 - r) + 2) 0) ∧
    D.getD (6 * r + 2) 0 = low16 (-Z.getD (6 * (8 - r) + 1) 0)
  rest : ∀ r < 8, D.getD (6 * r + 4) 0 = Z.getD (6 * (7 - r) + 4) 0 ∧
    D.getD (6 * r + 5) 0 = Z.getD (6 * (7 - r) + 5) 0

theorem generateDecryptKey_spec (userkey : List (BitVec 16)) :
    ∃ D, generateDecryptKey userkey = some D ∧ D.length = KEY_LENGTH ∧
      Inverted (generateEncryptKey userkey) D := by
  have hinv : ∀ k, inv ((generateEncryptKey userkey).getD k 0) =
      some (inverse ((generateEncryptKey userkey).getD k 0)) := fun k =>
    inv_eq_inverse (generateEncryptKey_lt userkey k)
  unfold generateDecryptKey
  generalize generateEncryptKey userkey = Z at hinv ⊢
  simp only [hinv, List.range_succ, List.range_zero, List.nil_append, List.cons_append,
    List.foldlM_cons, List.foldlM_nil, Option.bind_eq_bind, Option.bind_some, Option.pure_def,
    Option.some.injEq, exists_eq_left', Nat.reduceAdd]
  refine ⟨rfl, ?_, ?_, ?_, ?_⟩
  · intro r hr
    interval_cases r <;> exact ⟨rfl, rfl⟩
  · rintro r (rfl | rfl) <;> exact ⟨rfl, rfl⟩
  · intro r hpos hr
    interval_cases r <;> exact ⟨rfl, rfl⟩
  · intro r hr
    interval_cases r <;> exact ⟨rfl, rfl⟩

end CppTricks.Crypt
