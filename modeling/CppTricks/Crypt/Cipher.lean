import CppTricks.Crypt.Key
import CppTricks.Foundation.RoundCipher
import Mathlib.Data.Nat.Bitwise

/-! `crypt.c`: the cipher on one chunk of eight bytes, and when its decryption gives the chunk
back. -/
namespace CppTricks.Crypt
open Foundation

/-- The multiplication of the cipher. The remainder `0x10000` becomes `0`, and a factor `0` does not
stand for it. -/
def mul (x k : ℕ) : ℕ := x * k % 0x10001 &&& 0xffff

structure Words where
  x1 : ℕ
  x2 : ℕ
  x3 : ℕ
  x4 : ℕ
deriving DecidableEq

/-- The body of the loop of `encrypt_decrypt`, from word `ik` of the key on. -/
def round (key : List ℕ) (ik : ℕ) (x : Words) : Words :=
  let x1 := mul x.x1 (key.getD ik 0)
  let x2 := (x.x2 + key.getD (ik + 1) 0) &&& 0xffff
  let x3 := (x.x3 + key.getD (ik + 2) 0) &&& 0xffff
  let x4 := mul x.x4 (key.getD (ik + 3) 0)
  let t2 := x1 ^^^ x3
  let t2 := mul t2 (key.getD (ik + 4) 0)
  let t1 := (t2 + (x2 ^^^ x4)) &&& 0xffff
  let t1 := mul t1 (key.getD (ik + 5) 0)
  let t2 := (t1 + t2) &&& 0xffff
  let x1 := x1 ^^^ t1
  let x4 := x4 ^^^ t2
  let t2 := t2 ^^^ x2
  let x2 := x3 ^^^ t1
  let x3 := t2
  ⟨x1, x2, x3, x4⟩

def rounds (key : List ℕ) (x : Words) (r : ℕ) : Words :=
  (List.range r).foldl (fun x i => round key (6 * i) x) x

/-- The words of one chunk, in the order in which they are stored. -/
def cryptWords (key : List ℕ) (x : Words) : Words :=
  let x := rounds key x CHUNK_SIZE
  let x1 := mul x.x1 (key.getD 48 0)
  let x3 := (x.x3 + key.getD 49 0) &&& 0xffff
  let x2 := (x.x2 + key.getD 50 0) &&& 0xffff
  let x4 := mul x.x4 (key.getD 51 0)
  ⟨x1, x3, x2, x4⟩

/-- `((unsigned int)c) & 0xff` of a `signed char`. -/
def byte (c : BitVec 8) : ℕ := (c.signExtend 32 &&& 0xff#32).toNat

def load (plain : List (BitVec 8)) : Words :=
  let word := fun i => byte (plain.getD i 0) ||| byte (plain.getD (i + 1) 0) <<< 8
  ⟨word 0, word 2, word 4, word 6⟩

def store (x : Words) : List (BitVec 8) :=
  [x.x1, x.x2, x.x3, x.x4].flatMap fun w => [BitVec.ofNat 8 w, BitVec.ofNat 8 (w >>> 8)]

def cryptChunk (key : List ℕ) (plain : List (BitVec 8)) : List (BitVec 8) :=
  store (cryptWords key (load plain))

/-! ### The layers of a round -/

def group (key : List ℕ) (r : ℕ) : ℕ × ℕ × ℕ × ℕ :=
  (key.getD (6 * r) 0, key.getD (6 * r + 1) 0, key.getD (6 * r + 2) 0, key.getD (6 * r + 3) 0)

def inner (key : List ℕ) (r : ℕ) : ℕ × ℕ := (key.getD (6 * r + 4) 0, key.getD (6 * r + 5) 0)

def mix (k : ℕ × ℕ × ℕ × ℕ) (x : Words) : Words :=
  ⟨mul x.x1 k.1, (x.x2 + k.2.1) &&& 0xffff, (x.x3 + k.2.2.1) &&& 0xffff, mul x.x4 k.2.2.2⟩

def shake (l : ℕ × ℕ) (x : Words) : Words :=
  let t2 := mul (x.x1 ^^^ x.x3) l.1
  let t1 := mul ((t2 + (x.x2 ^^^ x.x4)) &&& 0xffff) l.2
  let t2 := (t1 + t2) &&& 0xffff
  ⟨x.x1 ^^^ t1, t2 ^^^ x.x2, x.x3 ^^^ t1, x.x4 ^^^ t2⟩

def swap (x : Words) : Words := ⟨x.x1, x.x3, x.x2, x.x4⟩

/-- The inner layer changes none of the differences that it is computed from. -/
theorem shake_shake (l : ℕ × ℕ) (x : Words) : shake l (shake l x) = x := by
  have hdiff : ∀ a b t : ℕ, a ^^^ t ^^^ (b ^^^ t) = a ^^^ b := fun a b t => by
    rw [Nat.xor_assoc, Nat.xor_comm b t, Nat.xor_xor_cancel_left]
  have hdiff' : ∀ a b t : ℕ, t ^^^ a ^^^ (b ^^^ t) = a ^^^ b := fun a b t => by
    rw [Nat.xor_comm t a, hdiff]
  unfold shake
  dsimp only
  simp only [hdiff, hdiff', Nat.xor_xor_cancel_left, Nat.xor_xor_cancel_right]

def idea : RoundCipher (ℕ × ℕ × ℕ × ℕ) (ℕ × ℕ) Words where
  mix := mix
  shake := shake
  swap := swap
  shake_shake := shake_shake
  swap_swap := fun _ => rfl

variable {key Z D : List ℕ} {x y : Words} {k r : ℕ}

theorem rounds_eq_state (key : List ℕ) (x : Words) (r : ℕ) :
    rounds key x r = idea.state (group key) (inner key) x r := by
  induction r with
  | zero => rfl
  | succ r ih =>
    unfold rounds at ih ⊢
    rw [List.range_succ, List.foldl_append, List.foldl_cons, List.foldl_nil, ih]
    rfl

theorem cryptWords_eq_crypt (key : List ℕ) (x : Words) :
    cryptWords key x = idea.crypt 8 (group key) (inner key) x := by
  unfold RoundCipher.crypt cryptWords CHUNK_SIZE
  rw [rounds_eq_state]
  rfl

/-! ### Words of 16 bits -/

structure Words.Valid (x : Words) : Prop where
  x1 : x.x1 < 0x10000
  x2 : x.x2 < 0x10000
  x3 : x.x3 < 0x10000
  x4 : x.x4 < 0x10000

theorem and_ffff_lt (x : ℕ) : x &&& 0xffff < 0x10000 := by
  rw [and_ffff]
  exact Nat.mod_lt x (by omega)

theorem mul_lt (x k : ℕ) : mul x k < 0x10000 := and_ffff_lt _

theorem valid_mix (k : ℕ × ℕ × ℕ × ℕ) (x : Words) : (mix k x).Valid :=
  ⟨mul_lt _ _, and_ffff_lt _, and_ffff_lt _, mul_lt _ _⟩

theorem Words.Valid.swap (h : x.Valid) : (swap x).Valid := ⟨h.x1, h.x3, h.x2, h.x4⟩

theorem Words.Valid.shake (h : x.Valid) (l : ℕ × ℕ) : (shake l x).Valid := by
  have hxor : ∀ {a b : ℕ}, a < 0x10000 → b < 0x10000 → a ^^^ b < 0x10000 :=
    fun ha hb => Nat.xor_lt_two_pow (n := 16) ha hb
  exact ⟨hxor h.x1 (mul_lt _ _), hxor (and_ffff_lt _) h.x2, hxor h.x3 (mul_lt _ _),
    hxor h.x4 (and_ffff_lt _)⟩

theorem valid_state (h : x.Valid) (key : List ℕ) (r : ℕ) :
    (idea.state (group key) (inner key) x r).Valid := by
  induction r with
  | zero => exact h
  | succ r _ => exact ((valid_mix _ _).shake _).swap

/-! ### Multiplications that cannot be undone -/

/-- A factor that the product with `k` does not determine, as `inv` undoes it. -/
def Exceptional (x k : ℕ) : Prop := k = 0 ∧ x ≠ 0 ∨ x * k % 0x10001 = 0x10000

instance (x k : ℕ) : Decidable (Exceptional x k) := inferInstanceAs (Decidable (_ ∨ _))

theorem mul_mul_inverse {x : ℕ} (hx : x < 0x10000) (hk : k < 0x10000) (h : ¬Exceptional x k) :
    mul (mul x k) (inverse k) = x := by
  unfold Exceptional at h
  push Not at h
  obtain ⟨hzero, hmod⟩ := h
  rcases Nat.eq_zero_or_pos k with rfl | hpos
  · rw [hzero rfl]
    rfl
  · obtain ⟨r, hrun, hinv, -⟩ := inv_spec hpos hk
    have hr : inverse k = r := by
      unfold inverse
      rw [hrun]
      rfl
    have hlt : x * k % 0x10001 < 0x10001 := Nat.mod_lt _ (by omega)
    have hprod : mul x k = x * k % 0x10001 := by
      unfold mul
      rw [and_ffff]
      exact Nat.mod_eq_of_lt (by omega)
    have hback : x * k % 0x10001 * r % 0x10001 = x := by
      calc x * k % 0x10001 * r % 0x10001 = x * k * r % 0x10001 := Nat.mod_mul_mod ..
        _ = x * (k * r) % 0x10001 := by rw [Nat.mul_assoc]
        _ = x * 1 % 0x10001 := hinv.mul_left x
        _ = x := by omega
    rw [hprod, hr, mul, hback, and_ffff]
    exact Nat.mod_eq_of_lt hx

/-- The words `x1` and `x4` meet no factor that cannot be undone, in the rounds or after them. -/
def Clean (key : List ℕ) (x : Words) : Prop :=
  ∀ r ≤ CHUNK_SIZE, ¬Exceptional (rounds key x r).x1 (key.getD (6 * r) 0) ∧
    ¬Exceptional (rounds key x r).x4 (key.getD (6 * r + 3) 0)

instance (key : List ℕ) (x : Words) : Decidable (Clean key x) :=
  inferInstanceAs (Decidable (∀ r ≤ CHUNK_SIZE, _))

theorem sub_of_add {x : ℕ} (hx : x < 0x10000) (k : ℕ) :
    ((x + k) &&& 0xffff) + low16 (-k) &&& 0xffff = x := by
  rw [and_ffff, and_ffff]
  unfold low16
  omega

/-- A key whose sums are for the words that the swap exchanges. -/
def swapKey (k : ℕ × ℕ × ℕ × ℕ) : ℕ × ℕ × ℕ × ℕ := (k.1, k.2.2.1, k.2.1, k.2.2.2)

theorem mix_mix {k d : ℕ × ℕ × ℕ × ℕ} (hx : x.Valid) (h1 : mul (mul x.x1 k.1) d.1 = x.x1)
    (h2 : d.2.1 = low16 (-k.2.1)) (h3 : d.2.2.1 = low16 (-k.2.2.1))
    (h4 : mul (mul x.x4 k.2.2.2) d.2.2.2 = x.x4) : mix d (mix k x) = x := by
  unfold mix
  dsimp only
  rw [h1, h2, h3, h4, sub_of_add hx.x2, sub_of_add hx.x3]

/-- The decryption key undoes the encryption key along a clean run. -/
theorem Inverted.undoes (h : Inverted Z D) (hZ : ∀ i, Z.getD i 0 < 0x10000) (hx : x.Valid)
    (hclean : Clean Z x) : idea.Undoes 8 (group Z) (group D) (inner Z) x := by
  have hmul : ∀ r ≤ 8,
      mul (mul (idea.state (group Z) (inner Z) x r).x1 (group Z r).1) (group D (8 - r)).1 =
        (idea.state (group Z) (inner Z) x r).x1 ∧
      mul (mul (idea.state (group Z) (inner Z) x r).x4 (group Z r).2.2.2)
        (group D (8 - r)).2.2.2 = (idea.state (group Z) (inner Z) x r).x4 := by
    intro r hr
    have hvalid := valid_state hx Z r
    obtain ⟨hc1, hc4⟩ := hclean r hr
    obtain ⟨hg1, hg4⟩ := h.products (8 - r) (Nat.sub_le 8 r)
    rw [Nat.sub_sub_self hr] at hg1 hg4
    rw [rounds_eq_state] at hc1 hc4
    unfold group at hvalid hc1 hc4 ⊢
    dsimp only
    rw [hg1, hg4]
    exact ⟨mul_mul_inverse hvalid.x1 (hZ _) hc1, mul_mul_inverse hvalid.x4 (hZ _) hc4⟩
  refine ⟨?_, ?_, ?_⟩
  · obtain ⟨h1, h4⟩ := hmul 8 (Nat.le_refl 8)
    obtain ⟨h2, h3⟩ := h.ends 0 (.inl rfl)
    exact mix_mix (valid_state hx Z 8).swap h1 h2 h3 h4
  · intro r hpos hr
    obtain ⟨h1, h4⟩ := hmul r hr.le
    obtain ⟨h2, h3⟩ := h.sums (8 - r) (by omega) (by omega)
    rw [Nat.sub_sub_self hr.le] at h2 h3
    exact mix_mix (k := swapKey (group Z r)) (valid_state hx Z r).swap h1 h2 h3 h4
  · obtain ⟨h1, h4⟩ := hmul 0 (Nat.zero_le 8)
    obtain ⟨h2, h3⟩ := h.ends 8 (.inr rfl)
    exact mix_mix hx h1 h2 h3 h4

theorem cryptWords_cryptWords (h : Inverted Z D) (hZ : ∀ i, Z.getD i 0 < 0x10000) (hx : x.Valid)
    (hclean : Clean Z x) : cryptWords D (cryptWords Z x) = x := by
  have hlayers : ∀ r < 8, inner D r = inner Z (8 - 1 - r) := by
    intro r hr
    obtain ⟨h4, h5⟩ := h.rest r hr
    unfold inner
    rw [h4, h5]
  rw [cryptWords_eq_crypt, cryptWords_eq_crypt, RoundCipher.crypt_congr_layers hlayers]
  exact (h.undoes hZ hx hclean).crypt_crypt (by omega)

/-! ### Chunks -/

theorem byte_eq (c : BitVec 8) : byte c = c.toNat := by
  have hlt := c.isLt
  unfold byte
  rw [BitVec.toNat_and, show (0xff#32).toNat = 2 ^ 8 - 1 by rfl, Nat.and_two_pow_sub_one_eq_mod,
    BitVec.toNat_signExtend, BitVec.toNat_setWidth]
  split_ifs <;> omega

theorem or_shiftLeft_eq {a : ℕ} (ha : a < 256) (b : ℕ) : a ||| b <<< 8 = a + 256 * b := by
  rw [Nat.or_comm, ← Nat.shiftLeft_add_eq_or_of_lt ha, Nat.shiftLeft_eq]
  omega

theorem valid_load (plain : List (BitVec 8)) : (load plain).Valid := by
  have hword : ∀ i, byte (plain.getD i 0) ||| byte (plain.getD (i + 1) 0) <<< 8 < 0x10000 := by
    intro i
    have hlo := (plain.getD i 0).isLt
    have hhi := (plain.getD (i + 1) 0).isLt
    rw [byte_eq, byte_eq, or_shiftLeft_eq hlo]
    omega
  exact ⟨hword 0, hword 2, hword 4, hword 6⟩

theorem length_store (x : Words) : (store x).length = 8 := rfl

theorem load_store (hx : x.Valid) : load (store x) = x := by
  have hword : ∀ w < 0x10000,
      byte (BitVec.ofNat 8 w) ||| byte (BitVec.ofNat 8 (w >>> 8)) <<< 8 = w := by
    intro w hw
    rw [byte_eq, byte_eq, or_shiftLeft_eq (BitVec.ofNat 8 w).isLt, BitVec.toNat_ofNat,
      BitVec.toNat_ofNat, Nat.shiftRight_eq_div_pow]
    omega
  exact congr (congr (congr (congrArg Words.mk (hword _ hx.x1)) (hword _ hx.x2))
    (hword _ hx.x3)) (hword _ hx.x4)

theorem store_load {plain : List (BitVec 8)} (h : plain.length = 8) :
    store (load plain) = plain := by
  have hbytes : ∀ a b : BitVec 8, BitVec.ofNat 8 (byte a ||| byte b <<< 8) = a ∧
      BitVec.ofNat 8 ((byte a ||| byte b <<< 8) >>> 8) = b := by
    intro a b
    have ha := a.isLt
    have hb := b.isLt
    rw [byte_eq, byte_eq, or_shiftLeft_eq ha, Nat.shiftRight_eq_div_pow]
    constructor
    · refine BitVec.eq_of_toNat_eq ?_
      rw [BitVec.toNat_ofNat]
      omega
    · refine BitVec.eq_of_toNat_eq ?_
      rw [BitVec.toNat_ofNat]
      omega
  match plain, h with
  | [c0, c1, c2, c3, c4, c5, c6, c7], _ =>
    unfold store load
    simp only [List.flatMap_cons, List.flatMap_nil, List.getD_cons_zero, List.getD_cons_succ,
      List.cons_append, List.nil_append, Nat.reduceAdd, hbytes]

theorem cryptChunk_cryptChunk {plain : List (BitVec 8)} (h : Inverted Z D)
    (hZ : ∀ i, Z.getD i 0 < 0x10000) (hlen : plain.length = 8) (hclean : Clean Z (load plain)) :
    cryptChunk D (cryptChunk Z plain) = plain := by
  have hvalid : (cryptWords Z (load plain)).Valid := by
    rw [cryptWords_eq_crypt]
    exact valid_mix _ _
  unfold cryptChunk
  rw [load_store hvalid, cryptWords_cryptWords h hZ (valid_load plain) hclean, store_load hlen]

/-! ### Collisions -/

theorem mul_collides (hk : k < 0x10000) (hne : k ≠ 1) :
    ∃ x < 0x10000, x ≠ 0 ∧ mul 0 k = mul x k := by
  have hzero : mul 0 k = 0 := by
    unfold mul
    rw [Nat.zero_mul]
    rfl
  rcases Nat.eq_zero_or_pos k with rfl | hpos
  · exact ⟨1, by omega, by omega, rfl⟩
  · obtain ⟨r, -, hinv, hr⟩ := inv_spec hpos hk
    have hmod : k * r % 0x10001 = 1 := hinv
    have hr0 : r ≠ 0 := by
      rintro rfl
      omega
    have hr1 : r ≠ 1 := by
      rintro rfl
      omega
    have hprod : (0x10001 - r) * k % 0x10001 = 0x10000 := by
      have hle : k * r ≤ k * 0x10001 := Nat.mul_le_mul_left k (by omega)
      rw [Nat.mul_comm, Nat.mul_sub]
      omega
    refine ⟨0x10001 - r, by omega, by omega, ?_⟩
    rw [hzero, mul, hprod]
    rfl

theorem mix_collides {k : ℕ × ℕ × ℕ × ℕ} (h1 : k.1 < 0x10000) (h4 : k.2.2.2 < 0x10000)
    (hne : k.1 ≠ 1 ∨ k.2.2.2 ≠ 1) :
    ∃ x y : Words, x.Valid ∧ y.Valid ∧ x ≠ y ∧ mix k x = mix k y := by
  have hpos : (0 : ℕ) < 0x10000 := by omega
  rcases hne with hne | hne
  · obtain ⟨w, hw, hw0, heq⟩ := mul_collides h1 hne
    refine ⟨⟨0, 0, 0, 0⟩, ⟨w, 0, 0, 0⟩, ⟨hpos, hpos, hpos, hpos⟩, ⟨hw, hpos, hpos, hpos⟩, ?_, ?_⟩
    · exact fun h => hw0 (congrArg Words.x1 h).symm
    · unfold mix
      rw [heq]
  · obtain ⟨w, hw, hw0, heq⟩ := mul_collides h4 hne
    refine ⟨⟨0, 0, 0, 0⟩, ⟨0, 0, 0, w⟩, ⟨hpos, hpos, hpos, hpos⟩, ⟨hpos, hpos, hpos, hw⟩, ?_, ?_⟩
    · exact fun h => hw0 (congrArg Words.x4 h).symm
    · unfold mix
      rw [heq]

theorem mul_one_of_lt {x : ℕ} (hx : x < 0x10000) : mul x 1 = x := by
  unfold mul
  rw [and_ffff]
  omega

/-- Without a multiplication the first layer goes to every state. -/
theorem mix_surjective {k : ℕ × ℕ × ℕ × ℕ} (h1 : k.1 = 1) (h4 : k.2.2.2 = 1) (hy : y.Valid) :
    ∃ x : Words, x.Valid ∧ mix k x = y := by
  have hadd : ∀ w < 0x10000, ∀ k : ℕ, ((w + low16 (-k)) &&& 0xffff) + k &&& 0xffff = w := by
    intro w hw k
    rw [and_ffff, and_ffff]
    unfold low16
    omega
  refine ⟨⟨y.x1, (y.x2 + low16 (-k.2.1)) &&& 0xffff, (y.x3 + low16 (-k.2.2.1)) &&& 0xffff, y.x4⟩,
    ⟨hy.x1, and_ffff_lt _, and_ffff_lt _, hy.x4⟩, ?_⟩
  unfold mix
  dsimp only
  rw [h1, h4, mul_one_of_lt hy.x1, mul_one_of_lt hy.x4, hadd _ hy.x2, hadd _ hy.x3]

/-- The word that multiplies `x4` in the second round is not `1` when it is in the first. -/
theorem generateEncryptKey_nine (userkey : List (BitVec 16))
    (h : (generateEncryptKey userkey).getD 3 0 = 1) :
    (generateEncryptKey userkey).getD 9 0 ≠ 1 := by
  intro h9
  have hbit3 := (generateEncryptKey_isSlice userkey 3 (by omega)).2 0 (by omega)
  have hbit9 := (generateEncryptKey_isSlice userkey 9 (by omega)).2 7 (by omega)
  rw [show sourceBit 9 7 = sourceBit 3 0 by rfl, ← hbit3, h, h9] at hbit9
  exact absurd hbit9 (by decide)

theorem cryptWords_collides (userkey : List (BitVec 16)) : ∃ x y : Words, x.Valid ∧ y.Valid ∧
    x ≠ y ∧ cryptWords (generateEncryptKey userkey) x =
      cryptWords (generateEncryptKey userkey) y := by
  have hZ := generateEncryptKey_lt userkey
  have hnine := generateEncryptKey_nine userkey
  generalize generateEncryptKey userkey = Z at hZ hnine ⊢
  by_cases hone : (group Z 0).1 = 1 ∧ (group Z 0).2.2.2 = 1
  · -- the first round is one-to-one, and the second one is not
    obtain ⟨h1, h4⟩ := hone
    obtain ⟨x, y, hx, hy, hne, heq⟩ := mix_collides (k := group Z 1) (hZ _) (hZ _) (.inr (hnine h4))
    have hback : ∀ z : Words, z.Valid →
        ∃ u : Words, u.Valid ∧ idea.state (group Z) (inner Z) u 1 = z := by
      intro z hz
      obtain ⟨u, hu, hmix⟩ := mix_surjective h1 h4 (hz.swap.shake (inner Z 0))
      exact ⟨u, hu, RoundCipher.round_eq (r := 0) hmix⟩
    obtain ⟨u, hu, hux⟩ := hback x hx
    obtain ⟨v, hv, hvy⟩ := hback y hy
    refine ⟨u, v, hu, hv, ?_, ?_⟩
    · rintro rfl
      exact hne (hux.symm.trans hvy)
    · rw [cryptWords_eq_crypt, cryptWords_eq_crypt]
      refine RoundCipher.crypt_congr (r := 2) (RoundCipher.state_succ_congr ?_) (by omega)
      rw [hux, hvy]
      exact heq
  · obtain ⟨x, y, hx, hy, hne, heq⟩ := mix_collides (k := group Z 0) (hZ _) (hZ _)
      (not_and_or.mp hone)
    refine ⟨x, y, hx, hy, hne, ?_⟩
    rw [cryptWords_eq_crypt, cryptWords_eq_crypt]
    exact RoundCipher.crypt_congr (r := 1) (RoundCipher.state_succ_congr (r := 0) heq) (by omega)

/-- Under every user key two chunks have the same cipher text. -/
theorem chunk_collides (userkey : List (BitVec 16)) : ∃ plain plain' : List (BitVec 8),
    plain.length = CHUNK_SIZE ∧ plain'.length = CHUNK_SIZE ∧ plain ≠ plain' ∧
      cryptChunk (generateEncryptKey userkey) plain =
        cryptChunk (generateEncryptKey userkey) plain' := by
  obtain ⟨x, y, hx, hy, hne, heq⟩ := cryptWords_collides userkey
  refine ⟨store x, store y, length_store x, length_store y, ?_, ?_⟩
  · intro h
    refine hne ?_
    rw [← load_store hx, h, load_store hy]
  · unfold cryptChunk
    rw [load_store hx, load_store hy, heq]

end CppTricks.Crypt
