import CppTricks.Crypt.Cipher

/-! `crypt.c`: the program, as a change of the files. -/
namespace CppTricks.Crypt
open Foundation

inductive Action
  | ENCRYPT
  | DECRYPT
deriving DecidableEq

/-- A file that does not take all it is given: how many calls of `fwrite` go through, and how many
bytes arrive. What a buffer hides from `fwrite` is only met by `fclose`, which nobody checks. -/
structure Loss where
  calls : ℕ
  bytes : ℕ

/-- The file that a path names, the contents of the files that can be read, and which files can be
opened for writing and take what is written to them. -/
structure Disk (F : Type) where
  locate : String → F
  files : F → Option (List (BitVec 8))
  writable : F → Bool
  loss : F → Option Loss

variable {F : Type} [DecidableEq F]

namespace Disk

def write (d : Disk F) (f : F) (data : List (BitVec 8)) : Disk F :=
  { d with files := fun g => if g = f then some data else d.files g }

/-- Whether each chunk is written, and the disk after `fclose`. -/
def put (d : Disk F) (f : F) (cryptList : List (List (BitVec 8))) : Bool × Disk F :=
  match d.loss f with
  | none => (true, d.write f cryptList.flatten)
  | some loss => (cryptList.length ≤ loss.calls,
      d.write f ((cryptList.take (loss.calls + 1)).flatten.take loss.bytes))

/-- The path can be written to, and nothing is lost there. -/
def Takes (d : Disk F) (path : String) : Prop :=
  d.writable (d.locate path) = true ∧ d.loss (d.locate path) = none

end Disk

structure Exit (F : Type) where
  code : ℕ
  message : String
  disk : Disk F

/-- Word `i` of the key file in the order of a little endian machine. -/
def readUserkey (data : List (BitVec 8)) : List (BitVec 16) :=
  (List.range 8).map fun i => data.getD (2 * i + 1) 0 ++ data.getD (2 * i) 0

/-- The chunks of a file of which `nread` bytes are read. -/
def readInputData (textLen nread : ℕ) (data : List (BitVec 8)) :
    Except String (List (List (BitVec 8))) :=
  if nread < textLen then
    let textData := data.take CHUNK_SIZE
    if textData.length ≠ CHUNK_SIZE then throw "Failed reading text from input file\n"
    else do
      let rest ← readInputData textLen (nread + CHUNK_SIZE) (data.drop CHUNK_SIZE)
      return textData :: rest
  else return []
termination_by textLen - nread
decreasing_by
  have hsize : CHUNK_SIZE = 8 := rfl
  omega

def encrypt_decrypt (plainList : List (List (BitVec 8))) (key : List ℕ) (plainLength : ℤ) :
    Except String (List (List (BitVec 8))) :=
  if plainLength.tmod CHUNK_SIZE ≠ 0 then
    throw ("Invalid encryption: length of plain must be an even multiple of " ++
      toString CHUNK_SIZE ++ " but is " ++ toString plainLength ++ "\n")
  else return plainList.map (cryptChunk key)

def parseAction (arg : String) : Option Action :=
  if arg.toList.take 7 = "encrypt".toList then some .ENCRYPT
  else if arg.toList.take 7 = "decrypt".toList then some .DECRYPT
  else none

/-- The key that the program works with. -/
def keyOf (a : Action) (userkey : List (BitVec 16)) : Option (List ℕ) :=
  match a with
  | .ENCRYPT => some (generateEncryptKey userkey)
  | .DECRYPT => generateDecryptKey userkey

/-- The length of the file is converted to `int`. -/
def cryptData (key : List ℕ) (data : List (BitVec 8)) : Except String (List (List (BitVec 8))) := do
  let textList ← readInputData data.length 0 data
  encrypt_decrypt textList key (toInt data.length)

/-- The program after its arguments are read and its files opened. `none` is undefined. -/
def cryptFiles (a : Action) (inFile outFile : String) (keyData : List (BitVec 8)) (d : Disk F) :
    Option (Exit F) := do
  if keyData.length ≠ 16 then
    return ⟨1, "Invalid user key file length " ++ toString keyData.length ++ ", must be 16\n", d⟩
  let userkey := readUserkey keyData
  let key ← keyOf a userkey
  let data := (d.files (d.locate inFile)).getD []
  let textLen := data.length
  if textLen % CHUNK_SIZE ≠ 0 then
    return ⟨1, "Invalid input file length " ++ toString textLen ++
      ", must be evenly divisible by " ++ toString CHUNK_SIZE ++ "\n", d⟩
  match cryptData key data with
  | .error message => return ⟨1, message, d⟩
  | .ok cryptList =>
    let (written, d) := d.put (d.locate outFile) cryptList
    if written then return ⟨0, "", d⟩
    else return ⟨1, "Failed writing crypt to " ++ outFile ++ "\n", d⟩

/-- The output file is emptied when it is opened, before the key is read. -/
def main (argv : List String) (d : Disk F) : Option (Exit F) :=
  match argv with
  | [_, action, inFile, outFile, keyFile] =>
    match parseAction action with
    | none => some ⟨1, "The action specified ('" ++ action ++
        "') is not valid. Must be either 'encrypt' or 'decrypt'\n", d⟩
    | some a =>
      if d.files (d.locate inFile) = none then
        some ⟨1, "Unable to open " ++ inFile ++ " for reading\n", d⟩
      else if ¬d.writable (d.locate outFile) then
        some ⟨1, "Unable to open " ++ outFile ++ " for writing\n", d⟩
      else
        let d := d.write (d.locate outFile) []
        match d.files (d.locate keyFile) with
        | none => some ⟨1, "Unable to open key file " ++ keyFile ++ " for reading\n", d⟩
        | some keyData => cryptFiles a inFile outFile keyData d
  | argv => some ⟨1, "usage: " ++ argv.headD "(null)" ++
      " <encrypt|decrypt> <file.in> <file.out> <key.file>\n", d⟩

variable {d : Disk F} {inFile outFile : String} {keyData : List (BitVec 8)} {key : List ℕ}
  {chunks : List (List (BitVec 8))} {a : Action}

/-! ### Reading -/

theorem readInputData_flatten (h : ∀ c ∈ chunks, c.length = CHUNK_SIZE) (nread : ℕ) :
    readInputData (nread + chunks.flatten.length) nread chunks.flatten = .ok chunks := by
  induction chunks generalizing nread with
  | nil =>
    rw [readInputData]
    exact if_neg (Nat.lt_irrefl _)
  | cons c chunks ih =>
    have hc : c.length = CHUNK_SIZE := h c List.mem_cons_self
    have hsize : CHUNK_SIZE = 8 := rfl
    have hlen : (c :: chunks).flatten.length = CHUNK_SIZE + chunks.flatten.length := by
      rw [List.flatten_cons, List.length_append, hc]
    have hrest := ih (fun c hmem => h c (List.mem_cons_of_mem _ hmem)) (nread + CHUNK_SIZE)
    rw [readInputData, if_pos (by omega), List.flatten_cons, List.take_left' hc,
      List.drop_left' hc, if_neg (not_not.mpr hc), List.length_append, hc, ← Nat.add_assoc, hrest]
    rfl

theorem exists_chunks (data : List (BitVec 8)) (h : data.length % CHUNK_SIZE = 0) :
    ∃ chunks : List (List (BitVec 8)), chunks.flatten = data ∧
      ∀ c ∈ chunks, c.length = CHUNK_SIZE := by
  have hsize : CHUNK_SIZE = 8 := rfl
  obtain ⟨n, hn⟩ : ∃ n, data.length = CHUNK_SIZE * n :=
    ⟨_, (Nat.mul_div_cancel' (Nat.dvd_of_mod_eq_zero h)).symm⟩
  clear h
  induction n generalizing data with
  | zero => exact ⟨[], (List.length_eq_zero_iff.mp hn).symm, fun c hc => absurd hc List.not_mem_nil⟩
  | succ n ih =>
    have hdrop : (data.drop CHUNK_SIZE).length = CHUNK_SIZE * n := by
      rw [List.length_drop, hn, Nat.mul_succ, Nat.add_sub_cancel]
    obtain ⟨chunks, hflat, hlen⟩ := ih (data.drop CHUNK_SIZE) hdrop
    refine ⟨data.take CHUNK_SIZE :: chunks, ?_, ?_⟩
    · rw [List.flatten_cons, hflat, List.take_append_drop]
    · rw [List.forall_mem_cons]
      exact ⟨List.length_take_of_le (by rw [hn, Nat.mul_succ]; exact Nat.le_add_left _ _), hlen⟩

theorem encrypt_decrypt_eq_ok (key : List ℕ) {n : ℕ} (h : n % CHUNK_SIZE = 0) :
    encrypt_decrypt chunks key (toInt n) = .ok (chunks.map (cryptChunk key)) := by
  have hsize : CHUNK_SIZE = 8 := rfl
  have hdvd : (8 : ℤ) ∣ toInt n := by
    have hsub : ((4294967296 : ℕ) : ℤ) ∣ toInt n - n := Int.dvd_bmod_sub_self
    rw [hsize] at h
    omega
  unfold encrypt_decrypt
  rw [if_neg]
  · rfl
  · rw [hsize]
    exact not_not.mpr (Int.tmod_eq_zero_of_dvd hdvd)

theorem length_flatten_map_cryptChunk (key : List ℕ) (h : ∀ c ∈ chunks, c.length = CHUNK_SIZE) :
    (chunks.map (cryptChunk key)).flatten.length = chunks.flatten.length := by
  induction chunks with
  | nil => rfl
  | cons c chunks ih =>
    rw [List.forall_mem_cons] at h
    rw [List.map_cons, List.flatten_cons, List.flatten_cons, List.length_append,
      List.length_append, ih h.2, h.1]
    rfl

/-! ### Runs -/

theorem parseAction_encrypt : parseAction "encrypt" = some .ENCRYPT := by decide

theorem parseAction_decrypt : parseAction "decrypt" = some .DECRYPT := by decide

theorem exists_keyOf (a : Action) (userkey : List (BitVec 16)) :
    ∃ key, keyOf a userkey = some key := by
  cases a with
  | ENCRYPT => exact ⟨_, rfl⟩
  | DECRYPT =>
    obtain ⟨D, hD, -⟩ := generateDecryptKey_spec userkey
    exact ⟨D, hD⟩

theorem cryptData_flatten (key : List ℕ) (h : ∀ c ∈ chunks, c.length = CHUNK_SIZE) :
    chunks.flatten.length % CHUNK_SIZE = 0 ∧
      cryptData key chunks.flatten = .ok (chunks.map (cryptChunk key)) := by
  have hmod : chunks.flatten.length % CHUNK_SIZE = 0 := by
    rw [List.length_flatten, List.map_congr_left h, List.map_const', List.sum_replicate_nat]
    exact Nat.mul_mod_left _ _
  have hread := readInputData_flatten h 0
  rw [Nat.zero_add] at hread
  refine ⟨hmod, ?_⟩
  unfold cryptData
  have hbind : ∀ f : List (List (BitVec 8)) → Except String (List (List (BitVec 8))),
      (Except.ok chunks >>= f) = f chunks := fun _ => rfl
  rw [hread, hbind]
  exact encrypt_decrypt_eq_ok key hmod

theorem cryptFiles_eq (hlen : keyData.length = 16) (hkey : keyOf a (readUserkey keyData) = some key)
    (hfile : (d.files (d.locate inFile)).getD [] = chunks.flatten)
    (hchunks : ∀ c ∈ chunks, c.length = CHUNK_SIZE) {written : Bool} {d' : Disk F}
    (hput : d.put (d.locate outFile) (chunks.map (cryptChunk key)) = (written, d')) :
    cryptFiles a inFile outFile keyData d =
      if written then some ⟨0, "", d'⟩
      else some ⟨1, "Failed writing crypt to " ++ outFile ++ "\n", d'⟩ := by
  obtain ⟨hmod, hcrypt⟩ := cryptData_flatten key hchunks
  unfold cryptFiles
  rw [if_neg (not_not.mpr hlen)]
  dsimp only
  rw [hkey, Option.bind_eq_bind, Option.bind_some, hfile, if_neg (not_not.mpr hmod), hcrypt]
  dsimp only
  rw [hput]
  rfl

namespace Disk

theorem files_write_self (d : Disk F) (f : F) (data : List (BitVec 8)) :
    (d.write f data).files f = some data := if_pos rfl

theorem files_write_of_ne {f g : F} (h : g ≠ f) (d : Disk F) (data : List (BitVec 8)) :
    (d.write f data).files g = d.files g := if_neg h

theorem write_write (d : Disk F) (f : F) (data data' : List (BitVec 8)) :
    (d.write f data).write f data' = d.write f data' := by
  unfold write
  congr 1
  funext g
  split_ifs with h
  · rfl
  · exact if_neg h

theorem put_of_takes {path : String} (h : d.Takes path) (cryptList : List (List (BitVec 8))) :
    d.put (d.locate path) cryptList = (true, d.write (d.locate path) cryptList.flatten) := by
  unfold put
  rw [h.2]

/-- What arrives is a beginning of what was to be written. -/
theorem exists_put (d : Disk F) (f : F) (cryptList : List (List (BitVec 8))) :
    ∃ written data, d.put f cryptList = (written, d.write f data) ∧ data <+: cryptList.flatten ∧
      (d.loss f = none → written = true ∧ data = cryptList.flatten) := by
  unfold put
  cases hloss : d.loss f with
  | none => exact ⟨true, _, rfl, List.prefix_rfl, fun _ => ⟨rfl, rfl⟩⟩
  | some loss =>
    refine ⟨_, _, rfl, (List.take_prefix _ _).trans ?_, nofun⟩
    have hsplit := congrArg List.flatten (List.take_append_drop (loss.calls + 1) cryptList)
    rw [List.flatten_append] at hsplit
    exact ⟨_, hsplit⟩

end Disk

theorem main_eq {prog action keyFile : String} (haction : parseAction action = some a)
    (hin : d.files (d.locate inFile) ≠ none) (hout : d.writable (d.locate outFile) = true)
    (hkey : (d.write (d.locate outFile) []).files (d.locate keyFile) = some keyData) :
    main [prog, action, inFile, outFile, keyFile] d =
      cryptFiles a inFile outFile keyData (d.write (d.locate outFile) []) := by
  simp only [main, haction, hin, hout, not_true_eq_false, if_false]
  change (match (d.write (d.locate outFile) []).files (d.locate keyFile) with
    | none => _
    | some keyData => _) = _
  rw [hkey]

theorem main_spec (prog : String) {action keyFile : String} (haction : parseAction action = some a)
    (hin : d.files (d.locate inFile) = some chunks.flatten)
    (hchunks : ∀ c ∈ chunks, c.length = CHUNK_SIZE)
    (hkey : d.files (d.locate keyFile) = some keyData) (hlen : keyData.length = 16)
    (hout : d.Takes outFile) (hne : d.locate inFile ≠ d.locate outFile)
    (hkne : d.locate keyFile ≠ d.locate outFile)
    (hkeyOf : keyOf a (readUserkey keyData) = some key) :
    main [prog, action, inFile, outFile, keyFile] d =
      some ⟨0, "", d.write (d.locate outFile) (chunks.map (cryptChunk key)).flatten⟩ := by
  rw [main_eq haction (by rw [hin]; nofun) hout.1 (by rwa [Disk.files_write_of_ne hkne]),
    ← Disk.write_write d (d.locate outFile) [] (chunks.map (cryptChunk key)).flatten]
  have htakes : (d.write (d.locate outFile) []).Takes outFile := hout
  refine (cryptFiles_eq hlen hkeyOf ?_ hchunks (Disk.put_of_takes htakes _)).trans (if_pos rfl)
  change ((d.write (d.locate outFile) []).files (d.locate inFile)).getD [] = _
  rw [Disk.files_write_of_ne hne, hin]
  rfl

theorem map_cryptChunk_map_cryptChunk {Z D : List ℕ} (h : Inverted Z D)
    (hZ : ∀ i, Z.getD i 0 < 0x10000)
    (hchunks : ∀ c ∈ chunks, c.length = CHUNK_SIZE ∧ Clean Z (load c)) :
    (chunks.map (cryptChunk Z)).map (cryptChunk D) = chunks := by
  have hback : ∀ c ∈ chunks, (cryptChunk D ∘ cryptChunk Z) c = id c := fun c hc =>
    cryptChunk_cryptChunk h hZ (hchunks c hc).1 (hchunks c hc).2
  rw [List.map_map, List.map_congr_left hback, List.map_id]

/-- A file that is encrypted and decrypted under one key comes back, if no chunk of it meets a
multiplication that cannot be undone. -/
theorem main_decrypt_main_encrypt (d : Disk F) (prog plainFile cryptFile outFile keyFile : String)
    (chunks : List (List (BitVec 8))) (keyData : List (BitVec 8))
    (hplain : d.files (d.locate plainFile) = some chunks.flatten)
    (hkey : d.files (d.locate keyFile) = some keyData) (hlen : keyData.length = 16)
    (hcrypt : d.Takes cryptFile) (hout : d.Takes outFile)
    (hpc : d.locate plainFile ≠ d.locate cryptFile) (hco : d.locate cryptFile ≠ d.locate outFile)
    (hkc : d.locate keyFile ≠ d.locate cryptFile) (hko : d.locate keyFile ≠ d.locate outFile)
    (hchunks : ∀ c ∈ chunks, c.length = CHUNK_SIZE ∧
      Clean (generateEncryptKey (readUserkey keyData)) (load c)) :
    ∃ d₁ d₂, main [prog, "encrypt", plainFile, cryptFile, keyFile] d = some ⟨0, "", d₁⟩ ∧
      main [prog, "decrypt", cryptFile, outFile, keyFile] d₁ = some ⟨0, "", d₂⟩ ∧
      d₂.files (d.locate outFile) = some chunks.flatten := by
  obtain ⟨D, hD, -, hinv⟩ := generateDecryptKey_spec (readUserkey keyData)
  have hZ := generateEncryptKey_lt (readUserkey keyData)
  have hback := map_cryptChunk_map_cryptChunk hinv hZ hchunks
  have hrun := main_spec prog parseAction_encrypt hplain (fun c hc => (hchunks c hc).1)
    hkey hlen hcrypt hpc hkc rfl
  have hlength : ∀ c ∈ chunks.map (cryptChunk (generateEncryptKey (readUserkey keyData))),
      c.length = CHUNK_SIZE := by
    intro c hc
    obtain ⟨plain, -, rfl⟩ := List.mem_map.mp hc
    exact length_store _
  let d₁ := d.write (d.locate cryptFile)
    (chunks.map (cryptChunk (generateEncryptKey (readUserkey keyData)))).flatten
  refine ⟨d₁, d₁.write (d.locate outFile) chunks.flatten, hrun, ?_, Disk.files_write_self _ _ _⟩
  refine (main_spec prog parseAction_decrypt (Disk.files_write_self d (d.locate cryptFile) _)
    hlength ((Disk.files_write_of_ne hkc d _).trans hkey) hlen hout hco hko hD).trans ?_
  rw [hback]
  rfl

def sampleDisk : Disk String where
  locate := id
  files := fun f =>
    if f = "text" then some [[1, 2, 3, 4, 5, 6, 7, 8], [8, 7, 6, 5, 4, 3, 2, 1]].flatten
    else if f = "key" then some ((List.range 16).map (BitVec.ofNat 8 ·))
    else none
  writable := fun _ => true
  loss := fun _ => none

theorem main_decrypt_main_encrypt_sampleDisk : ∃ d₁ d₂,
    main ["crypt", "encrypt", "text", "secret", "key"] sampleDisk = some ⟨0, "", d₁⟩ ∧
      main ["crypt", "decrypt", "secret", "copy", "key"] d₁ = some ⟨0, "", d₂⟩ ∧
      d₂.files "copy" = some [[1, 2, 3, 4, 5, 6, 7, 8], [8, 7, 6, 5, 4, 3, 2, 1]].flatten :=
  main_decrypt_main_encrypt sampleDisk "crypt" "text" "secret" "copy" "key" _
    ((List.range 16).map (BitVec.ofNat 8 ·)) rfl rfl rfl ⟨rfl, rfl⟩ ⟨rfl, rfl⟩ (by decide)
    (by decide) (by decide) (by decide) (by decide +kernel)

/-- Under every key file there are two files of one chunk with the same encryption. -/
theorem exists_main_eq_main (d : Disk F) (prog plainFile cryptFile keyFile : String)
    (keyData : List (BitVec 8)) (hkey : d.files (d.locate keyFile) = some keyData)
    (hlen : keyData.length = 16) (hcrypt : d.Takes cryptFile)
    (hpc : d.locate plainFile ≠ d.locate cryptFile) (hkc : d.locate keyFile ≠ d.locate cryptFile)
    (hkp : d.locate keyFile ≠ d.locate plainFile) :
    ∃ plain plain' crypt : List (BitVec 8), plain ≠ plain' ∧ ∀ text ∈ [plain, plain'],
      ∃ e, main [prog, "encrypt", plainFile, cryptFile, keyFile]
          (d.write (d.locate plainFile) text) = some e ∧
        e.code = 0 ∧ e.disk.files (d.locate cryptFile) = some crypt := by
  obtain ⟨plain, plain', hp, hp', hne, heq⟩ := chunk_collides (readUserkey keyData)
  refine ⟨plain, plain', cryptChunk (generateEncryptKey (readUserkey keyData)) plain, hne, ?_⟩
  intro text htext
  have hsame : text.length = CHUNK_SIZE ∧
      cryptChunk (generateEncryptKey (readUserkey keyData)) text =
        cryptChunk (generateEncryptKey (readUserkey keyData)) plain := by
    rcases List.mem_pair.mp htext with rfl | rfl
    · exact ⟨hp, rfl⟩
    · exact ⟨hp', heq.symm⟩
  have hplain : (d.write (d.locate plainFile) text).files (d.locate plainFile) =
      some [text].flatten := by
    rw [Disk.files_write_self, List.flatten_singleton]
  refine ⟨_, main_spec prog parseAction_encrypt hplain (List.forall_mem_singleton.mpr hsame.1)
    ((Disk.files_write_of_ne hkp d _).trans hkey) hlen hcrypt hpc hkc rfl, rfl, ?_⟩
  refine (Disk.files_write_self _ _ _).trans ?_
  rw [List.map_singleton, List.flatten_singleton, hsame.2]

theorem exists_main_eq_main_sampleDisk : ∃ plain plain' crypt : List (BitVec 8),
    plain ≠ plain' ∧ ∀ text ∈ [plain, plain'],
      ∃ e, main ["crypt", "encrypt", "text", "secret", "key"] (sampleDisk.write "text" text) =
        some e ∧ e.code = 0 ∧ e.disk.files "secret" = some crypt :=
  exists_main_eq_main sampleDisk "crypt" "text" "secret" "key" _ rfl rfl ⟨rfl, rfl⟩ (by decide)
    (by decide) (by decide)

/-! ### What a run changes -/

/-- What is done after the files are opened: a failure before anything is written, or an output
that begins as long as the disk takes it. -/
theorem cryptFiles_cases (a : Action) (inFile outFile : String) (keyData : List (BitVec 8))
    (d : Disk F) : ∃ e, cryptFiles a inFile outFile keyData d = some e ∧
      (e.code = 1 ∧ e.disk = d ∨ ∃ data, e.disk = d.write (d.locate outFile) data ∧
        data.length ≤ ((d.files (d.locate inFile)).getD []).length ∧
        (e.code = 0 ∨ e.code = 1 ∧ d.loss (d.locate outFile) ≠ none) ∧
        (d.loss (d.locate outFile) = none →
          data.length = ((d.files (d.locate inFile)).getD []).length)) := by
  by_cases hlen : keyData.length = 16
  · obtain ⟨key, hkey⟩ := exists_keyOf a (readUserkey keyData)
    by_cases hmod : ((d.files (d.locate inFile)).getD []).length % CHUNK_SIZE = 0
    · obtain ⟨chunks, hflat, hchunks⟩ := exists_chunks _ hmod
      obtain ⟨written, data, hput, hprefix, hall⟩ :=
        d.exists_put (d.locate outFile) (chunks.map (cryptChunk key))
      have hlength := length_flatten_map_cryptChunk key hchunks
      rw [cryptFiles_eq hlen hkey hflat.symm hchunks hput, ← hflat, ← hlength]
      have hdata : d.loss (d.locate outFile) = none →
          data.length = (chunks.map (cryptChunk key)).flatten.length := fun hnone => by
        rw [(hall hnone).2]
      cases written with
      | true => exact ⟨_, rfl, .inr ⟨data, rfl, hprefix.length_le, .inl rfl, hdata⟩⟩
      | false =>
        refine ⟨_, rfl, .inr ⟨data, rfl, hprefix.length_le, .inr ⟨rfl, fun hnone => ?_⟩, hdata⟩⟩
        cases (hall hnone).1
    · unfold cryptFiles
      rw [if_neg (not_not.mpr hlen)]
      dsimp only
      rw [hkey, Option.bind_eq_bind, Option.bind_some, if_pos hmod]
      exact ⟨_, rfl, .inl ⟨rfl, rfl⟩⟩
  · unfold cryptFiles
    rw [if_pos hlen]
    exact ⟨_, rfl, .inl ⟨rfl, rfl⟩⟩

def output? (argv : List String) (d : Disk F) : Option F := argv[3]?.map d.locate

/-- The length of the input when it is read: the output may be the same file. -/
def inputLength (argv : List String) (d : Disk F) : ℕ :=
  if argv[2]?.map d.locate = output? argv d then 0
  else ((argv[2]?.bind fun inFile => d.files (d.locate inFile)).getD []).length

/-- No file but the output is changed. After a failure the output is as it was or empty, or has a
loss and is not longer than the input. After a success it is not longer either, and as long where
it has no loss. -/
def Effect (argv : List String) (d : Disk F) (e : Exit F) : Prop :=
  (∀ f, output? argv d ≠ some f → e.disk.files f = d.files f) ∧
    (e.code = 1 ∧ (∀ f, e.disk.files f = d.files f ∨ e.disk.files f = some [] ∨
        d.loss f ≠ none ∧ ∃ crypt, e.disk.files f = some crypt ∧
          crypt.length ≤ inputLength argv d) ∨
      e.code = 0 ∧ ∃ f crypt, output? argv d = some f ∧ e.disk.files f = some crypt ∧
        crypt.length ≤ inputLength argv d ∧
        (d.loss f = none → crypt.length = inputLength argv d))

/-- The opened output has been emptied, also where it is the input. -/
theorem length_input (prog action inFile outFile keyFile : String) (d : Disk F) :
    (((d.write (d.locate outFile) []).files (d.locate inFile)).getD []).length =
      inputLength [prog, action, inFile, outFile, keyFile] d := by
  change _ = if some (d.locate inFile) = some (d.locate outFile) then 0
    else ((d.files (d.locate inFile)).getD []).length
  by_cases hsame : d.locate inFile = d.locate outFile
  · rw [hsame, if_pos rfl, Disk.files_write_self]
    rfl
  · rw [if_neg fun h => hsame (Option.some.inj h), Disk.files_write_of_ne hsame]

theorem effect_of_unopened (argv : List String) (message : String) (d : Disk F) :
    ∃ e, some (Exit.mk 1 message d) = some e ∧ Effect argv d e :=
  ⟨_, rfl, fun _ _ => rfl, .inl ⟨rfl, fun _ => .inl rfl⟩⟩

theorem effect_of_opened {argv : List String} {f : F} (hout : output? argv d = some f)
    {e : Exit F} (hcode : e.code = 1) (hdisk : e.disk = d.write f []) : Effect argv d e := by
  unfold Effect
  rw [hdisk]
  refine ⟨?_, .inl ⟨hcode, ?_⟩⟩
  · intro g hg
    refine Disk.files_write_of_ne ?_ d []
    rintro rfl
    exact hg hout
  · intro g
    by_cases hg : g = f
    · rw [hg, Disk.files_write_self]
      exact .inr (.inl rfl)
    · exact .inl (Disk.files_write_of_ne hg d [])

theorem effect_of_written {argv : List String} {f : F} (hout : output? argv d = some f)
    {e : Exit F} {data : List (BitVec 8)} (hdisk : e.disk = d.write f data)
    (hle : data.length ≤ inputLength argv d) (hcode : e.code = 0 ∨ e.code = 1 ∧ d.loss f ≠ none)
    (hall : d.loss f = none → data.length = inputLength argv d) : Effect argv d e := by
  have hself := Disk.files_write_self d f data
  unfold Effect
  rw [hdisk]
  refine ⟨?_, ?_⟩
  · intro g hg
    refine Disk.files_write_of_ne ?_ d data
    rintro rfl
    exact hg hout
  · rcases hcode with hzero | ⟨hone, hloss⟩
    · exact .inr ⟨hzero, f, data, hout, hself, hle, hall⟩
    · refine .inl ⟨hone, fun g => ?_⟩
      by_cases hg : g = f
      · exact .inr (.inr ⟨hg ▸ hloss, data, hg ▸ hself, hle⟩)
      · exact .inl (Disk.files_write_of_ne hg d data)

theorem main_effect (argv : List String) (d : Disk F) :
    ∃ e, main argv d = some e ∧ Effect argv d e := by
  unfold main
  split
  case h_1 prog action inFile outFile keyFile =>
    split
    · exact effect_of_unopened _ _ d
    · split_ifs with hin hout
      · exact effect_of_unopened _ _ d
      · dsimp only
        split
        · exact ⟨_, rfl, effect_of_opened rfl rfl rfl⟩
        case h_2 a _ _ keyData _ =>
          obtain ⟨e, hrun, hcases⟩ :=
            cryptFiles_cases a inFile outFile keyData (d.write (d.locate outFile) [])
          refine ⟨e, hrun, ?_⟩
          rcases hcases with ⟨hcode, hdisk⟩ | ⟨data, hdisk, hle, hcode, hall⟩
          · exact effect_of_opened rfl hcode hdisk
          · have hlength := length_input prog action inFile outFile keyFile d
            have hdisk' : e.disk = d.write (d.locate outFile) data :=
              hdisk.trans (Disk.write_write d (d.locate outFile) [] data)
            exact effect_of_written rfl hdisk' (hle.trans_eq hlength) hcode
              fun hnone => (hall hnone).trans hlength
      · exact effect_of_unopened _ _ d
  · exact effect_of_unopened _ _ d

end CppTricks.Crypt
