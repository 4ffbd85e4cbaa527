import PathOram.KeyShares
import PathOram.TrustedProxy

/-!
# The trusted proxy, from a file to its shares and back

`shamirSecretSharing` of `trusted_proxy_layer.cpp` puts the parts together. One branch encrypts a
file with a new key, splits the key and splits the encrypted file; the other one combines what it
finds of both and decrypts it. The option is written into the code, so that only the second branch
is ever taken.

The second branch removes each key file as soon as it has been read, and asks only then whether
there were enough.

* `roundTrip_iff` — what the first branch makes of a file, the second one turns back into it, from
  any `minShares` of the key files and any `minShares` of the share files, exactly if the number of
  bytes that are appended to the encrypted file fits its length.
* `decrypt_spec` — what the second branch finds in the directory, and what it leaves there.
* `attempts_spec` — a run of attempts between which key files are delivered: those that were
  delivered earlier do not count, and the file is written once at most.
-/

namespace TrustedProxyLayer

open PathORAM Shamir Decimal Splitter Chunks

variable {State : Type}

/-- What the language leaves undefined. -/
inductive Stop where
  | sharing (fault : Shamir.Fault)
  | closed (fault : Fault)
  /-- `fread` from a file that could not be opened. -/
  | null

/-- The local variables that are read without having been assigned. -/
structure Locals where
  keys : KeyUnassigned
  split : Splitter.Unassigned
  header : Bytes

/-- The files that the program keeps in its directory. -/
structure Directory where
  keys : KeyFiles
  splits : Splitter.Files

/-- The returned value, what is written to the file that is named by the argument, and the files
that are left. -/
structure Ended where
  status : ℕ
  outp : Option Bytes
  dir : Directory

section Code

variable (S : SecretStream Bytes State) (locals : Locals) (nSharesTotal minShares : ℕ)

/-- The branch for `-encrypt`. The key and the random bytes of the header are drawn. -/
def encrypt (key : Fin KEYBYTES → UInt8) (random : Bytes) (keyDraws fileDraws : Draws)
    (inp : Bytes) (dir : Directory) : Except Stop Directory := do
  let encrypted := createSecretSharedData S random (List.ofFn key) inp
  let keys ← (splitKeys locals.keys nSharesTotal minShares key keyDraws dir.keys).mapError .sharing
  let splits ← (readFile locals.split encrypted nSharesTotal minShares fileDraws
    dir.splits).mapError .sharing
  pure { keys, splits }

/-- The branch for `-decrypt`. -/
def decrypt (dir : Directory) : Except Stop Ended := do
  let (key, keys) ← (recoverKeys locals.keys nSharesTotal minShares dir.keys).mapError .sharing
  match key with
  | none => pure ⟨0, none, { dir with keys }⟩
  | some key =>
    let splits ← (handleText locals.split nSharesTotal minShares dir.splits).mapError .sharing
    match splits.combined_shares with
    | none => .error .null
    | some source =>
      let (ret, outp) ← (decryptSecretSharedData S locals.header key source).mapError .closed
      if ret ≠ 0 then pure ⟨1, some outp, { keys, splits }⟩
      else pure ⟨0, some outp, { keys, splits := { splits with combined_shares := none } }⟩

end Code

/-- The key files and the share files that are present. -/
def Directory.keep (keyFiles shareFiles : Finset ℕ) (dir : Directory) : Directory where
  keys := dir.keys.keep keyFiles
  splits := dir.splits.keep shareFiles

/-- A stream that does not look at its key. -/
def keyless (S : SecretStream Unit State) : SecretStream Bytes State where
  HEADERBYTES := S.HEADERBYTES
  ABYTES := S.ABYTES
  TAG_FINAL := S.TAG_FINAL
  init_push random _ := S.init_push random ()
  push := S.push
  init_pull header _ := S.init_pull header ()
  pull := S.pull

theorem SecretStream.Lawful.keyless {S : SecretStream Unit State} (hS : S.Lawful) :
    (keyless S).Lawful where
  length_header random _ := hS.length_header random ()
  init_pull random _ := hS.init_pull random ()
  length_push := hS.length_push
  pull_push := hS.pull_push
  final_ne_zero := hS.final_ne_zero

/-- Every byte that is not assigned holds the same value. -/
def filled (byte : UInt8) : Locals :=
  ⟨⟨fun _ => byte, fun _ => byte, 0⟩, ⟨byte, fun _ => byte, 0⟩, []⟩

/-! ### The round trip -/

section RoundTrip

variable {S : SecretStream Bytes State} {nSharesTotal minShares : ℕ}

/-- Every chunk gets longer by the same number of bytes. -/
theorem length_pushLoop (hS : S.Lawful) (st : State) (content : Bytes) :
    (pushLoop S st content).flatten.length =
      content.length + S.ABYTES * (content.length / CHUNK_SIZE + 1) := by
  -- each chunk is longer by `ABYTES`, and the last one is always there
  induction content using chunks_induction CHUNK_SIZE_pos generalizing st with
  | last content h =>
    rw [pushLoop_of_lt h, List.flatten_singleton, hS.length_push, Nat.div_eq_of_lt h, Nat.zero_add,
      Nat.mul_one]
  | step content h ih =>
    have hchunk : (content.take CHUNK_SIZE).length = CHUNK_SIZE := List.length_take_of_le h
    rw [pushLoop_of_le h, List.flatten_cons, List.length_append, ih, hS.length_push, hchunk,
      List.length_drop, Nat.div_eq_sub_div CHUNK_SIZE_pos h]
    calc CHUNK_SIZE + S.ABYTES + (content.length - CHUNK_SIZE +
          S.ABYTES * ((content.length - CHUNK_SIZE) / CHUNK_SIZE + 1))
        = CHUNK_SIZE + (content.length - CHUNK_SIZE) +
          S.ABYTES * ((content.length - CHUNK_SIZE) / CHUNK_SIZE + 1 + 1) := by ring
      _ = _ := by rw [Nat.add_sub_cancel' h]

/-- The length of an encrypted file of a given length. -/
def encryptedLength (S : SecretStream Bytes State) (length : ℕ) : ℕ :=
  S.HEADERBYTES + (length + S.ABYTES * (length / CHUNK_SIZE + 1))

theorem length_createSecretSharedData (hS : S.Lawful) (random key inp : Bytes) :
    (createSecretSharedData S random key inp).length = encryptedLength S inp.length := by
  show ((S.init_push random key).2 ++ (pushLoop S (S.init_push random key).1 inp).flatten).length =
    _
  rw [List.length_append, hS.length_header, length_pushLoop hS]
  rfl

/-- The key, from the key files that are present. -/
theorem recoverKeys_stored {stored : KeyFiles} {blocks : List Bytes} {ys : List (ℕ → SecretPair)}
    {key : Fin KEYBYTES → UInt8} (unassigned : KeyUnassigned) (htotal : nSharesTotal ≤ 9)
    {present : Finset ℕ} (hpresent : present ⊆ Finset.Icc 1 nSharesTotal)
    (hcard : minShares ≤ present.card)
    (hshares : List.Forall₂ (fun b y => SharesOf minShares (LittleEndian.decode b) y) blocks ys)
    (hseven : ∀ b ∈ blocks, b.length = 7) (hcount : blocks.length = 5)
    (hbegin : List.ofFn key <+: blocks.flatten)
    (hfiles : ∀ i, 1 ≤ i → i ≤ nSharesTotal →
      stored i = some (lines (ys.map fun y => (y i).y))) :
    Returns (recoverKeys unassigned nSharesTotal minShares (stored.keep present))
      (·.1 = some (List.ofFn key)) := by
  obtain ⟨hnodup, hbounds, hlength⟩ := filter_range' htotal hpresent
  have hys : ys.length = 5 := hshares.length_eq.symm.trans hcount
  have hlines : ∀ i ∈ List.range' 1 nSharesTotal, stored.keep present i =
      if i ∈ present then some (lines (ys.map fun y => (y i).y)) else none := by
    intro i hi
    have hmem := List.mem_range'_1.mp hi
    rw [KeyFiles.keep, hfiles i hmem.1 (by omega)]
  have hread := readKeyFiles_spec (readable_of_forall₂ hshares) hlines unassigned.val []
  -- The loop starts with an empty vector for every word.
  have hstart : (ys.map fun y => ([] : List ℕ).map y) = List.replicate 5 [] := by
    rw [← hys]
    simp
  rw [hstart, hys, List.nil_append, List.length_nil] at hread
  have hkey : (List.ofFn unassigned.key).length = KEYBYTES := List.length_ofFn
  have hbytes : KEYBYTES = 32 := rfl
  have hcombine := combineLoop_spec hnodup hbounds (hlength.symm ▸ hcard) hshares hseven
    (show ([] : Bytes).length = 0 * 7 from rfl) (List.ofFn unassigned.key) (by omega) (by omega)
  have hflat : blocks.flatten.take KEYBYTES = List.ofFn key := by
    conv_rhs => rw [List.prefix_iff_eq_take.mp hbegin, List.length_ofFn]
  rw [hkey, List.nil_append, List.nil_append, hflat] at hcombine
  have hfound : ¬((List.range' 1 nSharesTotal).filter (· ∈ present)).length < minShares := by
    rw [hlength]
    exact hcard.not_gt
  have hblocks : (KEYBYTES / 7 + 1) * 7 / 7 = 5 := rfl
  unfold recoverKeys
  simp only [hblocks, hread, if_neg hfound]
  refine hcombine.bind fun recovered hrecovered => ?_
  exact Returns.pure (congrArg some hrecovered)

/-- The encrypted file, from the share files that are present. -/
theorem handleText_stored {stored : Files} {file : Bytes} {blocks : List Bytes}
    {y : ℕ → SecretPair} {ys : List (ℕ → SecretPair)} {emptyct : UInt8} (unassigned : Unassigned)
    (htotal : nSharesTotal ≤ 9) {present : Finset ℕ}
    (hpresent : present ⊆ Finset.Icc 1 nSharesTotal) (hcard : minShares ≤ present.card)
    (hstored : Stored nSharesTotal minShares ⟨UInt32.ofNat file.length, CHECK_SUM, emptyct⟩ blocks
      y ys stored)
    (hseven : ∀ b ∈ blocks, b.length = 7) (hbegin : file <+: blocks.flatten)
    (hcount : 7 * blocks.length ≤ file.length + emptyct.toNat) (hlen : file.length < 2 ^ 31 - 7) :
    Returns (handleText unassigned nSharesTotal minShares (stored.keep present))
      (·.combined_shares = some file) := by
  have hflatten : blocks.flatten.length = 7 * blocks.length := by
    rw [List.length_flatten, List.map_congr_left hseven, List.map_const', List.sum_replicate,
      smul_eq_mul, mul_comm]
  -- the blocks are the file with padding behind it
  have hlong : file.length ≤ 7 * blocks.length := hflatten ▸ hbegin.length_le
  have hsz : (UInt32.ofNat file.length).toNat = file.length := by
    rw [UInt32.toNat_ofNat']
    exact Nat.mod_eq_of_lt (by omega)
  have hrestored := handleText_spec unassigned htotal hpresent hcard hstored hseven
    (by rw [hsz]; exact hlen) (by rw [hsz]; exact hlong) (by rw [hsz]; exact hcount)
  refine hrestored.mono fun restored h => ?_
  show restored.combined_shares = some file
  rw [h, hsz, ← List.prefix_iff_eq_take.mp hbegin]

/-- **The round trip.** The file comes back exactly if the bytes appended to the encrypted file fit
its length, whichever files are lost on the way. Of the key files and of the share files any
`minShares` are enough, and they need not be those of the same servers. -/
theorem roundTrip_iff (hS : S.Lawful) (hmin : 1 ≤ minShares) (hle : minShares ≤ nSharesTotal)
    (htotal : nSharesTotal ≤ 9) (locals locals' : Locals) (key : Fin KEYBYTES → UInt8)
    (random inp : Bytes) (keyDraws fileDraws : Draws) (dir : Directory)
    (hsize : encryptedLength S inp.length < 2 ^ 31 - 7) {keyFiles shareFiles : Finset ℕ}
    (hkeys : keyFiles ⊆ Finset.Icc 1 nSharesTotal) (hkeyCard : minShares ≤ keyFiles.card)
    (hfiles : shareFiles ⊆ Finset.Icc 1 nSharesTotal) (hfileCard : minShares ≤ shareFiles.card) :
    (∃ stored ended,
      encrypt S locals nSharesTotal minShares key random keyDraws fileDraws inp dir = .ok stored ∧
      decrypt S locals' nSharesTotal minShares (stored.keep keyFiles shareFiles) = .ok ended ∧
      ended.status = 0 ∧ ended.outp = some inp) ↔
      Aligned (encryptedLength S inp.length) locals.split.ct_empty := by
  have hlength := length_createSecretSharedData hS random (List.ofFn key) inp
  rw [← hlength] at hsize ⊢
  constructor
  · rintro ⟨stored, -, hencrypt, -⟩
    obtain ⟨keys, -, hencrypt⟩ := Returns.exists_of_bind_ok hencrypt
    obtain ⟨splits, hread, -⟩ := Returns.exists_of_bind_ok hencrypt
    exact aligned_of_readFile_ok hsize (Returns.ok_of_mapError_ok hread)
  · intro haligned
    obtain ⟨keys, hkeys', words, zs, hwords, hseven, hfive, hbegin, hkeyFiles⟩ :=
      splitKeys_spec locals.keys key keyDraws dir.keys hmin hle htotal
    obtain ⟨splits, hsplits, blocks, y, ys, hstored, hseven', hfile, hcount⟩ :=
      readFile_spec fileDraws dir.splits hmin hle htotal hsize haligned
    have hencrypt : encrypt S locals nSharesTotal minShares key random keyDraws fileDraws inp dir =
        .ok ⟨keys, splits⟩ := by
      show ((splitKeys locals.keys nSharesTotal minShares key keyDraws dir.keys).mapError _ >>= _) =
        _
      rw [hkeys']
      show ((readFile locals.split (createSecretSharedData S random (List.ofFn key) inp)
        nSharesTotal minShares fileDraws dir.splits).mapError _ >>= _) = _
      rw [hsplits]
      rfl
    have hkey := recoverKeys_stored locals'.keys htotal hkeys hkeyCard hwords hseven hfive hbegin
      hkeyFiles
    have htext := handleText_stored locals'.split htotal hfiles hfileCard hstored hseven' hfile
      hcount hsize
    obtain ⟨hauthentic, hplain⟩ :=
      authentic_createSecretSharedData hS locals'.header random (List.ofFn key) inp
    have hopen := decryptSecretSharedData_of_passes hauthentic.header hauthentic.passes
    rw [hplain] at hopen
    -- What is found of the two goes into the decryption.
    have hdecrypt : Returns (decrypt S locals' nSharesTotal minShares
        (Directory.keep keyFiles shareFiles ⟨keys, splits⟩))
        (fun ended => ended.status = 0 ∧ ended.outp = some inp) := by
      unfold decrypt
      refine hkey.mapError.bind ?_
      rintro ⟨recovered, keys'⟩ rfl
      refine htext.mapError.bind fun splits' hcombined => ?_
      dsimp only
      rw [hcombined]
      dsimp only
      rw [hopen]
      exact Returns.pure ⟨rfl, rfl⟩
    obtain ⟨ended, hended, hstatus, houtp⟩ := hdecrypt
    exact ⟨⟨keys, splits⟩, ended, hencrypt, hended, hstatus, houtp⟩

/-- Two bytes, of which two of three key files and other two of three share files are kept. -/
theorem roundTrip_twoBytes : ∃ stored ended,
    encrypt (keyless plain) (filled 0) 3 2 (fun _ => 7) [] (fun _ => ⟨4, by decide⟩)
      (fun _ => ⟨5, by decide⟩) [1, 2] ⟨fun _ => none, ⟨fun _ => none, none⟩⟩ = .ok stored ∧
    decrypt (keyless plain) (filled 9) 3 2 (stored.keep {1, 3} {2, 3}) = .ok ended ∧
    ended.status = 0 ∧ ended.outp = some [1, 2] :=
  (roundTrip_iff lawful_plain.keyless (by decide) (by decide) (by decide) _ _ _ _ _ _ _ _
    (by decide) (by decide) (by decide) (by decide) (by decide)).mpr (Or.inl (by decide))

end RoundTrip

/-! ### What an attempt leaves behind -/

section Attempt

variable {S : SecretStream Bytes State} {nSharesTotal minShares : ℕ} {locals : Locals}
  {dir : Directory} {ended : Ended}

/-- How many of the files `1`, …, `n` there are. -/
def present {α : Type} (n : ℕ) (files : ℕ → Option α) : ℕ :=
  ((List.range' 1 n).filter fun i => (files i).isSome).length

/-- Nothing is left to decrypt: neither the combined file nor enough of its shares. -/
structure Spent (n k : ℕ) (splits : Files) : Prop where
  combined : splits.combined_shares = none
  shares : present n splits.shares < k

/-- Every key file that is present is counted. -/
theorem readKeyFiles_count (files : KeyFiles) (blocks : ℕ) (numbers : List ℕ) (val : ℤ)
    (ans : List (List SecretPair)) (ct : ℕ) :
    (readKeyFiles files blocks numbers val ans ct).2 =
      ct + (numbers.filter fun i => (files i).isSome).length := by
  -- one file at a time; the counter goes up for each that is present
  induction numbers generalizing val ans ct with
  | nil => rfl
  | cons i numbers ih =>
    cases hi : files i with
    | none =>
      rw [readKeyFiles, hi, List.filter_cons_of_neg (by simp [hi])]
      exact ih val ans ct
    | some text =>
      rw [readKeyFiles, hi, List.filter_cons_of_pos (by simp [hi]), List.length_cons]
      calc (readKeyFiles files blocks numbers _ _ (ct + 1)).2
          = ct + 1 + (numbers.filter fun i => (files i).isSome).length := ih _ _ _
        _ = ct + ((numbers.filter fun i => (files i).isSome).length + 1) := by ring

theorem findHead_length (files : Files) (numbers : List ℕ) (val : ℤ) :
    (findHead files numbers val).1.length =
      (numbers.filter fun i => (files.shares i).isSome).length := by
  -- likewise for the share files
  induction numbers generalizing val with
  | nil => rfl
  | cons i numbers ih =>
    cases hi : files.shares i with
    | none =>
      rw [findHead, hi, List.filter_cons_of_neg (by simp [hi])]
      exact ih val
    | some text =>
      rw [findHead, hi, List.filter_cons_of_pos (by simp [hi]), List.length_cons]
      exact congrArg Nat.succ (ih _)

/-- The key files are gone, whether or not they were enough. -/
theorem recoverKeys_left {unassigned : KeyUnassigned} {files left : KeyFiles} {key : Option Bytes}
    (h : recoverKeys unassigned nSharesTotal minShares files = .ok (key, left)) :
    (∀ i, 1 ≤ i → i ≤ nSharesTotal → left i = none) ∧
      (key.isSome ↔ minShares ≤ present nSharesTotal files) := by
  have hcount := readKeyFiles_count files ((KEYBYTES / 7 + 1) * 7 / 7)
    (List.range' 1 nSharesTotal) unassigned.val
    (List.replicate ((KEYBYTES / 7 + 1) * 7 / 7) []) 0
  rw [Nat.zero_add] at hcount
  unfold recoverKeys at h
  dsimp only at h
  rw [hcount] at h
  unfold present
  split at h
  -- too few files: no key, and the files are gone all the same
  next hfew =>
    cases h
    refine ⟨fun i h1 hn => if_pos ⟨h1, hn⟩, ?_⟩
    simpa using hfew
  -- a key, and the files are gone
  next henough =>
    obtain ⟨recovered, -, h⟩ := Returns.exists_of_bind_ok h
    cases h
    refine ⟨fun i h1 hn => if_pos ⟨h1, hn⟩, ?_⟩
    simpa using henough

/-- The share files are gone if they were enough, and nothing changes otherwise. -/
theorem handleText_left {unassigned : Unassigned} {splits splits' : Files}
    (h : handleText unassigned nSharesTotal minShares splits = .ok splits') :
    (present nSharesTotal splits.shares < minShares ∧ splits' = splits) ∨
      (minShares ≤ present nSharesTotal splits.shares ∧
        present nSharesTotal splits'.shares = 0) := by
  have hcount := findHead_length splits (List.range' 1 nSharesTotal) unassigned.val
  unfold handleText at h
  dsimp only at h
  rw [hcount] at h
  split at h
  -- too few share files: nothing happens
  next hfew =>
    cases h
    exact Or.inl ⟨hfew, rfl⟩
  -- enough of them: they are removed
  next henough =>
    obtain ⟨ret, -, h⟩ := Returns.exists_of_bind_ok h
    obtain ⟨combined, -, h⟩ := Returns.exists_of_bind_ok h
    cases h
    refine Or.inr ⟨Nat.le_of_not_lt henough, ?_⟩
    unfold present
    rw [List.length_eq_zero_iff, List.filter_eq_nil_iff]
    intro i hi
    have hmem := List.mem_range'_1.mp hi
    simp [show 1 ≤ i ∧ i ≤ nSharesTotal by omega]

/-- A decryption that returns has returned `0`. -/
theorem ret_eq_zero {header key source outp : Bytes} {ret : ℤ}
    (h : decryptSecretSharedData S header key source = .ok (ret, outp)) : ret = 0 := by
  by_cases hpasses : (S.init_pull (headerOf S header source) key).1 = 0 ∧
      Passes S (S.init_pull (headerOf S header source) key).2 (sourceChunks S source)
  · rw [decryptSecretSharedData_of_passes hpasses.1 hpasses.2] at h
    cases h
    rfl
  · rw [decryptSecretSharedData_of_not_passes hpasses] at h
    cases h

/-- What an attempt that returns finds in the directory, and what it leaves there. -/
structure Attempted (n k : ℕ) (dir : Directory) (ended : Ended) : Prop where
  status : ended.status = 0
  keys : ∀ i, 1 ≤ i → i ≤ n → ended.dir.keys i = none
  written_iff : ended.outp.isSome ↔ k ≤ present n dir.keys
  unwritten : ended.outp = none → ended.dir.splits = dir.splits
  written : ended.outp.isSome → ¬Spent n k dir.splits ∧ Spent n k ended.dir.splits

/-- **An attempt uses the key files up.** It writes a file if and only if there are enough of
them, and there must have been something to decrypt, of which nothing is left. -/
theorem decrypt_spec (hmin : 1 ≤ minShares)
    (h : decrypt S locals nSharesTotal minShares dir = .ok ended) :
    Attempted nSharesTotal minShares dir ended := by
  obtain ⟨⟨key, keys⟩, hrecover, h⟩ := Returns.exists_of_bind_ok h
  obtain ⟨hgone, henough⟩ := recoverKeys_left (Returns.ok_of_mapError_ok hrecover)
  cases key with
  -- without a key the attempt ends, and the share files are left alone
  | none =>
    cases h
    exact ⟨rfl, hgone, henough, fun _ => rfl, fun hsome => absurd hsome Bool.false_ne_true⟩
  -- with a key the share files are put together
  | some key =>
    obtain ⟨splits, htext, h⟩ := Returns.exists_of_bind_ok h
    have hleft := handleText_left (Returns.ok_of_mapError_ok htext)
    cases hcombined : splits.combined_shares with
    | none =>
      rw [hcombined] at h
      cases h
    | some source =>
      rw [hcombined] at h
      obtain ⟨⟨ret, outp⟩, hopen, h⟩ := Returns.exists_of_bind_ok h
      have hret := ret_eq_zero (Returns.ok_of_mapError_ok hopen)
      subst hret
      cases h
      refine ⟨rfl, hgone, henough, fun hnone => absurd hnone (Option.some_ne_none outp),
        fun _ => ⟨?_, rfl, ?_⟩⟩
      · rintro ⟨hnone, hfew⟩
        rcases hleft with ⟨-, hsame⟩ | ⟨henough, -⟩
        · -- The combined file was there from the beginning.
          rw [hsame, hnone] at hcombined
          cases hcombined
        · exact absurd hfew henough.not_gt
      · rcases hleft with ⟨hfew, hsame⟩ | ⟨-, hzero⟩
        · show present nSharesTotal splits.shares < minShares
          rw [hsame]
          exact hfew
        · show present nSharesTotal splits.shares < minShares
          rw [hzero]
          exact hmin

end Attempt

/-! ### Attempts between which key files are delivered -/

section Attempts

variable {S : SecretStream Bytes State} {nSharesTotal minShares : ℕ}

/-- Key files are put into the directory. -/
def Directory.deliver (dir : Directory) (delivered : KeyFiles) : Directory where
  keys i := delivered i <|> dir.keys i
  splits := dir.splits

/-- Before each attempt, key files are delivered. -/
def attempts (S : SecretStream Bytes State) (nSharesTotal minShares : ℕ) :
    Directory → List (Locals × KeyFiles) → Except Stop (List Ended)
  | _, [] => pure []
  | dir, (locals, delivered) :: rest => do
    let ended ← decrypt S locals nSharesTotal minShares (dir.deliver delivered)
    let later ← attempts S nSharesTotal minShares ended.dir rest
    pure (ended :: later)

/-- The key files of an attempt that starts without any. -/
theorem present_deliver {n : ℕ} {dir : Directory} (delivered : KeyFiles)
    (hempty : ∀ i, 1 ≤ i → i ≤ n → dir.keys i = none) :
    present n (dir.deliver delivered).keys = present n delivered := by
  -- no key file was there before, so those present are the delivered ones
  have hsame : ∀ i ∈ List.range' 1 n,
      ((dir.deliver delivered).keys i).isSome = (delivered i).isSome := by
    intro i hi
    have hmem := List.mem_range'_1.mp hi
    show (delivered i <|> dir.keys i).isSome = _
    rw [hempty i hmem.1 (by omega)]
    cases delivered i <;> rfl
  unfold present
  rw [List.filter_congr hsame]

/-- When nothing is left to decrypt, nothing is written any more. -/
theorem attempts_spent (hmin : 1 ≤ minShares) {dir : Directory}
    (hspent : Spent nSharesTotal minShares dir.splits) {log : List (Locals × KeyFiles)}
    {endeds : List Ended} (h : attempts S nSharesTotal minShares dir log = .ok endeds) :
    endeds.countP (·.outp.isSome) = 0 := by
  -- the share files are gone, and stay gone
  induction log generalizing dir endeds with
  | nil =>
    cases h
    rfl
  | cons attempt rest ih =>
    obtain ⟨ended, hended, h⟩ := Returns.exists_of_bind_ok h
    obtain ⟨later, hlater, h⟩ := Returns.exists_of_bind_ok h
    cases h
    have hattempt := decrypt_spec hmin hended
    have hnone : ended.outp = none := by
      rw [← Option.not_isSome_iff_eq_none]
      intro hsome
      exact (hattempt.written hsome).1 hspent
    -- an attempt that writes nothing leaves the directory as it was
    have hunchanged : ended.dir.splits = dir.splits := hattempt.unwritten hnone
    rw [List.countP_cons_of_neg (by simp [hnone])]
    exact ih (hunchanged ▸ hspent) hlater

/-- **Attempts do not add up.** Each attempt of a run finds the key files that were delivered since
the one before, and writes the file if and only if these are enough. The file is written once at
most. -/
theorem attempts_spec (hmin : 1 ≤ minShares) {dir : Directory}
    (hempty : ∀ i, 1 ≤ i → i ≤ nSharesTotal → dir.keys i = none)
    {log : List (Locals × KeyFiles)} {endeds : List Ended}
    (h : attempts S nSharesTotal minShares dir log = .ok endeds) :
    List.Forall₂ (fun attempt ended => ended.status = 0 ∧
      (ended.outp.isSome ↔ minShares ≤ present nSharesTotal attempt.2)) log endeds ∧
    endeds.countP (·.outp.isSome) ≤ 1 := by
  induction log generalizing dir endeds with
  | nil =>
    cases h
    exact ⟨.nil, Nat.zero_le 1⟩
  | cons attempt rest ih =>
    obtain ⟨ended, hended, h⟩ := Returns.exists_of_bind_ok h
    obtain ⟨later, hlater, h⟩ := Returns.exists_of_bind_ok h
    cases h
    have hattempt := decrypt_spec hmin hended
    obtain ⟨hall, honce⟩ := ih hattempt.keys hlater
    refine ⟨.cons ⟨hattempt.status, ?_⟩ hall, ?_⟩
    · rw [← present_deliver attempt.2 hempty]
      exact hattempt.written_iff
    · cases houtp : ended.outp with
      | none =>
        rw [List.countP_cons_of_neg (by simp [houtp])]
        exact honce
      | some outp =>
        -- After this one, nothing is left.
        have hspent := (hattempt.written (by rw [houtp]; rfl)).2
        rw [List.countP_cons_of_pos (by simp [houtp]), attempts_spent hmin hspent hlater]

/-- A key file alone. -/
def single (number : ℕ) : KeyFiles := fun i =>
  if i = number then some (lines [1, 2, 3, 4, 5]) else none

/-- Two of three key files would be enough, and two are delivered, but one after the other. -/
theorem attempts_spec_oneByOne : ∃ endeds,
    attempts (keyless plain) 3 2 ⟨fun _ => none, ⟨fun _ => none, none⟩⟩
      [(filled 0, single 1), (filled 0, single 3)] = .ok endeds ∧
    List.Forall₂ (fun attempt ended => ended.status = 0 ∧
      (ended.outp.isSome ↔ 2 ≤ present 3 attempt.2))
      [(filled 0, single 1), (filled 0, single 3)] endeds ∧
    endeds.countP (·.outp.isSome) ≤ 1 := by
  have hrun : ∃ endeds, attempts (keyless plain) 3 2 ⟨fun _ => none, ⟨fun _ => none, none⟩⟩
      [(filled 0, single 1), (filled 0, single 3)] = .ok endeds := ⟨_, rfl⟩
  obtain ⟨endeds, hrun⟩ := hrun
  exact ⟨endeds, hrun, attempts_spec (by decide) (fun _ _ _ => rfl) hrun⟩

end Attempts

end TrustedProxyLayer
