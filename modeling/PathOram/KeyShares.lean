import PathOram.Splitter

/-!
# Key shares

`split_keys` and the decrypt branch of `shamirSecretSharing`: the key of an encrypted file is
cut into five words of seven bytes, which are split and restored as the blocks of a file are.

The buffer has three bytes more than the key, and the code that should clear them is never
reached. They are a part of the last word, of which only the first four bytes are written back.

`recoverKeys_splitKeys` is the round trip.
-/

namespace TrustedProxyLayer

open PathORAM Shamir Decimal Splitter

/-- `crypto_secretstream_xchacha20poly1305_KEYBYTES`. -/
def KEYBYTES : ℕ := 32

/-- The size of `buffer`: the next multiple of seven. -/
def keyBufferSize : ℕ := (KEYBYTES / 7 + 1) * 7

/-- The files `key-i.dat`. -/
abbrev KeyFiles : Type := ℕ → Option (List Char)

/-- The local variables that the code reads without having assigned them. -/
structure KeyUnassigned where
  buffer : Fin keyBufferSize → UInt8
  key : Fin KEYBYTES → UInt8
  val : ℤ

/-! ### `split_keys` -/

/-- The loop over the bytes of the key. The condition of the loop and that of its body are the
same, so no byte behind the key is assigned. -/
def keyBuffer (unassigned : KeyUnassigned) (array : Fin KEYBYTES → UInt8) : Bytes :=
  Records.overwrite 0 (List.ofFn array) (List.ofFn unassigned.buffer)

/-- `split_keys`. -/
def splitKeys (unassigned : KeyUnassigned) (nSharesTotal minShares : ℕ)
    (array : Fin KEYBYTES → UInt8) (draws : Draws) (files : KeyFiles) : Except Fault KeyFiles := do
  let s ← shareLoop nSharesTotal minShares keyBufferSize (keyBuffer unassigned array)
    ⟨fun _ => [], draws⟩
  pure (fun i =>
    if 1 ≤ i ∧ i ≤ nSharesTotal then some (lines ((s.complete (i - 1)).map SecretPair.y))
    else files i)

/-! ### `shamirSecretSharing` -/

/-- The loop over the key files: the shares of every word, and how many files are present. -/
def readKeyFiles (files : KeyFiles) (blocks : ℕ) :
    List ℕ → ℤ → List (List SecretPair) → ℕ → List (List SecretPair) × ℕ
  | [], _, ans, ct => (ans, ct)
  | i :: numbers, val, ans, ct =>
    match files i with
    | none => readKeyFiles files blocks numbers val ans ct
    | some text =>
      let (values, val) := readValues blocks ⟨text, false⟩ val
      readKeyFiles files blocks numbers val
        (ans.zipWith (fun pairs val => pairs ++ [⟨i, val⟩]) values) (ct + 1)

/-- `memcpy(&key[offset], …)`. -/
def copyTo (key : Bytes) (offset : ℕ) (bytes : Bytes) : Except Fault Bytes :=
  if offset + bytes.length ≤ key.length then .ok (Records.overwrite offset bytes key)
  else .error .outOfBounds

/-- The loop over the words, of which the last one is cut off. -/
def combineLoop (minShares : ℕ) : ℕ → List (List SecretPair) → ℕ → Bytes → Except Fault Bytes
  | _, [], _, key => pure key
  | i, pairs :: ans, size, key =>
    if size < 7 then do
      let val ← restore minShares pairs
      let key ← copyTo key (i * 7) ((bytesOf val).take size)
      combineLoop minShares (i + 1) ans 0 key
    else do
      let val ← restore minShares pairs
      let key ← copyTo key (i * 7) ((bytesOf val).take 7)
      combineLoop minShares (i + 1) ans (size - 7) key

/-- `shamirSecretSharing` up to the recovered key, and the key files that are left. There is no
key if too few files are found. -/
def recoverKeys (unassigned : KeyUnassigned) (nSharesTotal minShares : ℕ) (files : KeyFiles) :
    Except Fault (Option Bytes × KeyFiles) :=
  let blocks := (KEYBYTES / 7 + 1) * 7 / 7
  let (ans, ct) := readKeyFiles files blocks (List.range' 1 nSharesTotal) unassigned.val
    (List.replicate blocks []) 0
  let files : KeyFiles := fun i => if 1 ≤ i ∧ i ≤ nSharesTotal then none else files i
  if ct < minShares then .ok (none, files)
  else do
    let key ← combineLoop minShares 0 ans KEYBYTES (List.ofFn unassigned.key)
    pure (some key, files)

/-! ### What the key files contain -/

section Storing

variable {n k : ℕ} {unassigned : KeyUnassigned} {array : Fin KEYBYTES → UInt8}

theorem keyBuffer_eq : keyBuffer unassigned array =
    List.ofFn array ++ (List.ofFn unassigned.buffer).drop KEYBYTES := by
  rw [keyBuffer, overwrite_zero, List.length_ofFn]

theorem length_keyBuffer : (keyBuffer unassigned array).length = keyBufferSize := by
  rw [keyBuffer_eq, List.length_append, List.length_drop, List.length_ofFn, List.length_ofFn]
  rfl

/-- **What is stored**: shares of five words, whose bytes begin with the key. -/
theorem splitKeys_spec (unassigned : KeyUnassigned) (array : Fin KEYBYTES → UInt8) (draws : Draws)
    (files : KeyFiles) (hk : 1 ≤ k) (hkn : k ≤ n) (hn : n ≤ 9) :
    Returns (splitKeys unassigned n k array draws files) fun files' => ∃ blocks ys,
      List.Forall₂ (fun b y => SharesOf k (LittleEndian.decode b) y) blocks ys ∧
      (∀ b ∈ blocks, b.length = 7) ∧ blocks.length = 5 ∧ List.ofFn array <+: blocks.flatten ∧
      ∀ i, 1 ≤ i → i ≤ n → files' i = some (lines (ys.map fun y => (y i).y)) := by
  -- five blocks of seven bytes, the key and what was never assigned
  have hsize : (keyBufferSize : ℤ) = (7 * 5 : ℕ) := rfl
  have hbuffer : (keyBuffer unassigned array).length = 7 * 5 := length_keyBuffer
  have hempty : Shared n k [] [] ⟨fun _ => [], draws⟩ := ⟨.nil, fun _ _ => rfl⟩
  unfold splitKeys
  rw [hsize]
  refine (shareLoop_spec hk hkn hn hempty hbuffer.ge).bind
    fun s ⟨blocks, ys, ⟨hshares, hcomplete⟩, hseven, hcount, hflat⟩ => ?_
  refine Returns.pure ⟨blocks, ys, hshares, hseven, hcount, ?_, fun i h1 hi => ?_⟩
  · rw [hflat, List.take_of_length_le hbuffer.le, keyBuffer_eq]
    exact List.prefix_append _ _
  · dsimp only
    rw [if_pos ⟨h1, hi⟩, hcomplete (i - 1) (by omega), Nat.sub_add_cancel h1, List.map_map]
    rfl

end Storing

/-! ### What is read back from them -/

section Reading

variable {n k : ℕ} {files : KeyFiles} {present : Finset ℕ} {ys : List (ℕ → SecretPair)}

/-- A file with a line for every word. -/
theorem readValues_lines {zs : List ℤ} (hzs : ∀ z ∈ zs, 0 ≤ z ∧ z < PRIME) (val : ℤ) :
    (readValues zs.length ⟨lines zs, false⟩ val).1 = zs := by
  cases zs with
  | nil => rfl
  | cons z zs =>
    obtain ⟨hz₀, hz⟩ := hzs z List.mem_cons_self
    obtain ⟨stale, hread, hlen, -⟩ := readValues_spec
      (fun z hz => hzs z (List.mem_cons_of_mem _ hz)) hz₀ (le_refl zs.length)
    -- Nothing is read behind the last line.
    have hnil : stale = [] := List.eq_nil_of_length_eq_zero (hlen.trans (Nat.sub_self _))
    rw [hnil, List.append_nil] at hread
    rw [List.length_cons, readValues, extract_start hz₀ hz]
    exact congrArg (z :: ·) hread

/-- **The shares of the words**, from the files that are present. -/
theorem readKeyFiles_spec (hys : ∀ y ∈ ys, Readable y) {numbers : List ℕ}
    (h : ∀ i ∈ numbers, files i =
      if i ∈ present then some (lines (ys.map fun y => (y i).y)) else none)
    (val : ℤ) (done : List ℕ) :
    readKeyFiles files ys.length numbers val (ys.map fun y => done.map y) done.length =
      (ys.map fun y => (done ++ numbers.filter (· ∈ present)).map y,
        (done ++ numbers.filter (· ∈ present)).length) := by
  induction numbers generalizing val done with
  | nil => rw [readKeyFiles, List.filter_nil, List.append_nil]
  | cons i numbers ih =>
    have hrest := fun j hj => h j (List.mem_cons_of_mem _ hj)
    have hi := h i List.mem_cons_self
    by_cases hpresent : i ∈ present
    · rw [if_pos hpresent] at hi
      have hzs : ∀ z ∈ ys.map fun y => (y i).y, 0 ≤ z ∧ z < PRIME := fun z hz => by
        obtain ⟨y, hy, rfl⟩ := List.mem_map.mp hz
        exact (hys y hy i).2
      have hread := readValues_lines hzs val
      rw [List.length_map] at hread
      -- The file adds a share to every word.
      have hpush : (ys.map fun y => done.map y).zipWith
          (fun pairs val => pairs ++ [(⟨i, val⟩ : SecretPair)]) (ys.map fun y => (y i).y) =
          ys.map fun y => (done ++ [i]).map y := by
        rw [List.zipWith_map, List.zipWith_self]
        refine List.map_congr_left fun y hy => ?_
        rw [List.map_append, List.map_singleton, ← ((hys y hy) i).1]
      have hcount : done.length + 1 = (done ++ [i]).length := by
        rw [List.length_append, List.length_singleton]
      rw [readKeyFiles, hi, List.filter_cons_of_pos (by simpa using hpresent), List.append_cons]
      simp only [hread, hpush, hcount]
      exact ih hrest _ _
    · rw [if_neg hpresent] at hi
      rw [readKeyFiles, hi, List.filter_cons_of_neg (by simpa using hpresent)]
      exact ih hrest val done

end Reading

/-! ### The key is recovered -/

section Recovering

variable {n k : ℕ} {numbers : List ℕ}

/-- Bytes are copied over what follows those that are there. -/
theorem copyTo_append {start rest bytes : Bytes} {offset : ℕ} (hstart : start.length = offset)
    (hroom : bytes.length ≤ rest.length) :
    copyTo (start ++ rest) offset bytes = .ok (start ++ bytes ++ rest.drop bytes.length) := by
  have hle : offset + bytes.length ≤ (start ++ rest).length := by
    rw [List.length_append, hstart]
    exact Nat.add_le_add_left hroom offset
  rw [copyTo, if_pos hle, Records.overwrite_append hstart]

/-- **The words are written over the key**, the last one up to its end. -/
theorem combineLoop_spec (hnodup : numbers.Nodup) (hbounds : ∀ i ∈ numbers, 1 ≤ i ∧ i ≤ 9)
    (hk : k ≤ numbers.length) {blocks : List Bytes} {ys : List (ℕ → SecretPair)}
    (h : List.Forall₂ (fun b y => SharesOf k (LittleEndian.decode b) y) blocks ys)
    (hseven : ∀ b ∈ blocks, b.length = 7) {i : ℕ} {start : Bytes}
    (hstart : start.length = i * 7) (rest : Bytes) (hsize : rest.length ≤ 7 * blocks.length)
    (hlast : 7 * blocks.length < rest.length + 7) :
    Returns (combineLoop k i (ys.map fun y => numbers.map y) rest.length (start ++ rest))
      (· = start ++ blocks.flatten.take rest.length) := by
  induction h generalizing i start rest with
  | nil =>
    have hnil : rest = [] := List.eq_nil_of_length_eq_zero (Nat.le_zero.mp hsize)
    subst hnil
    exact Returns.pure rfl
  | @cons b y blocks ys hb hbs ih =>
    have hlen : b.length = 7 := hseven b List.mem_cons_self
    have hrestore := hb.restore (Int.natCast_nonneg _) (decode_lt_PRIME hlen) hnodup hbounds hk
    have hbytes := take_bytesOf_decode hlen
    rw [List.length_cons] at hsize hlast
    rw [List.map_cons, combineLoop, List.flatten_cons]
    split
    next hlt =>
      -- This is the last word, and what is behind the key is not copied.
      have hnil : blocks = [] := List.eq_nil_of_length_eq_zero (by omega)
      subst hnil
      cases hbs
      have hlow : (bytesOf (LittleEndian.decode b)).take rest.length = b.take rest.length := by
        conv_rhs => rw [← hbytes, List.take_take, Nat.min_eq_left (by omega)]
      have hcount : (b.take rest.length).length = rest.length := by
        rw [List.length_take]
        omega
      refine Returns.bind ⟨_, hrestore, rfl⟩ fun val hval => ?_
      subst hval
      rw [hlow]
      refine Returns.bind ⟨_, copyTo_append hstart hcount.le, rfl⟩ fun key hkey => ?_
      subst hkey
      refine Returns.pure ?_
      rw [hcount, List.drop_length, List.append_nil, List.flatten_nil, List.append_nil]
    next hge =>
      refine Returns.bind ⟨_, hrestore, rfl⟩ fun val hval => ?_
      subst hval
      rw [hbytes]
      refine Returns.bind ⟨_, copyTo_append hstart (by omega), rfl⟩ fun key hkey => ?_
      subst hkey
      have hdrop : (rest.drop b.length).length = rest.length - 7 := by
        rw [List.length_drop, hlen]
      have hstart' : (start ++ b).length = (i + 1) * 7 := by
        rw [List.length_append, hstart, hlen, Nat.succ_mul]
      have hloop := ih (fun b hb => hseven b (List.mem_cons_of_mem _ hb)) hstart'
        (rest.drop b.length) (by omega) (by omega)
      rw [hdrop] at hloop
      refine hloop.mono fun key hkey => ?_
      rw [hkey, List.take_append, List.take_of_length_le (by omega : b.length ≤ rest.length), hlen,
        List.append_assoc]

/-- The key files that are present. -/
def KeyFiles.keep (present : Finset ℕ) (files : KeyFiles) : KeyFiles := fun i =>
  if i ∈ present then files i else none

/-- **Key shares recover the key**, from any `minShares` of the key files, whatever coefficients
are drawn and whatever is behind the key in the buffer. The buffer is a multiple of seven bytes
long, so that its last block has unassigned bytes; they are shared and restored with the rest, and
then cut off. -/
theorem recoverKeys_splitKeys {nSharesTotal minShares : ℕ} (hmin : 1 ≤ minShares)
    (hle : minShares ≤ nSharesTotal) (htotal : nSharesTotal ≤ 9)
    (unassigned unassigned' : KeyUnassigned) (array : Fin KEYBYTES → UInt8) (draws : Draws)
    (files : KeyFiles) {present : Finset ℕ} (hpresent : present ⊆ Finset.Icc 1 nSharesTotal)
    (hcard : minShares ≤ present.card) :
    ∃ stored left, splitKeys unassigned nSharesTotal minShares array draws files = .ok stored ∧
      recoverKeys unassigned' nSharesTotal minShares (stored.keep present) =
        .ok (some (List.ofFn array), left) := by
  obtain ⟨stored, hstored, blocks, ys, hshares, hseven, hcount, hbegin, hfiles⟩ :=
    splitKeys_spec unassigned array draws files hmin hle htotal
  obtain ⟨hnodup, hbounds, hlength⟩ := filter_range' htotal hpresent
  have hys : ys.length = 5 := hshares.length_eq.symm.trans hcount
  -- a key file is there exactly if it was kept, and has one share per block
  have hlines : ∀ i ∈ List.range' 1 nSharesTotal, stored.keep present i =
      if i ∈ present then some (lines (ys.map fun y => (y i).y)) else none := fun i hi => by
    have hmem := List.mem_range'_1.mp hi
    rw [KeyFiles.keep, hfiles i hmem.1 (by omega)]
  have hread := readKeyFiles_spec (readable_of_forall₂ hshares) hlines unassigned'.val []
  have hstart : (ys.map fun y => ([] : List ℕ).map y) = List.replicate 5 [] := by
    rw [← hys]
    simp
  rw [hstart, hys, List.nil_append, List.length_nil] at hread
  have hsize : KEYBYTES = 32 := rfl
  have hkey : (List.ofFn unassigned'.key).length = KEYBYTES := List.length_ofFn
  have hzero : ([] : Bytes).length = 0 * 7 := rfl
  have hcombine := combineLoop_spec hnodup hbounds (hlength.symm ▸ hcard) hshares hseven hzero
    (List.ofFn unassigned'.key) (by omega) (by omega)
  -- the blocks begin with the key, the rest is cut off
  have hflat : blocks.flatten.take KEYBYTES = List.ofFn array := by
    conv_rhs => rw [List.prefix_iff_eq_take.mp hbegin, List.length_ofFn]
  rw [hkey, List.nil_append, List.nil_append, hflat] at hcombine
  obtain ⟨key, hcombined, rfl⟩ := hcombine
  -- enough key files are found
  have hfound : ¬((List.range' 1 nSharesTotal).filter (· ∈ present)).length < minShares := by
    omega
  have hblocks : (KEYBYTES / 7 + 1) * 7 / 7 = 5 := rfl
  refine ⟨stored, fun i => if 1 ≤ i ∧ i ≤ nSharesTotal then none else stored.keep present i,
    hstored, ?_⟩
  unfold recoverKeys
  simp only [hblocks, hread, if_neg hfound]
  rw [hcombined]
  rfl

/-- Two of three key files, with different bytes behind the key. -/
theorem recoverKeys_splitKeys_three : ∃ stored left,
    splitKeys ⟨fun _ => 1, fun _ => 2, 3⟩ 3 2 (fun i => UInt8.ofNat i) (fun _ => ⟨4, by decide⟩)
      (fun _ => none) = .ok stored ∧
    recoverKeys ⟨fun _ => 5, fun _ => 6, 7⟩ 3 2 (stored.keep {1, 3}) =
      .ok (some (List.ofFn fun i : Fin KEYBYTES => UInt8.ofNat i), left) :=
  recoverKeys_splitKeys (by decide) (by decide) (by decide) _ _ _ _ _ (by decide) (by decide)

end Recovering

end TrustedProxyLayer
