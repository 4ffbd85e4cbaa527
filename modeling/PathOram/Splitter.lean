import PathOram.Definitions
import PathOram.Shamir
import PathOram.Lib.Decimal
import PathOram.Lib.LittleEndian
import PathOram.Lib.Records

/-!
# Share files

`splitter.cpp`: `read_file` cuts a file into blocks of seven bytes, splits a header and
every block, and writes the values of each share to one text file; `handle_text` restores
the blocks from the share files that are present.

`read_file` leaves `ct_empty` unassigned when the length of the file is a multiple of
seven, and counts the bytes of a chunk down to exactly zero. `Aligned` says when the two
fit; `combine_split_iff` shows that this is exactly when the file is restored.
-/

namespace Splitter

open PathORAM Shamir Decimal

def CHUNK_SIZE : ℕ := 42000

def CHECK_SUM : UInt16 := 6969

structure Header where
  tot_sz : UInt32
  csum : UInt16
  emptyct : UInt8

/-- The local variables that the code reads without having assigned them. -/
structure Unassigned where
  ct_empty : UInt8
  buffer : Fin CHUNK_SIZE → UInt8
  val : ℤ

/-- The share files `split-i.dat` and `combined_shares.dat`. -/
structure Files where
  shares : ℕ → Option (List Char)
  combined_shares : Option Bytes

/-- The result of an operation on `int` that is not negative. -/
def int (z : ℕ) : Except Fault ℕ := if z < 2 ^ 31 then .ok z else .error .overflow

/-- The first seven bytes of a header. The eighth is padding. -/
def Header.bytes (header : Header) : Bytes :=
  LittleEndian.encode 4 header.tot_sz.toNat ++
    (LittleEndian.encode 2 header.csum.toNat ++ [header.emptyct])

/-- The header at the beginning of some bytes. -/
def Header.ofBytes (bytes : Bytes) : Header where
  tot_sz := UInt32.ofNat (LittleEndian.decode (bytes.take 4))
  csum := UInt16.ofNat (LittleEndian.decode ((bytes.drop 4).take 2))
  emptyct := (bytes.drop 6).headD 0

/-- The eight bytes of a `long long`. -/
def bytesOf (ret : ℤ) : Bytes := LittleEndian.encode 8 (ret % 2 ^ 64).toNat

/-- `in >> val` for a `long long`. -/
def extract (stream : IStream) (val : ℤ) : ℤ × IStream :=
  stream.extract (-2 ^ 63) (2 ^ 63 - 1) val

/-! ### `read_file` -/

/-- The shares made so far and the draws to come. -/
structure Sharing where
  complete : ℕ → List SecretPair
  draws : Draws

/-- Split seven bytes and append each share to its vector. -/
def shareBlock (n k : ℕ) (block : Bytes) (s : Sharing) : Except Fault Sharing := do
  let (ret, draws) ← split (LittleEndian.decode block) n k s.draws
  if ret.length < n then .error .outOfBounds
  else pure ⟨fun i => if i < n then s.complete i ++ [ret.getD i ⟨0, 0⟩] else s.complete i, draws⟩

/-- `while (size)`: the blocks of the buffer, from `ptr` on. -/
def shareLoop (n k : ℕ) (size : ℤ) (ptr : Bytes) (s : Sharing) : Except Fault Sharing :=
  if size = 0 then .ok s
  else if 7 ≤ ptr.length then do
    let s ← shareBlock n k (ptr.take 7) s
    shareLoop n k (size - 7) (ptr.drop 7) s
  else .error .outOfBounds
termination_by ptr.length
decreasing_by
  rw [List.length_drop]
  omega

/-- `for (i = 0; i < ct_empty; ++i) buffer[gcount + i] = 0`. -/
def fillEmpty (gcount ct_empty : ℕ) (buffer : Bytes) : Except Fault Bytes :=
  if gcount + ct_empty ≤ CHUNK_SIZE then
    .ok (Records.overwrite gcount (List.replicate ct_empty 0) buffer)
  else .error .outOfBounds

/-- `while (infile.read(buffer, CHUNK_SIZE))`, and the remaining part of the file. -/
def readLoop (n k : ℕ) (ct_empty : UInt8) (buffer infile : Bytes) (s : Sharing) :
    Except Fault Sharing :=
  if CHUNK_SIZE ≤ infile.length then do
    let s ← shareLoop n k CHUNK_SIZE (infile.take CHUNK_SIZE) s
    readLoop n k ct_empty (infile.take CHUNK_SIZE) (infile.drop CHUNK_SIZE) s
  else if 0 < infile.length then do
    let buffer ← fillEmpty infile.length ct_empty.toNat (Records.overwrite 0 infile buffer)
    shareLoop n k (infile.length + ct_empty.toNat : ℕ) buffer s
  else pure s
termination_by infile.length
decreasing_by
  rw [List.length_drop]
  unfold CHUNK_SIZE at *
  omega

/-- The number of bytes that are missing to a multiple of seven; the variable keeps what it
holds when there are none. -/
def ctEmpty (curr_sz : ℕ) (unassigned : UInt8) : UInt8 :=
  if curr_sz % 7 ≠ 0 then UInt8.ofNat ((curr_sz / 7 + 1) * 7 - curr_sz) else unassigned

/-- `read_file`. -/
def readFile (unassigned : Unassigned) (file : Bytes) (n k : ℕ) (draws : Draws)
    (files : Files) : Except Fault Files := do
  let tot_sz ← int file.length
  let curr_sz ← int (tot_sz + 7)
  let ct_empty := ctEmpty curr_sz unassigned.ct_empty
  let header : Header := ⟨UInt32.ofNat tot_sz, CHECK_SUM, ct_empty⟩
  let s ← shareBlock n k header.bytes ⟨fun _ => [], draws⟩
  let s ← readLoop n k ct_empty (List.ofFn unassigned.buffer) file s
  pure { files with
    shares := fun i =>
      if 1 ≤ i ∧ i ≤ n then some (lines ((s.complete (i - 1)).map SecretPair.y))
      else files.shares i }

/-! ### `handle_text` -/

/-- The first value of every share file that is present, and the last value read. -/
def findHead (files : Files) : List ℕ → ℤ → List SecretPair × ℤ
  | [], val => ([], val)
  | i :: numbers, val =>
    match files.shares i with
    | none => findHead files numbers val
    | some text =>
      let (val, _) := extract ⟨text, false⟩ val
      let (findhead, last) := findHead files numbers val
      (⟨i, val⟩ :: findhead, last)

/-- The next values of a share file. -/
def readValues : ℕ → IStream → ℤ → List ℤ × ℤ
  | 0, _, val => ([], val)
  | blocks + 1, stream, val =>
    let (val, stream) := extract stream val
    let (values, last) := readValues blocks stream val
    (val :: values, last)

/-- The shares of every block, from the share files that are present. -/
def readShares (files : Files) (blocks : ℕ) :
    List ℕ → ℤ → List (List SecretPair) → List (List SecretPair)
  | [], _, ans => ans
  | i :: numbers, val, ans =>
    match files.shares i with
    | none => readShares files blocks numbers val ans
    | some text =>
      let (val, stream) := extract ⟨text, false⟩ val
      let (values, val) := readValues blocks stream val
      readShares files blocks numbers val
        (ans.zipWith (fun pairs val => pairs ++ [⟨i, val⟩]) values)

/-- The bytes of the restored blocks, `tot` at most. -/
def writeLoop (k : ℕ) : List (List SecretPair) → ℤ → Except Fault Bytes
  | [], _ => pure []
  | pairs :: ans, tot => do
    let ret ← restore k pairs
    if tot < 7 then
      -- A negative number of bytes is a huge one for `fwrite`.
      if tot < 0 then .error .outOfBounds
      else do
        let rest ← writeLoop k ans 0
        pure ((bytesOf ret).take tot.toNat ++ rest)
    else do
      let rest ← writeLoop k ans (tot - 7)
      pure ((bytesOf ret).take 7 ++ rest)

/-- `handle_text`. -/
def handleText (unassigned : Unassigned) (n k : ℕ) (files : Files) : Except Fault Files :=
  let (findhead, val) := findHead files (List.range' 1 n) unassigned.val
  if findhead.length < k then .ok files
  else do
    let ret ← restore k findhead
    let header := Header.ofBytes (bytesOf ret)
    let blocks := (header.emptyct.toUInt32 + header.tot_sz).toNat / 7
    let ans := readShares files blocks (List.range' 1 n) val (List.replicate blocks [])
    let combined ← writeLoop k ans (Int.bmod header.tot_sz.toNat (2 ^ 32))
    pure {
      shares := fun i => if 1 ≤ i ∧ i ≤ n then none else files.shares i
      combined_shares := some combined }

/-! ### What the share files contain -/

section Storing

variable {n k : ℕ} {blocks done : List Bytes} {s : Sharing}

/-- The vectors of the shares after some blocks: one polynomial for each block, and in
vector `i` the values at `i + 1`. -/
def Shared (n k : ℕ) (blocks : List Bytes) (ys : List (ℕ → SecretPair)) (s : Sharing) : Prop :=
  List.Forall₂ (fun b y => SharesOf k (LittleEndian.decode b) y) blocks ys ∧
    ∀ i < n, s.complete i = ys.map fun y => y (i + 1)

/-- Seven bytes are a number below `PRIME`. -/
theorem decode_lt_PRIME {block : Bytes} (h : block.length = 7) :
    (LittleEndian.decode block : ℤ) < PRIME := by
  have hlt := LittleEndian.decode_lt block
  rw [h] at hlt
  unfold PRIME
  omega

theorem shareBlock_spec (hk : 1 ≤ k) (hkn : k ≤ n) (hn : n ≤ 9)
    {ys : List (ℕ → SecretPair)} (h : Shared n k done ys s) {block : Bytes}
    (hblock : block.length = 7) :
    Returns (shareBlock n k block s)
      fun s' => ∃ y, Shared n k (done ++ [block]) (ys ++ [y]) s' := by
  unfold shareBlock
  refine (split_spec hkn hk hn (Int.natCast_nonneg _) (decode_lt_PRIME hblock) s.draws).bind
    fun (ret, draws) ⟨y, hy, hret⟩ => ?_
  dsimp only at hret ⊢
  have hlen : ret.length = n := by rw [hret, List.length_map, List.length_range]
  rw [if_neg (by omega)]
  refine Returns.pure ⟨y, List.rel_append h.1 (.cons hy .nil), fun i hi => ?_⟩
  -- the file `i` receives the share with the number `i + 1`
  have hget : ret.getD i ⟨0, 0⟩ = y (i + 1) := by
    rw [List.getD_eq_getElem _ _ (hlen ▸ hi)]
    simp only [hret, List.getElem_map, List.getElem_range]
  dsimp only
  rw [if_pos hi, h.2 i hi, hget, List.map_append, List.map_singleton]

/-- **The loop over the blocks of a buffer**, when the size is a multiple of seven that
fits in the buffer. -/
theorem shareLoop_spec (hk : 1 ≤ k) (hkn : k ≤ n) (hn : n ≤ 9) {ys : List (ℕ → SecretPair)}
    (h : Shared n k done ys s) {m : ℕ} {ptr : Bytes} (hm : 7 * m ≤ ptr.length) :
    Returns (shareLoop n k (7 * m : ℕ) ptr s) fun s' => ∃ blocks ys',
      Shared n k (done ++ blocks) (ys ++ ys') s' ∧ (∀ b ∈ blocks, b.length = 7) ∧
        blocks.length = m ∧ blocks.flatten = ptr.take (7 * m) := by
  -- on the number of blocks of seven bytes that are left
  induction m generalizing done ys ptr s with
  | zero =>
    rw [shareLoop, if_pos (by omega)]
    refine Returns.pure ⟨[], [], ?_, by simp, rfl, by simp⟩
    rwa [List.append_nil, List.append_nil]
  | succ m ih =>
    have hsize : ((7 * (m + 1) : ℕ) : ℤ) - 7 = (7 * m : ℕ) := by omega
    have hblock : (ptr.take 7).length = 7 := by rw [List.length_take]; omega
    rw [shareLoop, if_neg (by omega), if_pos (by omega), hsize]
    refine (shareBlock_spec hk hkn hn h hblock).bind fun s' ⟨y, hs'⟩ => ?_
    have hrest : 7 * m ≤ (ptr.drop 7).length := by rw [List.length_drop]; omega
    refine (ih hs' hrest).mono fun s'' ⟨blocks, ys', hs'', hlen, hcount, hflat⟩ => ?_
    refine ⟨ptr.take 7 :: blocks, y :: ys', ?_, ?_, by rw [List.length_cons, hcount], ?_⟩
    · rwa [List.append_assoc, List.append_assoc] at hs''
    · exact List.forall_mem_cons.mpr ⟨hblock, hlen⟩
    · rw [List.flatten_cons, hflat, Nat.mul_succ, Nat.add_comm, List.take_add]

/-- **The loop counts down to zero exactly** when it returns. -/
theorem exists_of_shareLoop_ok {size : ℤ} {ptr : Bytes} {s s' : Sharing}
    (h : shareLoop n k size ptr s = .ok s') : ∃ m : ℕ, size = 7 * m ∧ 7 * m ≤ ptr.length := by
  rw [shareLoop] at h
  split at h
  next hzero => exact ⟨0, by omega, by omega⟩
  -- a loop that ends has come to zero exactly, in steps of seven
  next hne =>
    split at h
    next hlen =>
      obtain ⟨s₁, -, h⟩ := Returns.exists_of_bind_ok h
      obtain ⟨m, hm, hle⟩ := exists_of_shareLoop_ok h
      rw [List.length_drop] at hle
      exact ⟨m + 1, by omega, by omega⟩
    next => cases h
termination_by ptr.length
decreasing_by
  rw [List.length_drop]
  omega

/-- The length of a file and the number of bytes appended to it fit together: the last part
of the file is filled up to a multiple of seven, inside the buffer. -/
def Fits (length ct_empty : ℕ) : Prop :=
  length % CHUNK_SIZE = 0 ∨
    7 ∣ length % CHUNK_SIZE + ct_empty ∧ length % CHUNK_SIZE + ct_empty ≤ CHUNK_SIZE

/-- A read replaces the beginning of the buffer. -/
theorem overwrite_zero (infile buffer : Bytes) :
    Records.overwrite 0 infile buffer = infile ++ buffer.drop infile.length := by
  unfold Records.overwrite
  rw [List.take_zero, List.nil_append, Nat.zero_add]

/-- **Reading the file**: the blocks begin with the bytes of the file. -/
theorem readLoop_spec (hk : 1 ≤ k) (hkn : k ≤ n) (hn : n ≤ 9) {done : List Bytes}
    {ys : List (ℕ → SecretPair)} {s : Sharing} (h : Shared n k done ys s) {ct_empty : UInt8}
    {buffer infile : Bytes}
    (hfits : Fits infile.length ct_empty.toNat) :
    Returns (readLoop n k ct_empty buffer infile s) fun s' => ∃ blocks ys',
      Shared n k (done ++ blocks) (ys ++ ys') s' ∧ (∀ b ∈ blocks, b.length = 7) ∧
        7 * blocks.length ≤ infile.length + ct_empty.toNat ∧ infile <+: blocks.flatten := by
  have hC : CHUNK_SIZE = 7 * 6000 := rfl
  rw [readLoop]
  split
  next hfull =>
    have hchunk : (infile.take CHUNK_SIZE).length = CHUNK_SIZE := List.length_take_of_le hfull
    have hdrop : (infile.drop CHUNK_SIZE).length = infile.length - CHUNK_SIZE :=
      List.length_drop
    have hrest : Fits (infile.drop CHUNK_SIZE).length ct_empty.toNat := by
      unfold Fits at hfits ⊢
      rwa [hdrop, ← Nat.mod_eq_sub_mod hfull]
    refine (shareLoop_spec (m := 6000) hk hkn hn h (hC.ge.trans hchunk.ge)).bind
      fun s₁ ⟨blocks₁, ys₁, hs₁, hlen₁, hcount₁, hflat₁⟩ => ?_
    refine (readLoop_spec hk hkn hn hs₁ hrest).mono
      fun s₂ ⟨blocks₂, ys₂, hs₂, hlen₂, hcount₂, hflat₂⟩ => ?_
    refine ⟨blocks₁ ++ blocks₂, ys₁ ++ ys₂, ?_, ?_, ?_, ?_⟩
    · rwa [← List.append_assoc, ← List.append_assoc]
    · exact fun b hb => (List.mem_append.mp hb).elim (hlen₁ b) (hlen₂ b)
    · rw [List.length_append]
      omega
    · rw [List.flatten_append, hflat₁, ← hC, List.take_of_length_le hchunk.le]
      conv_lhs => rw [← List.take_append_drop CHUNK_SIZE infile]
      exact List.prefix_append_right_inj _ |>.mpr hflat₂
  next hpart =>
    split
    next hpos =>
      -- The last part is filled up with zeros.
      have hmod : infile.length % CHUNK_SIZE = infile.length := Nat.mod_eq_of_lt (by omega)
      unfold Fits at hfits
      rw [hmod] at hfits
      obtain ⟨m, hm⟩ : 7 ∣ infile.length + ct_empty.toNat := by omega
      have hle : infile.length + ct_empty.toNat ≤ CHUNK_SIZE := by omega
      have hread : Records.overwrite 0 infile buffer = infile ++ buffer.drop infile.length :=
        overwrite_zero infile buffer
      have hfill : Records.overwrite infile.length (List.replicate ct_empty.toNat 0)
          (Records.overwrite 0 infile buffer) =
          infile ++ List.replicate ct_empty.toNat 0 ++
            (buffer.drop infile.length).drop ct_empty.toNat := by
        rw [hread, Records.overwrite_append rfl, List.length_replicate]
      unfold fillEmpty
      rw [if_pos hle, hfill, hm]
      refine (shareLoop_spec hk hkn hn h ?_).mono
        fun s' ⟨blocks, ys', hs', hlen, hcount, hflat⟩ => ?_
      · rw [List.length_append, List.length_append, List.length_replicate]
        omega
      · refine ⟨blocks, ys', hs', hlen, by omega, ?_⟩
        rw [hflat, List.take_left' (by rw [List.length_append, List.length_replicate, hm])]
        exact List.prefix_append _ _
    next hzero =>
      have hnil : infile = [] := List.length_eq_zero_iff.mp (by omega)
      refine Returns.pure ⟨[], [], ?_, by simp, by simp, by rw [hnil]; exact List.nil_prefix⟩
      rwa [List.append_nil, List.append_nil]
termination_by infile.length
decreasing_by
  rw [List.length_drop]
  unfold CHUNK_SIZE at *
  omega

/-- **Reading returns only when the length fits.** -/
theorem fits_of_readLoop_ok {ct_empty : UInt8} {buffer infile : Bytes} {s s' : Sharing}
    (h : readLoop n k ct_empty buffer infile s = .ok s') :
    Fits infile.length ct_empty.toNat := by
  rw [readLoop] at h
  split at h
  -- a full chunk leaves the remainder of the length as it is
  next hfull =>
    obtain ⟨s₁, -, h⟩ := Returns.exists_of_bind_ok h
    have hrest := fits_of_readLoop_ok h
    unfold Fits at hrest ⊢
    rwa [List.length_drop, ← Nat.mod_eq_sub_mod hfull] at hrest
  -- the last chunk, with the padding at its end
  next hpart =>
    have hmod : infile.length % CHUNK_SIZE = infile.length := Nat.mod_eq_of_lt (by omega)
    unfold Fits
    rw [hmod]
    split at h
    next hpos =>
      unfold fillEmpty at h
      split at h
      next hle =>
        obtain ⟨m, hm, -⟩ := exists_of_shareLoop_ok h
        exact Or.inr ⟨⟨m, by omega⟩, hle⟩
      next => cases h
    -- no last chunk
    next hzero => exact Or.inl (by omega)
termination_by infile.length
decreasing_by
  rw [List.length_drop]
  unfold CHUNK_SIZE at *
  omega

end Storing

/-! ### The header -/

/-- When the bytes of the file and those appended to it fit together. -/
def Aligned (length : ℕ) (unassigned : UInt8) : Prop :=
  length % 7 ≠ 0 ∨ length % CHUNK_SIZE = 0 ∨
    unassigned.toNat % 7 = 0 ∧ length % CHUNK_SIZE + unassigned.toNat ≤ CHUNK_SIZE

theorem fits_ctEmpty_iff {length : ℕ} {unassigned : UInt8} :
    Fits length (ctEmpty (length + 7) unassigned).toNat ↔ Aligned length unassigned := by
  have hC : CHUNK_SIZE = 7 * 6000 := rfl
  have hmod : length % CHUNK_SIZE % 7 = length % 7 := Nat.mod_mod_of_dvd _ ⟨6000, hC⟩
  have hlt : length % CHUNK_SIZE < CHUNK_SIZE := Nat.mod_lt _ (by decide)
  unfold Fits Aligned ctEmpty
  split
  next hne =>
    -- Fewer than seven bytes are appended, and a chunk is a multiple of seven.
    have hct : (UInt8.ofNat (((length + 7) / 7 + 1) * 7 - (length + 7))).toNat =
        ((length + 7) / 7 + 1) * 7 - (length + 7) := by
      rw [UInt8.toNat_ofNat']
      omega
    rw [hct]
    omega
  next heq => omega

/-- The bytes of a restored block begin with the seven that were split. -/
theorem take_bytesOf_decode {block : Bytes} (h : block.length = 7) :
    (bytesOf (LittleEndian.decode block)).take 7 = block := by
  have hlt := LittleEndian.decode_lt block
  rw [h] at hlt
  have hmod : ((LittleEndian.decode block : ℤ) % 2 ^ 64).toNat = LittleEndian.decode block := by
    omega
  unfold bytesOf
  rw [hmod, LittleEndian.take_encode (by omega), ← h, LittleEndian.encode_decode]

theorem Header.length_bytes (header : Header) : header.bytes.length = 7 := by
  unfold Header.bytes
  simp

/-- **The header is read back**, whatever stands in the eighth byte. -/
theorem Header.ofBytes_append (header : Header) (rest : Bytes) :
    Header.ofBytes (header.bytes ++ rest) = header := by
  have h4 : (LittleEndian.encode 4 header.tot_sz.toNat).length = 4 :=
    LittleEndian.length_encode 4 _
  have h2 : (LittleEndian.encode 2 header.csum.toNat).length = 2 :=
    LittleEndian.length_encode 2 _
  have hsz : LittleEndian.decode (LittleEndian.encode 4 header.tot_sz.toNat) =
      header.tot_sz.toNat := LittleEndian.decode_encode header.tot_sz.toNat_lt
  have hcsum : LittleEndian.decode (LittleEndian.encode 2 header.csum.toNat) =
      header.csum.toNat := LittleEndian.decode_encode header.csum.toNat_lt
  -- six bytes for the size and the checksum, then the count of the padding
  have hdrop : ∀ rest : Bytes, (LittleEndian.encode 4 header.tot_sz.toNat ++
      (LittleEndian.encode 2 header.csum.toNat ++ rest)).drop 6 = rest := fun rest => by
    rw [← List.append_assoc]
    exact List.drop_left' (by rw [List.length_append, h4, h2])
  unfold Header.ofBytes Header.bytes
  rw [List.append_assoc, List.append_assoc, List.take_left' h4, List.drop_left' h4,
    List.take_left' h2, hsz, hcsum, hdrop, UInt32.ofNat_toNat, UInt16.ofNat_toNat]
  rfl

theorem Header.ofBytes_bytesOf (header : Header) :
    Header.ofBytes (bytesOf (LittleEndian.decode header.bytes)) = header := by
  have h := take_bytesOf_decode header.length_bytes
  rw [← List.take_append_drop 7 (bytesOf (LittleEndian.decode header.bytes)), h]
  exact header.ofBytes_append _

/-- What `read_file` stores: a share of the header and of every block. -/
structure Stored (n k : ℕ) (header : Header) (blocks : List Bytes)
    (y : ℕ → SecretPair) (ys : List (ℕ → SecretPair)) (files : Files) : Prop where
  header : SharesOf k (LittleEndian.decode header.bytes) y
  blocks : List.Forall₂ (fun b y => SharesOf k (LittleEndian.decode b) y) blocks ys
  shares : ∀ i, 1 ≤ i → i ≤ n →
    files.shares i = some (lines ((y :: ys).map fun y => (y i).y))

variable {n k : ℕ} {file : Bytes} {unassigned : Unassigned} {draws : Draws} {files : Files}

/-- **What is stored of a file** whose length fits. -/
theorem readFile_spec (draws : Draws) (files : Files) (hk : 1 ≤ k) (hkn : k ≤ n) (hn : n ≤ 9)
    (hlen : file.length < 2 ^ 31 - 7) (haligned : Aligned file.length unassigned.ct_empty) :
    Returns (readFile unassigned file n k draws files) fun files' => ∃ blocks y ys,
      Stored n k ⟨UInt32.ofNat file.length, CHECK_SUM,
        ctEmpty (file.length + 7) unassigned.ct_empty⟩ blocks y ys files' ∧
      (∀ b ∈ blocks, b.length = 7) ∧ file <+: blocks.flatten ∧
      7 * blocks.length ≤
        file.length + (ctEmpty (file.length + 7) unassigned.ct_empty).toNat := by
  unfold readFile
  -- no size overflows an `int`
  have hsz : int file.length = .ok file.length := if_pos (by omega)
  have hcurr : int (file.length + 7) = .ok (file.length + 7) := if_pos (by omega)
  refine Returns.bind ⟨_, hsz, rfl⟩ fun tot_sz htot => ?_
  subst htot
  refine Returns.bind ⟨_, hcurr, rfl⟩ fun curr_sz hcurr => ?_
  subst hcurr
  dsimp only
  -- the header is the first block
  refine (shareBlock_spec hk hkn hn ⟨.nil, fun _ _ => rfl⟩ (Header.length_bytes _)).bind
    fun s ⟨y, hs⟩ => ?_
  refine (readLoop_spec hk hkn hn hs (fits_ctEmpty_iff.mpr haligned)).bind
    fun s' ⟨blocks, ys, hs', hseven, hcount, hbegin⟩ => ?_
  obtain ⟨hshares, hcomplete⟩ := hs'
  -- the shares of the header are apart from those of the file
  cases hshares with
  | cons hheader hblocks =>
    refine Returns.pure ⟨blocks, y, ys, ⟨hheader, hblocks, fun i h1 hi => ?_⟩, hseven, hbegin,
      hcount⟩
    dsimp only
    rw [if_pos ⟨h1, hi⟩, hcomplete (i - 1) (by omega), Nat.sub_add_cancel h1, List.map_map]
    rfl

/-- Otherwise reading the file does not return. -/
theorem aligned_of_readFile_ok {files' : Files} (hlen : file.length < 2 ^ 31 - 7)
    (h : readFile unassigned file n k draws files = .ok files') :
    Aligned file.length unassigned.ct_empty := by
  have hsz : int file.length = .ok file.length := if_pos (by omega)
  have hcurr : int (file.length + 7) = .ok (file.length + 7) := if_pos (by omega)
  -- the steps of `readFile` one by one; only the last one depends on the length
  obtain ⟨tot_sz, htot, h⟩ := Returns.exists_of_bind_ok h
  cases hsz.symm.trans htot
  obtain ⟨curr_sz, hcurr', h⟩ := Returns.exists_of_bind_ok h
  cases hcurr.symm.trans hcurr'
  obtain ⟨s, -, h⟩ := Returns.exists_of_bind_ok h
  obtain ⟨s', hread, -⟩ := Returns.exists_of_bind_ok h
  exact fits_ctEmpty_iff.mp (fits_of_readLoop_ok hread)

/-! ### What is read back from the share files -/

/-- The share files that are present. -/
def Files.keep (present : Finset ℕ) (files : Files) : Files where
  shares i := if i ∈ present then files.shares i else none
  combined_shares := files.combined_shares

section Reading

variable {present : Finset ℕ} {numbers : List ℕ} {val : ℤ}

/-- The values of a vector of shares fit in a `long long`. -/
def Readable (y : ℕ → SecretPair) : Prop := ∀ i, (y i).x = i ∧ 0 ≤ (y i).y ∧ (y i).y < PRIME

theorem SharesOf.readable {secret : ℤ} {y : ℕ → SecretPair} (h : SharesOf k secret y) :
    Readable y := by
  obtain ⟨f, -, -, rfl⟩ := h
  exact fun i => ⟨rfl, Int.natCast_nonneg _, val_lt_PRIME _⟩

theorem readable_of_forall₂ {blocks : List Bytes} {ys : List (ℕ → SecretPair)}
    (h : List.Forall₂ (fun b y => SharesOf k (LittleEndian.decode b) y) blocks ys) :
    ∀ y ∈ ys, Readable y := by
  induction h with
  | nil => exact fun y hy => absurd hy List.not_mem_nil
  | cons hb _ ih => exact List.forall_mem_cons.mpr ⟨SharesOf.readable hb, ih⟩

/-- The first line of a share file. -/
theorem extract_start {z : ℤ} {zs : List ℤ} (h₀ : 0 ≤ z) (hz : z < PRIME) :
    extract ⟨lines (z :: zs), false⟩ val = (z, ⟨'\n' :: lines zs, false⟩) := by
  unfold PRIME at hz
  exact extract_lines [] (by simp) (by omega) (by omega)

/-- The next line. -/
theorem extract_next {z : ℤ} {zs : List ℤ} (h₀ : 0 ≤ z) (hz : z < PRIME) :
    extract ⟨'\n' :: lines (z :: zs), false⟩ val = (z, ⟨'\n' :: lines zs, false⟩) := by
  unfold PRIME at hz
  refine extract_lines ['\n'] (fun c hc => ?_) (by omega) (by omega)
  rw [List.mem_singleton.mp hc]
  decide

/-- Behind the last line the variable keeps its value. -/
theorem extract_end : extract ⟨['\n'], false⟩ val = (val, ⟨[], true⟩) := by
  refine extract_blank ['\n'] fun c hc => ?_
  rw [List.mem_singleton.mp hc]
  decide

theorem readValues_failed (blocks : ℕ) :
    (readValues blocks ⟨[], true⟩ val).1 = List.replicate blocks val := by
  induction blocks with
  | zero => rfl
  | succ blocks ih =>
    rw [readValues, List.replicate_succ, ← ih]
    rfl

/-- **The values of a share file**, and behind its end the last one over again. -/
theorem readValues_spec {zs : List ℤ} (hzs : ∀ z ∈ zs, 0 ≤ z ∧ z < PRIME) (hval : 0 ≤ val)
    {blocks : ℕ} (hblocks : zs.length ≤ blocks) :
    ∃ stale, (readValues blocks ⟨'\n' :: lines zs, false⟩ val).1 = zs ++ stale ∧
      stale.length = blocks - zs.length ∧ ∀ e ∈ stale, 0 ≤ e := by
  -- one number of the file at a time
  induction zs generalizing blocks val with
  | nil =>
    cases blocks with
    | zero => exact ⟨[], rfl, rfl, by simp⟩
    | succ blocks =>
      -- behind the end of the file the variable keeps its last value
      refine ⟨List.replicate (blocks + 1) val, ?_, List.length_replicate, fun e he => ?_⟩
      · have hend : extract ⟨'\n' :: lines [], false⟩ val = (val, ⟨[], true⟩) := extract_end
        rw [readValues, hend, List.nil_append, List.replicate_succ, ← readValues_failed blocks]
      · rw [(List.mem_replicate.mp he).2]
        exact hval
  | cons z zs ih =>
    obtain ⟨blocks, rfl⟩ : ∃ b, blocks = b + 1 := ⟨blocks - 1, by
      rw [List.length_cons] at hblocks
      omega⟩
    obtain ⟨hz₀, hz⟩ := hzs z List.mem_cons_self
    obtain ⟨stale, hread, hlen, hstale⟩ := ih (fun z hz => hzs z (List.mem_cons_of_mem _ hz)) hz₀
      (Nat.le_of_succ_le_succ hblocks)
    refine ⟨stale, ?_, ?_, hstale⟩
    · rw [readValues, extract_next hz₀ hz, List.cons_append, ← hread]
    · rw [hlen, List.length_cons, Nat.add_sub_add_right]

/-- The share files hold one line for the header and one for every block. -/
def Lines (present : Finset ℕ) (ys : List (ℕ → SecretPair)) (files : Files)
    (numbers : List ℕ) : Prop :=
  ∀ i ∈ numbers, files.shares i =
    if i ∈ present then some (lines (ys.map fun y => (y i).y)) else none

/-- **The shares of the header.** -/
theorem findHead_spec {y : ℕ → SecretPair} {ys : List (ℕ → SecretPair)} (hy : Readable y)
    (h : Lines present (y :: ys) files numbers) :
    (findHead files numbers val).1 = (numbers.filter (· ∈ present)).map y := by
  -- one file at a time; a missing one is skipped
  induction numbers generalizing val with
  | nil => rfl
  | cons i numbers ih =>
    have hrest : ∀ val, (findHead files numbers val).1 = (numbers.filter (· ∈ present)).map y :=
      fun val => ih fun j hj => h j (List.mem_cons_of_mem _ hj)
    have hi := h i List.mem_cons_self
    obtain ⟨hx, h₀, hlt⟩ := hy i
    by_cases hpresent : i ∈ present
    · rw [if_pos hpresent, List.map_cons] at hi
      rw [findHead, hi, List.filter_cons_of_pos (by simpa using hpresent), List.map_cons,
        ← hrest (y i).y]
      simp only [extract_start h₀ hlt]
      rw [← hx]
    · rw [if_neg hpresent] at hi
      rw [findHead, hi, List.filter_cons_of_neg (by simpa using hpresent)]
      exact hrest val

/-- The shares of the blocks from the share files with some numbers. Behind the blocks that
were stored come shares that mean nothing. -/
def Answers (ys : List (ℕ → SecretPair)) (blocks : ℕ) (numbers : List ℕ)
    (ans : List (List SecretPair)) : Prop :=
  ∃ stale, ans = (ys.map fun y => numbers.map y) ++ stale ∧
    stale.length = blocks - ys.length ∧
    ∀ pairs ∈ stale, pairs.map SecretPair.x = numbers.map (fun i : ℕ => (i : ℤ)) ∧
      ∀ p ∈ pairs, 0 ≤ p.y

/-- One more share file adds a share to every block. -/
theorem Answers.push {ys : List (ℕ → SecretPair)} {blocks i : ℕ} {done : List ℕ}
    {ans : List (List SecretPair)} (h : Answers ys blocks done ans) (hys : ∀ y ∈ ys, Readable y)
    {stale : List ℤ} (hlen : stale.length = blocks - ys.length) (hstale : ∀ e ∈ stale, 0 ≤ e) :
    Answers ys blocks (done ++ [i])
      (ans.zipWith (fun pairs val => pairs ++ [⟨i, val⟩])
        ((ys.map fun y => (y i).y) ++ stale)) := by
  -- the rows of the file first, those that were never stored behind them
  obtain ⟨rows, rfl, hrows, hproper⟩ := h
  refine ⟨rows.zipWith (fun pairs val => pairs ++ [⟨i, val⟩]) stale, ?_, ?_, fun pairs hp => ?_⟩
  · rw [List.zipWith_append (by rw [List.length_map, List.length_map]), List.zipWith_map,
      List.zipWith_self]
    congr 1
    refine List.map_congr_left fun y hy => ?_
    rw [List.map_append, List.map_singleton, ← ((hys y hy) i).1]
  · rw [List.length_zipWith, hrows, hlen, Nat.min_self]
  -- a stale row gets the same number as all the others, and some value
  · obtain ⟨j, hj, rfl⟩ := List.mem_iff_getElem.mp hp
    rw [List.length_zipWith] at hj
    rw [List.getElem_zipWith]
    obtain ⟨hx, hy⟩ := hproper _ (List.getElem_mem (lt_min_iff.mp hj).1)
    refine ⟨?_, fun p hp => ?_⟩
    · rw [List.map_append, List.map_append, hx]
      rfl
    · rcases List.mem_append.mp hp with hp | hp
      · exact hy p hp
      · rw [List.mem_singleton.mp hp]
        exact hstale _ (List.getElem_mem (lt_min_iff.mp hj).2)

/-- **The shares of the blocks.** -/
theorem readShares_spec {y : ℕ → SecretPair} {ys : List (ℕ → SecretPair)} (hy : Readable y)
    (hys : ∀ y ∈ ys, Readable y) (h : Lines present (y :: ys) files numbers) {blocks : ℕ}
    (hblocks : ys.length ≤ blocks) {done : List ℕ} {ans : List (List SecretPair)}
    (hans : Answers ys blocks done ans) :
    Answers ys blocks (done ++ numbers.filter (· ∈ present))
      (readShares files blocks numbers val ans) := by
  -- one key file at a time, with the shares of the files before
  induction numbers generalizing val done ans with
  | nil => rwa [List.filter_nil, List.append_nil]
  | cons i numbers ih =>
    have hrest : Lines present (y :: ys) files numbers := fun j hj =>
      h j (List.mem_cons_of_mem _ hj)
    have hi := h i List.mem_cons_self
    obtain ⟨-, h₀, hlt⟩ := hy i
    by_cases hpresent : i ∈ present
    · rw [if_pos hpresent, List.map_cons] at hi
      have hzs : ∀ z ∈ ys.map fun y => (y i).y, 0 ≤ z ∧ z < PRIME := fun z hz => by
        obtain ⟨y', hy', rfl⟩ := List.mem_map.mp hz
        exact (hys y' hy' i).2
      have hcount : (ys.map fun y => (y i).y).length ≤ blocks := by rwa [List.length_map]
      -- more rows are asked for than the file has
      obtain ⟨stale, hread, hlen, hstale⟩ := readValues_spec hzs h₀ hcount
      rw [List.length_map] at hlen
      rw [readShares, hi, List.filter_cons_of_pos (by simpa using hpresent)]
      simp only [extract_start h₀ hlt]
      rw [hread, List.append_cons]
      exact ih hrest (hans.push hys hlen hstale)
    · rw [if_neg hpresent] at hi
      rw [readShares, hi, List.filter_cons_of_neg (by simpa using hpresent)]
      exact ih hrest hans

end Reading

/-! ### The file is restored -/

section Restoring

variable {numbers : List ℕ}

/-- The shares behind the last block restore something, of which nothing is written. -/
theorem writeLoop_stale (hnodup : numbers.Nodup) (hbounds : ∀ i ∈ numbers, 1 ≤ i ∧ i ≤ 9)
    {stale : List (List SecretPair)}
    (h : ∀ pairs ∈ stale, pairs.map SecretPair.x = numbers.map (fun i : ℕ => (i : ℤ)) ∧
      ∀ p ∈ pairs, 0 ≤ p.y) :
    Returns (writeLoop k stale 0) (· = []) := by
  -- a row behind the file is reconstructed too, and not written
  induction stale with
  | nil => exact Returns.pure rfl
  | cons pairs stale ih =>
    obtain ⟨hx, hy⟩ := h pairs List.mem_cons_self
    rw [writeLoop]
    refine (reconstructSecret_spec (proper_of_numbers hnodup hbounds hx hy)).bind fun ret _ => ?_
    rw [if_pos (by decide), if_neg (by decide)]
    refine (ih fun p hp => h p (List.mem_cons_of_mem _ hp)).bind fun rest hrest => ?_
    subst hrest
    exact Returns.pure rfl

/-- **The bytes that are written** are the first `tot` bytes of the blocks. -/
theorem writeLoop_spec (hnodup : numbers.Nodup) (hbounds : ∀ i ∈ numbers, 1 ≤ i ∧ i ≤ 9)
    (hk : k ≤ numbers.length) {stale : List (List SecretPair)}
    (hstale : ∀ pairs ∈ stale, pairs.map SecretPair.x = numbers.map (fun i : ℕ => (i : ℤ)) ∧
      ∀ p ∈ pairs, 0 ≤ p.y)
    {blocks : List Bytes} {ys : List (ℕ → SecretPair)}
    (h : List.Forall₂ (fun b y => SharesOf k (LittleEndian.decode b) y) blocks ys)
    (hseven : ∀ b ∈ blocks, b.length = 7) {tot : ℕ} (htot : tot ≤ 7 * blocks.length) :
    Returns (writeLoop k ((ys.map fun y => numbers.map y) ++ stale) tot)
      (· = blocks.flatten.take tot) := by
  induction h generalizing tot with
  | nil =>
    have hzero : tot = 0 := by simpa using htot
    subst hzero
    exact writeLoop_stale hnodup hbounds hstale
  | @cons b y blocks ys hb _ ih =>
    have hlen : b.length = 7 := hseven b List.mem_cons_self
    have hrest : ∀ tot ≤ 7 * blocks.length,
        Returns (writeLoop k ((ys.map fun y => numbers.map y) ++ stale) tot)
          (· = blocks.flatten.take tot) :=
      fun tot => ih fun b hb => hseven b (List.mem_cons_of_mem _ hb)
    rw [List.length_cons] at htot
    rw [List.map_cons, List.cons_append, writeLoop, List.flatten_cons]
    refine Returns.bind ⟨_, hb.restore (Int.natCast_nonneg _) (decode_lt_PRIME hlen) hnodup
      hbounds hk, rfl⟩ fun ret hret => ?_
    subst hret
    have hbytes := take_bytesOf_decode hlen
    split
    next hlt =>
      -- The last bytes of the file are a part of this block.
      rw [if_neg (by omega)]
      refine (hrest 0 (Nat.zero_le _)).bind fun rest hrest => ?_
      subst hrest
      have hlow : (bytesOf (LittleEndian.decode b)).take tot = b.take tot := by
        conv_rhs => rw [← hbytes, List.take_take, Nat.min_eq_left (by omega)]
      refine Returns.pure ?_
      rw [Int.toNat_natCast, hlow, List.take_append_of_le_length (by omega), List.take_zero,
        List.append_nil]
    next hge =>
      have hsub : (tot : ℤ) - 7 = (tot - 7 : ℕ) := by omega
      rw [hsub]
      refine (hrest (tot - 7) (by omega)).bind fun rest hrest => ?_
      subst hrest
      refine Returns.pure ?_
      rw [hbytes, List.take_append, List.take_of_length_le (by omega : b.length ≤ tot), hlen]

/-- The numbers of the share files that are present. -/
theorem filter_range' {present : Finset ℕ} (hn : n ≤ 9) (hpresent : present ⊆ Finset.Icc 1 n) :
    ((List.range' 1 n).filter (· ∈ present)).Nodup ∧
      (∀ i ∈ (List.range' 1 n).filter (· ∈ present), 1 ≤ i ∧ i ≤ 9) ∧
      ((List.range' 1 n).filter (· ∈ present)).length = present.card := by
  have hnodup : ((List.range' 1 n).filter (· ∈ present)).Nodup :=
    (List.nodup_range').filter _
  refine ⟨hnodup, fun i hi => ?_, ?_⟩
  · have hmem := List.mem_range'_1.mp (List.mem_filter.mp hi).1
    omega
  -- the files that are present, as a set, are those that were kept
  · rw [← List.toFinset_card_of_nodup hnodup]
    congr 1
    ext i
    rw [List.mem_toFinset, List.mem_filter, List.mem_range'_1, decide_eq_true_iff]
    refine ⟨fun h => h.2, fun h => ⟨?_, h⟩⟩
    have hmem := Finset.mem_Icc.mp (hpresent h)
    omega

/-- **Restoring** from any `k` of the share files. -/
theorem handleText_spec (unassigned : Unassigned) {present : Finset ℕ} {header : Header}
    {blocks : List Bytes}
    {y : ℕ → SecretPair} {ys : List (ℕ → SecretPair)} (hn : n ≤ 9)
    (hpresent : present ⊆ Finset.Icc 1 n) (hcard : k ≤ present.card)
    (h : Stored n k header blocks y ys files) (hseven : ∀ b ∈ blocks, b.length = 7)
    (hsz : header.tot_sz.toNat < 2 ^ 31 - 7) (hbegin : header.tot_sz.toNat ≤ 7 * blocks.length)
    (hcount : 7 * blocks.length ≤ header.tot_sz.toNat + header.emptyct.toNat) :
    Returns (handleText unassigned n k (files.keep present)) fun files' =>
      files'.combined_shares = some (blocks.flatten.take header.tot_sz.toNat) := by
  obtain ⟨hnodup, hbounds, hlength⟩ := filter_range' hn hpresent
  rw [← hlength] at hcard
  have hlen : ys.length = blocks.length := h.blocks.length_eq.symm
  have hy : Readable y := SharesOf.readable h.header
  have hys : ∀ y ∈ ys, Readable y := readable_of_forall₂ h.blocks
  have hlines : Lines present (y :: ys) (files.keep present) (List.range' 1 n) := fun i hi => by
    have hmem := List.mem_range'_1.mp hi
    unfold Files.keep
    dsimp only
    rw [h.shares i hmem.1 (by omega)]
  have hle : ys.length ≤ (header.emptyct.toNat + header.tot_sz.toNat) / 7 := by
    rw [hlen, Nat.le_div_iff_mul_le (by decide), mul_comm, add_comm]
    exact hcount
  have hct := header.emptyct.toNat_lt
  have hblocks : (header.emptyct.toUInt32 + header.tot_sz).toNat / 7 =
      (header.emptyct.toNat + header.tot_sz.toNat) / 7 := by
    rw [UInt32.toNat_add, UInt8.toNat_toUInt32, Nat.mod_eq_of_lt (by omega)]
  have htot : Int.bmod header.tot_sz.toNat (2 ^ 32) = header.tot_sz.toNat :=
    Int.bmod_eq_of_le (by omega) (by omega)
  unfold handleText
  rw [← Prod.eta (findHead (files.keep present) (List.range' 1 n) unassigned.val)]
  dsimp only
  rw [findHead_spec hy hlines, List.length_map, if_neg (by omega)]
  refine Returns.bind ⟨_, SharesOf.restore h.header (Int.natCast_nonneg _)
    (decode_lt_PRIME header.length_bytes) hnodup hbounds hcard, rfl⟩ fun ret hret => ?_
  subst hret
  rw [header.ofBytes_bytesOf, hblocks, htot]
  -- The loop starts with an empty vector for every block.
  have hstart : Answers ys ((header.emptyct.toNat + header.tot_sz.toNat) / 7) []
      (List.replicate ((header.emptyct.toNat + header.tot_sz.toNat) / 7) []) := by
    refine ⟨List.replicate ((header.emptyct.toNat + header.tot_sz.toNat) / 7 - ys.length) [],
      ?_, List.length_replicate, fun pairs hp => ?_⟩
    · have hmap : (ys.map fun y => ([] : List ℕ).map y) = List.replicate ys.length [] := by
        simp
      rw [hmap, List.replicate_append_replicate, Nat.add_sub_cancel' hle]
    · rw [(List.mem_replicate.mp hp).2]
      exact ⟨rfl, by simp⟩
  obtain ⟨stale, hans, -, hstale⟩ := readShares_spec hy hys hlines hle hstart
  rw [List.nil_append] at hans hstale
  rw [hans]
  refine (writeLoop_spec hnodup hbounds hcard hstale h.blocks hseven hbegin).bind
    fun combined hcombined => ?_
  subst hcombined
  exact Returns.pure rfl

/-- **Storing and restoring.** From any `k` of the `n` share files the original bytes are restored,
whatever coefficients are drawn, exactly if the number of bytes that are appended fits the length
of the file. Where the length is a multiple of seven the source does not assign that number, and
what happens depends on what it was before. -/
theorem combined_shares_iff_aligned (hlen : file.length < 2 ^ 31 - 7) (hk : 1 ≤ k)
    (hkn : k ≤ n) (hn : n ≤ 9) {present : Finset ℕ} (hpresent : present ⊆ Finset.Icc 1 n)
    (hcard : k ≤ present.card) :
    (∃ stored restored, readFile unassigned file n k draws files = .ok stored ∧
      handleText unassigned n k (stored.keep present) = .ok restored ∧
      restored.combined_shares = some file) ↔
      Aligned file.length unassigned.ct_empty := by
  refine ⟨fun ⟨_, _, hread, _⟩ => aligned_of_readFile_ok hlen hread, fun haligned => ?_⟩
  obtain ⟨stored, hread, blocks, y, ys, hstored, hseven, hbegin, hcount⟩ :=
    readFile_spec draws files hk hkn hn hlen haligned
  have hbytes : blocks.flatten.length = 7 * blocks.length := by
    have h := Records.length_flatMap (f := id) hseven
    rw [List.flatMap_id, mul_comm] at h
    exact h
  -- the blocks are the file with some padding behind it
  have hfile : file.length ≤ 7 * blocks.length := hbytes ▸ hbegin.length_le
  have hsz : (UInt32.ofNat file.length).toNat = file.length := by
    rw [UInt32.toNat_ofNat']
    exact Nat.mod_eq_of_lt (by omega)
  obtain ⟨restored, hrestored, hcombined⟩ := handleText_spec unassigned hn
    hpresent hcard hstored hseven (by rw [hsz]; exact hlen) (by rw [hsz]; exact hfile)
    (by rw [hsz]; exact hcount)
  refine ⟨stored, restored, hread, hrestored, ?_⟩
  dsimp only at hcombined
  rw [hcombined, hsz, ← List.prefix_iff_eq_take.mp hbegin]

/-- A file that is stored with other draws and other values of the unassigned variables. -/
theorem combined_shares_three_bytes :
    ∃ stored restored,
      readFile ⟨200, fun _ => 1, 5⟩ [1, 2, 3] 3 2 (fun _ => ⟨4, by decide⟩) ⟨fun _ => none, none⟩ =
        .ok stored ∧
      handleText ⟨200, fun _ => 1, 5⟩ 3 2 (stored.keep {1, 3}) = .ok restored ∧
      restored.combined_shares = some [1, 2, 3] :=
  (combined_shares_iff_aligned (by decide) (by decide) (by decide) (by decide) (by decide)
    (by decide)).mpr (Or.inl (by decide))

/-- Seven bytes, when the unassigned variable holds one: the loop over the last part never
counts down to zero. -/
theorem seven_bytes_not_restored :
    ¬ ∀ (file : Bytes) (n k : ℕ) (unassigned : Unassigned) (draws : Draws) (files : Files)
        (present : Finset ℕ), file.length < 2 ^ 31 - 7 → 1 ≤ k → k ≤ n → n ≤ 9 →
        present ⊆ Finset.Icc 1 n → k ≤ present.card →
        ∃ stored restored, readFile unassigned file n k draws files = .ok stored ∧
          handleText unassigned n k (stored.keep present) = .ok restored ∧
          restored.combined_shares = some file := by
  intro h
  obtain ⟨stored, restored, hread, -⟩ := h [0, 0, 0, 0, 0, 0, 0] 1 1 ⟨1, fun _ => 0, 0⟩
    (fun _ => ⟨1, by decide⟩) ⟨fun _ => none, none⟩ {1} (by decide) le_rfl le_rfl (by decide)
    (by decide) (by decide)
  exact absurd (aligned_of_readFile_ok (by decide) hread) (by unfold Aligned CHUNK_SIZE; decide)

end Restoring

end Splitter
