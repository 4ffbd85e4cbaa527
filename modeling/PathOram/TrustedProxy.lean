import PathOram.Definitions
import PathOram.Lib.Chunks

/-!
# Encrypted files

`trusted_proxy_layer.cpp` encrypts a file chunk by chunk with the secret stream of the
crypto library and decrypts it again. The library is a `SecretStream`, a parameter;
`SecretStream.Lawful` is what its documentation says about the two directions.

The lambda `close_files_return` of `decryptSecretSharedData` returns from itself. The
function goes on with streams that are closed, which the language leaves undefined, and it
never asks whether the last chunk was the final one. `Authentic` says that no exit is
taken and that the final chunk is there; `authenticates_iff` shows that this is exactly when
`decryptSecretSharedData` does what it should.

* `decryptSecretSharedData_of_passes`, `decryptSecretSharedData_of_not_passes` — what the
  function computes.
* `authentic_createSecretSharedData` — what has been encrypted is authentic.
* `decryptSecretSharedData_createSecretSharedData` — and is decrypted to what it was.
-/

namespace TrustedProxyLayer

open PathORAM Chunks

/-- What the language leaves undefined: the use of a stream after `fclose`. -/
inductive Fault where
  | closed
  deriving DecidableEq, Repr

/-- What `pull` returns and what it assigns. -/
structure Pulled (State : Type) where
  ret : ℤ
  st : State
  buf_out : Bytes
  tag : UInt8

/-- The functions of the crypto library. The random bytes of a header are an argument. -/
structure SecretStream (Key State : Type) where
  HEADERBYTES : ℕ
  ABYTES : ℕ
  TAG_FINAL : UInt8
  init_push : Bytes → Key → State × Bytes
  push : State → Bytes → UInt8 → State × Bytes
  init_pull : Bytes → Key → ℤ × State
  pull : State → Bytes → Pulled State

def CHUNK_SIZE : ℕ := 4096

theorem CHUNK_SIZE_pos : 0 < CHUNK_SIZE := Nat.succ_pos 4095

variable {Key State : Type}

/-- The size of `buf_in` in `decryptSecretSharedData`. -/
def SecretStream.bufferSize (S : SecretStream Key State) : ℕ := CHUNK_SIZE + S.ABYTES

theorem SecretStream.bufferSize_pos (S : SecretStream Key State) : 0 < S.bufferSize :=
  Nat.add_pos_left CHUNK_SIZE_pos S.ABYTES

/-- The documented behaviour: both directions go through the same states, and a chunk that
was pushed is pulled with its tag. -/
structure SecretStream.Lawful (S : SecretStream Key State) : Prop where
  length_header : ∀ random key, (S.init_push random key).2.length = S.HEADERBYTES
  init_pull : ∀ random key,
    S.init_pull (S.init_push random key).2 key = (0, (S.init_push random key).1)
  length_push : ∀ st message tag, (S.push st message tag).2.length = message.length + S.ABYTES
  pull_push : ∀ st message tag,
    S.pull st (S.push st message tag).2 = ⟨0, (S.push st message tag).1, message, tag⟩
  final_ne_zero : S.TAG_FINAL ≠ 0

/-! ### `createSecretSharedData` -/

/-- `do { … } while (! eof)`: the encrypted chunks. -/
def pushLoop (S : SecretStream Key State) (st : State) (fp_s : Bytes) : List Bytes :=
  let buf_in := fp_s.take CHUNK_SIZE
  let tag := if fp_s.length < CHUNK_SIZE then S.TAG_FINAL else 0
  let (st', buf_out) := S.push st buf_in tag
  if fp_s.length < CHUNK_SIZE then [buf_out]
  else buf_out :: pushLoop S st' (fp_s.drop CHUNK_SIZE)
termination_by fp_s.length
decreasing_by
  rw [List.length_drop]
  exact Nat.sub_lt (CHUNK_SIZE_pos.trans_le (Nat.le_of_not_lt ‹_›)) CHUNK_SIZE_pos

def createSecretSharedData (S : SecretStream Key State) (random : Bytes) (key : Key)
    (sourceFile : Bytes) : Bytes :=
  let (st, header) := S.init_push random key
  header ++ (pushLoop S st sourceFile).flatten

/-! ### `decryptSecretSharedData` -/

/-- The bytes that `fread` returns. They are fewer than `size` at the end of the file. -/
def fread (opened : Bool) (size : ℕ) (fp : Bytes) : Except Fault Bytes :=
  if opened then .ok (fp.take size) else .error .closed

def fwrite (opened : Bool) (bytes fp : Bytes) : Except Fault Bytes :=
  if opened then .ok (fp ++ bytes) else .error .closed

/-- The lambda `close_files_return`. Its result is dropped by the callers. -/
def closeFilesReturn (opened : Bool) : Except Fault Bool :=
  if opened then .ok false else .error .closed

/-- `if (failed) { close_files_return(); }`. -/
def exitIf (failed : Prop) [Decidable failed] (opened : Bool) : Except Fault Bool :=
  if failed then closeFilesReturn opened else .ok opened

/-- What the loop does with a chunk after `pull`. -/
def writeChunk (S : SecretStream Key State) (opened : Bool) (pulled : Pulled State) (eof : Bool)
    (fp_t : Bytes) : Except Fault (Bool × Bytes) := do
  let opened ← exitIf (pulled.ret ≠ 0) opened
  let opened ← exitIf (pulled.tag = S.TAG_FINAL ∧ ¬ eof) opened
  let fp_t ← fwrite opened pulled.buf_out fp_t
  pure (opened, fp_t)

/-- `do { … } while (! eof)`: what is written to the target file. -/
def pullLoop (S : SecretStream Key State) (st : State) (opened : Bool) (fp_s fp_t : Bytes) :
    Except Fault Bytes := do
  let buf_in ← fread opened S.bufferSize fp_s
  let pulled := S.pull st buf_in
  let (opened, fp_t) ← writeChunk S opened pulled (fp_s.length < S.bufferSize) fp_t
  if fp_s.length < S.bufferSize then pure fp_t
  else pullLoop S pulled.st opened (fp_s.drop S.bufferSize) fp_t
termination_by fp_s.length
decreasing_by
  rw [List.length_drop]
  exact Nat.sub_lt (S.bufferSize_pos.trans_le (Nat.le_of_not_lt ‹_›)) S.bufferSize_pos

/-- The array `header`: what the file has too little of stays unassigned. -/
def headerOf (S : SecretStream Key State) (unassigned sourceFile : Bytes) : Bytes :=
  let read := sourceFile.take S.HEADERBYTES
  read ++ (unassigned.drop read.length).take (S.HEADERBYTES - read.length)

/-- The returned value and the target file. -/
def decryptSecretSharedData (S : SecretStream Key State) (unassigned : Bytes) (key : Key)
    (sourceFile : Bytes) : Except Fault (ℤ × Bytes) := do
  let (ret, st) := S.init_pull (headerOf S unassigned sourceFile) key
  let opened ← exitIf (ret ≠ 0) true
  let fp_t ← pullLoop S st opened (sourceFile.drop S.HEADERBYTES) []
  pure (0, fp_t)

/-! ### What decryption should do -/

/-- The plaintexts and the tags of the chunks in front of the first rejected one. -/
def pulls (S : SecretStream Key State) : State → List Bytes → List (Bytes × UInt8)
  | _, [] => []
  | st, chunk :: rest =>
    let pulled := S.pull st chunk
    if pulled.ret = 0 then (pulled.buf_out, pulled.tag) :: pulls S pulled.st rest else []

def plaintext (pulled : List (Bytes × UInt8)) : Bytes := (pulled.map Prod.fst).flatten

section Files

variable (S : SecretStream Key State) (unassigned : Bytes) (key : Key) (sourceFile : Bytes)

/-- The chunks behind the header. -/
def sourceChunks : List Bytes := chunks S.bufferSize (sourceFile.drop S.HEADERBYTES)

def sourcePulls : List (Bytes × UInt8) :=
  pulls S (S.init_pull (headerOf S unassigned sourceFile) key).2 (sourceChunks S sourceFile)

/-- The header and every chunk are accepted, and the final chunk is the last one. -/
structure Authentic : Prop where
  header : (S.init_pull (headerOf S unassigned sourceFile) key).1 = 0
  accepted : (sourcePulls S unassigned key sourceFile).length = (sourceChunks S sourceFile).length
  final : ∀ i : ℕ, ((sourcePulls S unassigned key sourceFile)[i]?).map Prod.snd =
    some S.TAG_FINAL ↔ i + 1 = (sourceChunks S sourceFile).length

/-- Decryption returns 0 for an authentic file only, of which it writes the plaintext. It
returns another value for every other file, of which it writes nothing behind the first
rejected chunk. -/
structure Authenticates : Prop where
  zero : ∀ targetFile, decryptSecretSharedData S unassigned key sourceFile =
    .ok (0, targetFile) → Authentic S unassigned key sourceFile
  target : Authentic S unassigned key sourceFile →
    decryptSecretSharedData S unassigned key sourceFile =
      .ok (0, plaintext (sourcePulls S unassigned key sourceFile))
  nonzero : ¬ Authentic S unassigned key sourceFile → ∃ ret targetFile,
    decryptSecretSharedData S unassigned key sourceFile = .ok (ret, targetFile) ∧ ret ≠ 0 ∧
      targetFile <+: plaintext (sourcePulls S unassigned key sourceFile)

end Files

/-! ### What decryption does -/

/-- No exit is taken: every chunk is accepted, and none in front of the last is final. -/
def Passes (S : SecretStream Key State) : State → List Bytes → Prop
  | _, [] => True
  | st, chunk :: rest =>
    (S.pull st chunk).ret = 0 ∧ ((S.pull st chunk).tag = S.TAG_FINAL → rest = []) ∧
      Passes S (S.pull st chunk).st rest

section Loop

variable {S : SecretStream Key State} {st : State} {pulled : Pulled State} {eof : Bool}
  {fp_s fp_t : Bytes}

theorem exitIf_of_not {failed : Prop} [Decidable failed] (h : ¬ failed) {opened : Bool} :
    exitIf failed opened = .ok opened := if_neg h

theorem exitIf_of {failed : Prop} [Decidable failed] (h : failed) :
    exitIf failed true = .ok false := if_pos h

/-- After `close_files_return` the next use of a stream is undefined. -/
theorem exitIf_closed {α : Type} {failed : Prop} [Decidable failed] {f : Bool → Except Fault α}
    (hf : f false = .error .closed) : (exitIf failed false >>= f) = .error .closed := by
  by_cases h : failed
  · have hexit : exitIf failed false = .error .closed := if_pos h
    rw [hexit]
    rfl
  · rw [exitIf_of_not h]
    exact hf

theorem writeChunk_accepted (hret : pulled.ret = 0) (hfinal : pulled.tag = S.TAG_FINAL → eof) :
    writeChunk S true pulled eof fp_t = .ok (true, fp_t ++ pulled.buf_out) := by
  have hearly : ¬ (pulled.tag = S.TAG_FINAL ∧ ¬ eof) := fun h => h.2 (hfinal h.1)
  unfold writeChunk
  rw [exitIf_of_not (not_not_intro hret)]
  show (exitIf (pulled.tag = S.TAG_FINAL ∧ ¬ eof) true >>= _) = _
  rw [exitIf_of_not hearly]
  rfl

theorem writeChunk_refused (h : ¬ (pulled.ret = 0 ∧ (pulled.tag = S.TAG_FINAL → eof))) :
    writeChunk S true pulled eof fp_t = .error .closed := by
  unfold writeChunk
  by_cases hret : pulled.ret = 0
  -- the final tag in front of the end of the file
  · have hearly : pulled.tag = S.TAG_FINAL ∧ ¬ eof := by
      rw [← Classical.not_imp]
      exact fun hfinal => h ⟨hret, hfinal⟩
    rw [exitIf_of_not (not_not_intro hret)]
    show (exitIf (pulled.tag = S.TAG_FINAL ∧ ¬ eof) true >>= _) = _
    rw [exitIf_of hearly]
    rfl
  · rw [exitIf_of hret]
    exact exitIf_closed rfl

theorem pullLoop_closed : pullLoop S st false fp_s fp_t = .error .closed := by
  rw [pullLoop]
  rfl

theorem pullLoop_last (hlt : fp_s.length < S.bufferSize) (hret : (S.pull st fp_s).ret = 0) :
    pullLoop S st true fp_s fp_t = .ok (fp_t ++ (S.pull st fp_s).buf_out) := by
  have hread : fread true S.bufferSize fp_s = .ok fp_s :=
    congrArg Except.ok (List.take_of_length_le hlt.le)
  rw [pullLoop, hread]
  show (writeChunk S true (S.pull st fp_s) (fp_s.length < S.bufferSize) fp_t >>= _) = _
  rw [writeChunk_accepted hret fun _ => decide_eq_true hlt]
  exact if_pos hlt

theorem pullLoop_step (hle : S.bufferSize ≤ fp_s.length)
    (hret : (S.pull st (fp_s.take S.bufferSize)).ret = 0)
    (htag : (S.pull st (fp_s.take S.bufferSize)).tag ≠ S.TAG_FINAL) :
    pullLoop S st true fp_s fp_t =
      pullLoop S (S.pull st (fp_s.take S.bufferSize)).st true (fp_s.drop S.bufferSize)
        (fp_t ++ (S.pull st (fp_s.take S.bufferSize)).buf_out) := by
  rw [pullLoop]
  show (writeChunk S true (S.pull st (fp_s.take S.bufferSize)) (fp_s.length < S.bufferSize) fp_t
    >>= _) = _
  rw [writeChunk_accepted hret fun h => absurd h htag]
  exact if_neg (Nat.not_lt.mpr hle)

theorem pullLoop_refused (h : ¬ ((S.pull st (fp_s.take S.bufferSize)).ret = 0 ∧
    ((S.pull st (fp_s.take S.bufferSize)).tag = S.TAG_FINAL → fp_s.length < S.bufferSize))) :
    pullLoop S st true fp_s fp_t = .error .closed := by
  rw [pullLoop]
  show (writeChunk S true (S.pull st (fp_s.take S.bufferSize)) (fp_s.length < S.bufferSize) fp_t
    >>= _) = _
  rw [writeChunk_refused fun hok => h ⟨hok.1, fun htag => of_decide_eq_true (hok.2 htag)⟩]
  rfl

theorem plaintext_cons (chunk : Bytes × UInt8) (rest : List (Bytes × UInt8)) :
    plaintext (chunk :: rest) = chunk.1 ++ plaintext rest := rfl

theorem pulls_cons {chunk : Bytes} (hret : (S.pull st chunk).ret = 0) (rest : List Bytes) :
    pulls S st (chunk :: rest) = ((S.pull st chunk).buf_out, (S.pull st chunk).tag) ::
      pulls S (S.pull st chunk).st rest := if_pos hret

/-- **The loop writes the plaintexts** when no exit is taken. -/
theorem pullLoop_of_passes (h : Passes S st (chunks S.bufferSize fp_s)) :
    pullLoop S st true fp_s fp_t =
      .ok (fp_t ++ plaintext (pulls S st (chunks S.bufferSize fp_s))) := by
  -- chunk by chunk of the source file
  induction fp_s using chunks_induction S.bufferSize_pos generalizing st fp_t with
  | last fp_s hlt =>
    rw [chunks_of_lt hlt] at h ⊢
    rw [pullLoop_last hlt h.1, pulls_cons h.1, plaintext_cons]
    exact congrArg (fun bytes => Except.ok (fp_t ++ bytes)) (List.append_nil _).symm
  -- a full chunk, which is not final, and the loop goes on
  | step fp_s hle ih =>
    rw [chunks_of_le S.bufferSize_pos hle] at h ⊢
    obtain ⟨hret, hfinal, hrest⟩ := h
    have htag : (S.pull st (fp_s.take S.bufferSize)).tag ≠ S.TAG_FINAL :=
      fun htag => chunks_ne_nil _ (hfinal htag)
    rw [pullLoop_step hle hret htag, ih hrest, pulls_cons hret, plaintext_cons, List.append_assoc]

/-- **A taken exit ends in an undefined step.** -/
theorem pullLoop_of_not_passes (h : ¬ Passes S st (chunks S.bufferSize fp_s)) :
    pullLoop S st true fp_s fp_t = .error .closed := by
  induction fp_s using chunks_induction S.bufferSize_pos generalizing st fp_t with
  | last fp_s hlt =>
    rw [chunks_of_lt hlt] at h
    refine pullLoop_refused fun hok => h ⟨?_, fun _ => rfl, trivial⟩
    rw [List.take_of_length_le hlt.le] at hok
    exact hok.1
  | step fp_s hle ih =>
    rw [chunks_of_le S.bufferSize_pos hle] at h
    -- either this chunk is refused, or it passes and a later one is refused
    by_cases hok : (S.pull st (fp_s.take S.bufferSize)).ret = 0 ∧
        ((S.pull st (fp_s.take S.bufferSize)).tag = S.TAG_FINAL → fp_s.length < S.bufferSize)
    · have htag : (S.pull st (fp_s.take S.bufferSize)).tag ≠ S.TAG_FINAL :=
        fun htag => absurd (hok.2 htag) (Nat.not_lt.mpr hle)
      rw [pullLoop_step hle hok.1 htag]
      exact ih fun hrest => h ⟨hok.1, fun h' => absurd h' htag, hrest⟩
    · exact pullLoop_refused hok

end Loop

section Decryption

variable {S : SecretStream Key State} {unassigned : Bytes} {key : Key} {sourceFile : Bytes}

/-- What `decryptSecretSharedData` computes for a file without a reason to exit. -/
theorem decryptSecretSharedData_of_passes
    (hheader : (S.init_pull (headerOf S unassigned sourceFile) key).1 = 0)
    (h : Passes S (S.init_pull (headerOf S unassigned sourceFile) key).2
      (sourceChunks S sourceFile)) :
    decryptSecretSharedData S unassigned key sourceFile =
      .ok (0, plaintext (sourcePulls S unassigned key sourceFile)) := by
  unfold decryptSecretSharedData
  show (exitIf ((S.init_pull (headerOf S unassigned sourceFile) key).1 ≠ 0) true >>= _) = _
  rw [exitIf_of_not (not_not_intro hheader)]
  show (pullLoop S _ true _ [] >>= _) = _
  rw [pullLoop_of_passes h]
  rfl

theorem decryptSecretSharedData_of_not_passes
    (h : ¬ ((S.init_pull (headerOf S unassigned sourceFile) key).1 = 0 ∧
      Passes S (S.init_pull (headerOf S unassigned sourceFile) key).2
        (sourceChunks S sourceFile))) :
    decryptSecretSharedData S unassigned key sourceFile = .error .closed := by
  unfold decryptSecretSharedData
  show (exitIf ((S.init_pull (headerOf S unassigned sourceFile) key).1 ≠ 0) true >>= _) = _
  by_cases hheader : (S.init_pull (headerOf S unassigned sourceFile) key).1 = 0
  · rw [exitIf_of_not (not_not_intro hheader)]
    show (pullLoop S _ true _ [] >>= _) = _
    rw [pullLoop_of_not_passes fun hpasses => h ⟨hheader, hpasses⟩]
    rfl
  -- the header is refused, and the loop reads from a closed stream
  · rw [exitIf_of hheader]
    show (pullLoop S _ false _ [] >>= _) = _
    rw [pullLoop_closed]
    rfl

/-- Chunks that are all accepted, with a final one at the end only, pass. -/
theorem passes_of_final {st : State} {cs : List Bytes}
    (haccepted : (pulls S st cs).length = cs.length)
    (hfinal : ∀ i : ℕ, ((pulls S st cs)[i]?).map Prod.snd = some S.TAG_FINAL → i + 1 = cs.length) :
    Passes S st cs := by
  induction cs generalizing st with
  | nil => trivial
  | cons chunk rest ih =>
    -- a chunk that is refused ends the list of what was pulled
    have hret : (S.pull st chunk).ret = 0 := by
      by_contra hret
      have hnone : pulls S st (chunk :: rest) = [] := if_neg hret
      rw [hnone] at haccepted
      exact absurd haccepted (Nat.succ_ne_zero rest.length).symm
    rw [pulls_cons hret] at haccepted hfinal
    refine ⟨hret, fun htag => ?_, ih (Nat.succ.inj haccepted) fun i hi => ?_⟩
    -- a final tag is the last one, so nothing follows
    · have hlast : 0 + 1 = rest.length + 1 := hfinal 0 (congrArg some htag)
      exact List.eq_nil_of_length_eq_zero (Nat.succ.inj hlast).symm
    · exact Nat.succ.inj (hfinal (i + 1) hi)

theorem Authentic.passes (h : Authentic S unassigned key sourceFile) :
    Passes S (S.init_pull (headerOf S unassigned sourceFile) key).2 (sourceChunks S sourceFile) :=
  passes_of_final h.accepted fun i => (h.final i).mp

end Decryption

/-! ### What has been encrypted -/

section Encryption

variable {S : SecretStream Key State} {st : State}

theorem pushLoop_of_lt {content : Bytes} (h : content.length < CHUNK_SIZE) :
    pushLoop S st content = [(S.push st content S.TAG_FINAL).2] := by
  rw [pushLoop, List.take_of_length_le h.le, if_pos h]
  exact if_pos h

theorem pushLoop_of_le {content : Bytes} (h : CHUNK_SIZE ≤ content.length) :
    pushLoop S st content = (S.push st (content.take CHUNK_SIZE) 0).2 ::
      pushLoop S (S.push st (content.take CHUNK_SIZE) 0).1 (content.drop CHUNK_SIZE) := by
  rw [pushLoop, if_neg (Nat.not_lt.mpr h)]
  exact if_neg (Nat.not_lt.mpr h)

theorem cut_pushLoop (hS : S.Lawful) (st : State) (content : Bytes) :
    Cut S.bufferSize (pushLoop S st content) := by
  induction content using chunks_induction CHUNK_SIZE_pos generalizing st with
  | last content h =>
    rw [pushLoop_of_lt h]
    refine .last ?_
    rw [hS.length_push]
    exact Nat.add_lt_add_right h S.ABYTES
  -- a full chunk of the content gives a full chunk of the file
  | step content h ih =>
    rw [pushLoop_of_le h]
    refine .cons ?_ (ih _)
    rw [hS.length_push, List.length_take_of_le h]
    rfl

theorem pulls_push (hS : S.Lawful) (message : Bytes) (tag : UInt8) (rest : List Bytes) :
    pulls S st ((S.push st message tag).2 :: rest) =
      (message, tag) :: pulls S (S.push st message tag).1 rest := by
  have hpull := hS.pull_push st message tag
  rw [pulls_cons (by rw [hpull]), hpull]

/-- Each plaintext comes back, and the last chunk alone is final. -/
theorem pulls_pushLoop (hS : S.Lawful) (st : State) (content : Bytes) :
    (pulls S st (pushLoop S st content)).length = (pushLoop S st content).length ∧
    (∀ i : ℕ, ((pulls S st (pushLoop S st content))[i]?).map Prod.snd = some S.TAG_FINAL ↔
      i + 1 = (pushLoop S st content).length) ∧
    plaintext (pulls S st (pushLoop S st content)) = content := by
  induction content using chunks_induction CHUNK_SIZE_pos generalizing st with
  -- the last chunk carries the final tag
  | last content h =>
    rw [pushLoop_of_lt h, pulls_push hS]
    refine ⟨rfl, fun i => ?_, List.append_nil content⟩
    cases i with
    | zero => exact ⟨fun _ => rfl, fun _ => rfl⟩
    | succ i =>
      constructor
      · intro htag
        cases htag
      · intro hlast
        exact absurd (Nat.succ.inj hlast) (Nat.succ_ne_zero i)
  | step content h ih =>
    obtain ⟨hlength, hfinal, hplain⟩ := ih (S.push st (content.take CHUNK_SIZE) 0).1
    rw [pushLoop_of_le h, pulls_push hS]
    refine ⟨congrArg Nat.succ hlength, fun i => ?_, ?_⟩
    -- a full chunk carries the tag 0
    · cases i with
      | zero =>
        have hne := (cut_pushLoop hS (S.push st (content.take CHUNK_SIZE) 0).1
          (content.drop CHUNK_SIZE)).ne_nil
        constructor
        · intro htag
          exact absurd (Option.some.inj htag).symm hS.final_ne_zero
        · intro hlast
          exact absurd (List.eq_nil_of_length_eq_zero (Nat.succ.inj hlast).symm) hne
      | succ i => exact (hfinal i).trans Nat.succ_inj.symm
    · rw [plaintext_cons, hplain, List.take_append_drop]

/-- A file that is long enough fills the header. -/
theorem headerOf_append (unassigned : Bytes) {header : Bytes}
    (h : header.length = S.HEADERBYTES) (body : Bytes) :
    headerOf S unassigned (header ++ body) = header := by
  unfold headerOf
  rw [List.take_left' h]
  show header ++ (unassigned.drop header.length).take (S.HEADERBYTES - header.length) = header
  rw [h, Nat.sub_self, List.take_zero, List.append_nil]

/-- The chunks of a file that was put together from a header and chunks. -/
theorem sourceChunks_append {header : Bytes} (h : header.length = S.HEADERBYTES)
    {cs : List Bytes} (hcs : Cut S.bufferSize cs) :
    sourceChunks S (header ++ cs.flatten) = cs := by
  unfold sourceChunks
  rw [List.drop_left' h, chunks_flatten S.bufferSize_pos hcs]

/-- **What has been encrypted is authentic**, and its plaintext is the content. -/
theorem authentic_createSecretSharedData (hS : S.Lawful) (unassigned random : Bytes)
    (key : Key) (content : Bytes) :
    Authentic S unassigned key (createSecretSharedData S random key content) ∧
      plaintext (sourcePulls S unassigned key (createSecretSharedData S random key content)) =
        content := by
  have hlength := hS.length_header random key
  have hinit := hS.init_pull random key
  have hfile : createSecretSharedData S random key content = (S.init_push random key).2 ++
      (pushLoop S (S.init_push random key).1 content).flatten := rfl
  -- behind the header the file is cut where it was put together
  have hchunks := sourceChunks_append hlength (cut_pushLoop hS (S.init_push random key).1 content)
  have hheader := headerOf_append unassigned hlength
    (pushLoop S (S.init_push random key).1 content).flatten
  -- the header gives the reader the state that the writer started with
  have hpulls : sourcePulls S unassigned key (createSecretSharedData S random key content) =
      pulls S (S.init_push random key).1 (pushLoop S (S.init_push random key).1 content) := by
    unfold sourcePulls
    rw [hfile, hchunks, hheader, hinit]
  obtain ⟨haccepted, hfinal, hplain⟩ := pulls_pushLoop hS (S.init_push random key).1 content
  refine ⟨⟨?_, ?_, ?_⟩, hpulls ▸ hplain⟩
  · rw [hfile, hheader, hinit]
  · rw [hpulls, hfile, hchunks]
    exact haccepted
  · intro i
    rw [hpulls, hfile, hchunks]
    exact hfinal i

end Encryption

/-! ### What is pushed -/

section Pushed

variable {S : SecretStream Key State}

/-- The chunks of a file and their tags, in the order in which they are pushed. -/
def pushed (S : SecretStream Key State) (fp_s : Bytes) : List (Bytes × UInt8) :=
  (chunks CHUNK_SIZE fp_s).map (fun buf_in =>
    (buf_in, if buf_in.length < CHUNK_SIZE then S.TAG_FINAL else 0))

/-- Push the chunks one after the other. -/
def pushAll (S : SecretStream Key State) : State → List (Bytes × UInt8) → List Bytes
  | _, [] => []
  | st, chunk :: rest =>
    (S.push st chunk.1 chunk.2).2 :: pushAll S (S.push st chunk.1 chunk.2).1 rest

theorem pushLoop_eq_pushAll (st : State) (fp_s : Bytes) :
    pushLoop S st fp_s = pushAll S st (pushed S fp_s) := by
  induction fp_s using chunks_induction CHUNK_SIZE_pos generalizing st with
  | last fp_s h =>
    rw [pushLoop_of_lt h, pushed, chunks_of_lt h, List.map_singleton, if_pos h]
    rfl
  | step fp_s h ih =>
    -- a chunk of full size is not the last one
    have hfull : ¬(fp_s.take CHUNK_SIZE).length < CHUNK_SIZE := by
      rw [List.length_take_of_le h]
      exact Nat.lt_irrefl _
    rw [pushLoop_of_le h, ih, pushed, pushed, chunks_of_le CHUNK_SIZE_pos h, List.map_cons,
      if_neg hfull]
    rfl

/-- What was pushed is pulled in the same order. -/
theorem pulls_pushAll (hS : S.Lawful) (st : State) (messages : List (Bytes × UInt8)) :
    pulls S st (pushAll S st messages) = messages := by
  induction messages generalizing st with
  | nil => rfl
  | cons chunk rest ih => rw [pushAll, pulls_push hS, ih]

theorem length_pushAll (st : State) (messages : List (Bytes × UInt8)) :
    (pushAll S st messages).length = messages.length := by
  induction messages generalizing st with
  | nil => rfl
  | cons chunk rest ih => exact congrArg Nat.succ (ih _)

/-- **Decryption inverts encryption.** The content comes back, no exit is taken on the way, and
the final tag is that of the last pushed chunk alone. -/
theorem decryptSecretSharedData_createSecretSharedData (hS : S.Lawful)
    (random unassigned : Bytes) (key : Key) (content : Bytes) :
    decryptSecretSharedData S unassigned key (createSecretSharedData S random key content) =
      .ok (0, content) ∧
    ((S.init_pull (headerOf S unassigned (createSecretSharedData S random key content)) key).1 = 0 ∧
      Passes S
        (S.init_pull (headerOf S unassigned (createSecretSharedData S random key content)) key).2
        (sourceChunks S (createSecretSharedData S random key content))) ∧
    pushLoop S (S.init_push random key).1 content =
      pushAll S (S.init_push random key).1 (pushed S content) ∧
    ∀ i : ℕ, ((pushed S content)[i]?).map Prod.snd = some S.TAG_FINAL ↔
      i + 1 = (pushed S content).length := by
  obtain ⟨hauthentic, hplain⟩ :=
    authentic_createSecretSharedData hS unassigned random key content
  have hpushed := pushLoop_eq_pushAll (S := S) (S.init_push random key).1 content
  refine ⟨?_, ⟨hauthentic.header, hauthentic.passes⟩, hpushed, fun i => ?_⟩
  · rw [decryptSecretSharedData_of_passes hauthentic.header hauthentic.passes, hplain]
  · have hfinal := (pulls_pushLoop hS (S.init_push random key).1 content).2.1 i
    rwa [hpushed, pulls_pushAll hS, length_pushAll] at hfinal

end Pushed

section Rejection

variable {S : SecretStream Key State} {unassigned : Bytes} {key : Key} {sourceFile : Bytes}

/-- **Decryption rejects what it cannot authenticate** exactly when there is nothing to reject.
Where an exit is taken, the function goes on with streams that are closed; and a file that ends
before its final chunk takes no exit, and is accepted. -/
theorem authenticates_iff : Authenticates S unassigned key sourceFile ↔
    Authentic S unassigned key sourceFile := by
  constructor
  · intro h
    by_contra hnot
    obtain ⟨ret, targetFile, hrun, hret, -⟩ := h.nonzero hnot
    by_cases hpasses : (S.init_pull (headerOf S unassigned sourceFile) key).1 = 0 ∧
        Passes S (S.init_pull (headerOf S unassigned sourceFile) key).2
          (sourceChunks S sourceFile)
    -- Without a final chunk at the end 0 is returned.
    · rw [decryptSecretSharedData_of_passes hpasses.1 hpasses.2] at hrun
      exact hret (congrArg Prod.fst (Except.ok.inj hrun)).symm
    -- After an exit was taken nothing is returned at all.
    · rw [decryptSecretSharedData_of_not_passes hpasses] at hrun
      cases hrun
  · intro h
    exact ⟨fun _ _ => h, fun _ => decryptSecretSharedData_of_passes h.header h.passes,
      fun hnot => absurd h hnot⟩

end Rejection

/-! ### A stream without secrecy -/

/-- A chunk is its tag, the message and sixteen zero bytes. -/
def plain : SecretStream Unit Unit where
  HEADERBYTES := 24
  ABYTES := 17
  TAG_FINAL := 3
  init_push _ _ := ((), List.replicate 24 0)
  push _ message tag := ((), tag :: (message ++ List.replicate 16 0))
  init_pull header _ := (if header = List.replicate 24 0 then 0 else -1, ())
  pull _ chunk :=
    if 17 ≤ chunk.length ∧ chunk.drop (chunk.length - 16) = List.replicate 16 0 then
      ⟨0, (), chunk.tail.take (chunk.length - 17), chunk.headD 0⟩
    else ⟨-1, (), [], 255⟩

theorem lawful_plain : plain.Lawful where
  length_header _ _ := rfl
  init_pull _ _ := rfl
  length_push _ message tag := by
    show (tag :: (message ++ List.replicate 16 0)).length = message.length + 17
    rw [List.length_cons, List.length_append, List.length_replicate]
  pull_push _ message tag := by
    have hlength : (message ++ List.replicate 16 (0 : UInt8)).length = message.length + 16 := by
      rw [List.length_append, List.length_replicate]
    show (if 17 ≤ (message ++ List.replicate 16 (0 : UInt8)).length + 1 ∧
        (tag :: (message ++ List.replicate 16 0)).drop
          ((message ++ List.replicate 16 (0 : UInt8)).length + 1 - 16) = List.replicate 16 0 then
        (⟨0, (), (message ++ List.replicate 16 (0 : UInt8)).take
          ((message ++ List.replicate 16 (0 : UInt8)).length + 1 - 17), tag⟩ : Pulled Unit)
      else ⟨-1, (), [], 255⟩) = ⟨0, (), message, tag⟩
    have hdrop : (tag :: (message ++ List.replicate 16 (0 : UInt8))).drop
        (message.length + 16 + 1 - 16) = List.replicate 16 0 := by
      rw [Nat.add_right_comm, Nat.add_sub_cancel, List.drop_succ_cons, List.drop_left]
    have hsub : message.length + 16 + 1 - 17 = message.length := by omega
    rw [hlength, if_pos ⟨Nat.le_add_left 17 _, hdrop⟩, hsub, List.take_left]
  final_ne_zero := by decide

/-- A file of exactly one full chunk, behind which an empty one is pushed. -/
theorem decryptSecretSharedData_fullChunk :
    decryptSecretSharedData plain [] () (createSecretSharedData plain [] ()
      (List.replicate 4096 7)) = .ok (0, List.replicate 4096 7) ∧
    ((pushed plain (List.replicate 4096 7))[1]?).map Prod.snd = some 3 := by
  have hchunks : pushed plain (List.replicate 4096 7) = [(List.replicate 4096 7, 0), ([], 3)] := by
    have hlength : CHUNK_SIZE = (List.replicate 4096 (7 : UInt8)).length :=
      List.length_replicate.symm
    rw [pushed, chunks_of_le CHUNK_SIZE_pos hlength.le, List.take_of_length_le hlength.ge,
      List.drop_of_length_le hlength.ge, chunks_of_lt CHUNK_SIZE_pos, List.map_cons,
      List.map_singleton, if_neg hlength.le.not_gt,
      if_pos (List.length_nil.trans_lt CHUNK_SIZE_pos)]
    rfl
  have hfile := decryptSecretSharedData_createSecretSharedData lawful_plain [] [] ()
    (List.replicate 4096 7)
  exact ⟨hfile.1, (hfile.2.2.2 1).mpr (by rw [hchunks]; rfl)⟩

/-- One empty message, which is not final. -/
def unfinished : Bytes := (plain.init_push [] ()).2 ++ (plain.push () [] 0).2

/-- The file ends before the final chunk, and 0 is returned. -/
theorem not_authenticates :
    ¬ ∀ (Key State : Type) (S : SecretStream Key State), S.Lawful →
      ∀ (unassigned : Bytes) (key : Key) (sourceFile : Bytes),
        Authenticates S unassigned key sourceFile := by
  intro hall
  have hchunks : sourceChunks plain unfinished = [(plain.push () [] 0).2] :=
    chunks_of_lt (by decide)
  have hpulls : sourcePulls plain [] () unfinished = [([], 0)] := by
    unfold sourcePulls
    rw [hchunks]
    rfl
  -- one chunk that is not final: it passes, and the function returns 0
  have hrun : decryptSecretSharedData plain [] () unfinished = .ok (0, []) := by
    have hpasses : Passes plain () (sourceChunks plain unfinished) := by
      rw [hchunks]
      exact ⟨rfl, fun _ => rfl, trivial⟩
    rw [decryptSecretSharedData_of_passes rfl hpasses, hpulls]
    rfl
  have hauthentic := (hall Unit Unit plain lawful_plain [] () unfinished).zero [] hrun
  have hfinal := (hauthentic.final 0).mpr (by rw [hchunks]; rfl)
  rw [hpulls] at hfinal
  exact absurd (Option.some.inj hfinal) (by decide)

end TrustedProxyLayer
