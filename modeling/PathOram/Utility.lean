import PathOram.Definitions

/-!
# Encryption

`encrypt` of `utility.cpp`. The block ciphers of OpenSSL are outside the repository
and enter as the structure `Aes`; what the code relies on is `Aes.Lawful`: both modes
keep the length, CBC decryption inverts CBC encryption under the same key and IV, and
CTR, which only ever encrypts, is its own inverse. The mode is the global setting
`__blockCipherMode`; in mode `NONE` the input is passed through.

`Crypto.decrypt_encrypt` is what the storage layer uses of this module.
-/

namespace PathORAM

/-- The direction of an encryption operation. -/
inductive EncryptionMode where
  | ENCRYPT
  | DECRYPT
  deriving DecidableEq, Repr

/-- The block cipher mode. -/
inductive BlockCipherMode where
  | CBC
  | CTR
  | NONE
  deriving DecidableEq, Repr

/-- The cipher routines of OpenSSL, as functions of key, IV and input. -/
structure Aes where
  /-- `CRYPTO_cbc128_encrypt` over `AES_encrypt`. -/
  cbcEncrypt : Bytes → Bytes → Bytes → Bytes
  /-- `CRYPTO_cbc128_decrypt` over `AES_decrypt`. -/
  cbcDecrypt : Bytes → Bytes → Bytes → Bytes
  /-- `CRYPTO_ctr128_encrypt` over `AES_encrypt`. -/
  ctr : Bytes → Bytes → Bytes → Bytes

/-- A key, an IV and an input of the sizes the routines are called with. -/
def Aes.Sized (key iv input : Bytes) : Prop :=
  key.length = KEYSIZE ∧ iv.length = AES_BLOCK_SIZE ∧ AES_BLOCK_SIZE ∣ input.length

/-- What the code relies on. -/
structure Aes.Lawful (aes : Aes) : Prop where
  length_cbcEncrypt : ∀ key iv input, Sized key iv input →
    (aes.cbcEncrypt key iv input).length = input.length
  length_ctr : ∀ key iv input, Sized key iv input →
    (aes.ctr key iv input).length = input.length
  cbcDecrypt_cbcEncrypt : ∀ key iv input, Sized key iv input →
    aes.cbcDecrypt key iv (aes.cbcEncrypt key iv input) = input
  ctr_ctr : ∀ key iv input, Sized key iv input →
    aes.ctr key iv (aes.ctr key iv input) = input

/-- The cipher routines and the global `__blockCipherMode`. -/
structure Crypto where
  aes : Aes
  blockCipherMode : BlockCipherMode

/-- The routines that a mode calls are lawful. -/
def Crypto.Lawful (crypto : Crypto) : Prop :=
  crypto.blockCipherMode ≠ .NONE → crypto.aes.Lawful

variable {crypto : Crypto} {key iv input output : Bytes}

/-- Encrypt or decrypt `input`, a nonempty multiple of the AES block size. -/
def encrypt (crypto : Crypto) (key iv input : Bytes) (mode : EncryptionMode) :
    Except Exception Bytes :=
  if key.length ≠ KEYSIZE then
    .error (.wrongKeySize key.length)
  else if input.length = 0 ∨ input.length % AES_BLOCK_SIZE ≠ 0 then
    .error (.wrongInputSize input.length)
  else if iv.length ≠ AES_BLOCK_SIZE then
    .error (.wrongIVSize iv.length)
  else
    match crypto.blockCipherMode with
    -- The mode only decides which routine is called, after the checks.
    | .NONE => .ok input
    | .CBC =>
      match mode with
      | .ENCRYPT => .ok (crypto.aes.cbcEncrypt key iv input)
      | .DECRYPT => .ok (crypto.aes.cbcDecrypt key iv input)
    | .CTR => .ok (crypto.aes.ctr key iv input)

/-- Sizes are all that `encrypt` checks. -/
theorem exists_encrypt (crypto : Crypto) (mode : EncryptionMode) (hkey : key.length = KEYSIZE)
    (hiv : iv.length = AES_BLOCK_SIZE) (hpos : input.length ≠ 0)
    (hdvd : AES_BLOCK_SIZE ∣ input.length) :
    ∃ output, encrypt crypto key iv input mode = .ok output := by
  have hmod : input.length % AES_BLOCK_SIZE = 0 := Nat.mod_eq_zero_of_dvd hdvd
  unfold encrypt
  rw [if_neg (not_not_intro hkey), if_neg (by simp [hpos, hmod]), if_neg (not_not_intro hiv)]
  cases crypto.blockCipherMode with
  | NONE => exact ⟨input, rfl⟩
  | CBC => cases mode <;> exact ⟨_, rfl⟩
  | CTR => exact ⟨_, rfl⟩

/-- **Encryption returns a ciphertext of the input's length that decrypts back.** -/
theorem Crypto.decrypt_encrypt (hcrypto : crypto.Lawful) (hkey : key.length = KEYSIZE)
    (hiv : iv.length = AES_BLOCK_SIZE) (hpos : input.length ≠ 0)
    (hdvd : AES_BLOCK_SIZE ∣ input.length) :
    ∃ output, encrypt crypto key iv input .ENCRYPT = .ok output ∧
      output.length = input.length ∧
      encrypt crypto key iv output .DECRYPT = .ok input := by
  -- The checks look at lengths only, and these are the same in both directions.
  have hmod : input.length % AES_BLOCK_SIZE = 0 := Nat.mod_eq_zero_of_dvd hdvd
  have hchecks : ∀ (data : Bytes) (mode : EncryptionMode), data.length = input.length →
      encrypt crypto key iv data mode =
        match crypto.blockCipherMode with
        | .NONE => .ok data
        | .CBC =>
          match mode with
          | .ENCRYPT => .ok (crypto.aes.cbcEncrypt key iv data)
          | .DECRYPT => .ok (crypto.aes.cbcDecrypt key iv data)
        | .CTR => .ok (crypto.aes.ctr key iv data) := by
    intro data mode hlen
    unfold encrypt
    rw [if_neg (by simp [hkey]), if_neg (by simp [hlen, hpos, hmod]), if_neg (by simp [hiv])]
  have hsized : Aes.Sized key iv input := ⟨hkey, hiv, hdvd⟩
  unfold Crypto.Lawful at hcrypto
  cases hmode : crypto.blockCipherMode with
  -- In mode `NONE` the bytes are stored as they are.
  | NONE =>
    refine ⟨input, ?_, rfl, ?_⟩ <;> rw [hchecks input _ rfl, hmode]
  | CBC =>
    have haes := hcrypto (by rw [hmode]; decide)
    have hlen := haes.length_cbcEncrypt key iv input hsized
    refine ⟨crypto.aes.cbcEncrypt key iv input, ?_, hlen, ?_⟩
    · rw [hchecks input _ rfl, hmode]
    · rw [hchecks _ _ hlen, hmode]
      exact congrArg Except.ok (haes.cbcDecrypt_cbcEncrypt key iv input hsized)
  | CTR =>
    have haes := hcrypto (by rw [hmode]; decide)
    have hlen := haes.length_ctr key iv input hsized
    refine ⟨crypto.aes.ctr key iv input, ?_, hlen, ?_⟩
    · rw [hchecks input _ rfl, hmode]
    · rw [hchecks _ _ hlen, hmode]
      -- CTR adds a key stream, so the same call decrypts.
      exact congrArg Except.ok (haes.ctr_ctr key iv input hsized)

end PathORAM
