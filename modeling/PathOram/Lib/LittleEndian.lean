import Mathlib.Data.List.Basic
import Mathlib.Tactic.Ring
import Mathlib.Tactic.NormNum

/-!
# Fixed-width little-endian integers

How a little-endian machine lays an unsigned integer out in memory, and how it reads
it back: `encode w n` is the `w` bytes of `n`, least significant first, and
`decode bs` the integer whose bytes are `bs`. `decode_encode` is the round trip; it
survives whatever follows the integer in memory (`decode_take_encode_append`).
-/

namespace LittleEndian

/-- The `w` low bytes of `n`, least significant first. -/
def encode : ℕ → ℕ → List UInt8
  | 0, _ => []
  | w + 1, n => UInt8.ofNat (n % 256) :: encode w (n / 256)

/-- The integer with the given bytes, least significant first. -/
def decode : List UInt8 → ℕ
  | [] => 0
  | b :: bs => b.toNat + 256 * decode bs

@[simp] theorem length_encode (w n : ℕ) : (encode w n).length = w := by
  induction w generalizing n with
  | zero => rfl
  | succ w ih => rw [encode, List.length_cons, ih]

theorem decode_lt (bs : List UInt8) : decode bs < 256 ^ bs.length := by
  induction bs with
  | nil => simp [decode]
  | cons b bs ih =>
    have hb : b.toNat < 256 := b.toNat_lt
    rw [decode, List.length_cons, pow_succ]
    omega

/-- **Round trip.** `w` bytes hold exactly the integers below `256 ^ w`. -/
theorem decode_encode {w n : ℕ} (h : n < 256 ^ w) : decode (encode w n) = n := by
  induction w generalizing n with
  | zero =>
    rw [pow_zero, Nat.lt_one_iff] at h
    subst h
    rfl
  | succ w ih =>
    -- The low byte comes first; the others encode what is left after a division.
    have hdiv : n / 256 < 256 ^ w := by
      rw [pow_succ] at h
      exact Nat.div_lt_of_lt_mul (by rwa [mul_comm] at h)
    have hbyte : (UInt8.ofNat (n % 256)).toNat = n % 256 := by
      rw [UInt8.toNat_ofNat']
      exact Nat.mod_eq_of_lt (Nat.mod_lt n (by norm_num))
    rw [encode, decode, ih hdiv, hbyte]
    omega

/-- The bytes of the integer with the given bytes. -/
theorem encode_decode (bs : List UInt8) : encode bs.length (decode bs) = bs := by
  induction bs with
  | nil => rfl
  | cons b bs ih =>
    have hb : b.toNat < 256 := b.toNat_lt
    have hlow : (b.toNat + 256 * decode bs) % 256 = b.toNat := by omega
    have hhigh : (b.toNat + 256 * decode bs) / 256 = decode bs := by omega
    rw [List.length_cons, decode, encode, hlow, hhigh, ih, UInt8.ofNat_toNat]

/-- The low bytes of an integer do not depend on how many follow. -/
theorem take_encode {w v : ℕ} (h : w ≤ v) (n : ℕ) : (encode v n).take w = encode w n := by
  induction w generalizing v n with
  | zero => rw [List.take_zero, encode]
  | succ w ih =>
    obtain ⟨v, rfl⟩ : ∃ u, v = u + 1 := ⟨v - 1, by omega⟩
    rw [encode, List.take_succ_cons, ih (Nat.le_of_succ_le_succ h), encode]

/-- The integer is read back whatever bytes follow it. -/
theorem decode_take_encode_append {w n : ℕ} (h : n < 256 ^ w) (rest : List UInt8) :
    decode ((encode w n ++ rest).take w) = n := by
  -- The first `w` bytes are those of the integer, since it takes exactly `w`.
  have htake : (encode w n ++ rest).take w = encode w n := by
    conv_lhs => rw [← length_encode w n]
    rw [length_encode, List.take_append_of_le_length (by rw [length_encode]),
      List.take_of_length_le (by rw [length_encode])]
  rw [htake, decode_encode h]

end LittleEndian
