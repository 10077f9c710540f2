/-!
# Little-endian integers

Storage is a list of bytes in memory order. Read as an integer the first byte is the least
significant one: `decode` is that integer and `encode` writes the low bytes of an integer.
The two are inverse to each other on bytes of a fixed length.
-/

namespace BitValidity

/-- The raw storage of a value, in memory order. -/
abbrev Bytes := List UInt8

namespace LittleEndian

/-- The integer that the bytes denote. -/
def decode : Bytes → Nat
  | [] => 0
  | b :: bs => b.toNat + 256 * decode bs

/-- The `width` low bytes of an integer. -/
def encode : Nat → Nat → Bytes
  | 0, _ => []
  | width + 1, n => UInt8.ofNat n :: encode width (n / 256)

@[simp] theorem decode_nil : decode [] = 0 := rfl

@[simp] theorem decode_cons (b : UInt8) (bs : Bytes) :
    decode (b :: bs) = b.toNat + 256 * decode bs := rfl

@[simp] theorem length_encode (width n : Nat) : (encode width n).length = width := by
  induction width generalizing n with
  | zero => rfl
  | succ width ih => simp [encode, ih]

/-- Shifts are of eight bits for each byte. -/
theorem shiftLeft_bytes_succ (width : Nat) : 1 <<< (8 * (width + 1)) = 256 * 1 <<< (8 * width) := by
  rw [Nat.mul_succ, Nat.shiftLeft_add, Nat.shiftLeft_eq _ 8]
  exact Nat.mul_comm _ _

theorem decode_lt (bytes : Bytes) : decode bytes < 1 <<< (8 * bytes.length) := by
  induction bytes with
  | nil => simp
  | cons b bs ih =>
    have := b.toNat_lt
    rw [decode_cons, List.length_cons, shiftLeft_bytes_succ]
    omega

theorem decode_encode (width n : Nat) :
    decode (encode width n) = n % (1 <<< (8 * width)) := by
  induction width generalizing n with
  | zero => simp [encode, Nat.mod_one]
  | succ width ih =>
    have byte : (UInt8.ofNat n).toNat = n % 256 := by simp
    rw [encode, decode_cons, ih, byte, shiftLeft_bytes_succ, Nat.mod_mul]

theorem encode_decode (bytes : Bytes) : encode bytes.length (decode bytes) = bytes := by
  induction bytes with
  | nil => rfl
  | cons b bs ih =>
    have hb := b.toNat_lt
    have hdiv : (b.toNat + 256 * decode bs) / 256 = decode bs := by omega
    have hmod : UInt8.ofNat (b.toNat + 256 * decode bs) = b := by
      apply UInt8.toNat_inj.mp
      rw [UInt8.toNat_ofNat']
      omega
    simp [encode, hdiv, hmod, ih]

/-- Only bytes that are all zero denote zero. -/
theorem decode_eq_zero_iff {bytes : Bytes} : decode bytes = 0 ↔ ∀ b ∈ bytes, b = 0 := by
  induction bytes with
  | nil => simp
  | cons b bs ih =>
    have hb : b.toNat = 0 ↔ b = 0 := by rw [← UInt8.toNat_inj]; simp
    simp only [decode_cons, List.forall_mem_cons, ← ih, ← hb]
    omega

end LittleEndian

end BitValidity
