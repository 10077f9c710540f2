import BitValidity.Breach

/-!
# Storage

How many bytes a value occupies and how they must be aligned. Sizes, offsets and alignments are
64-bit words, and their sums wrap.
-/

namespace BitValidity

/-- The size and alignment of a value. -/
structure Storage where
  size : UInt64
  alignment : UInt64
  deriving DecidableEq

def Storage.text (s : Storage) : String := s!"size={s.size}, align={s.alignment}"

def isPowerOfTwo (n : UInt64) : Bool := n != 0 && n &&& (n - 1) == 0

/-- A number that something is to be divided by. -/
def divisor (n : UInt64) : Except Breach UInt64 :=
  if n = 0 then .error .zeroDivisor else .ok n

@[simp] theorem divisor_eq_ok_iff {n d : UInt64} : divisor n = .ok d ↔ n ≠ 0 ∧ n = d := by
  unfold divisor
  split <;> simp_all

/-- The least multiple of `alignment` that is not below `n`, if no sum on the way wraps. -/
def roundUp (n alignment : UInt64) : UInt64 := (n + alignment - 1) / alignment * alignment

end BitValidity
