import BitValidity.Breach
import BitValidity.Word

/-!
# Reading parts of values

`Bytes.slice` takes bytes out of a value and `loadUnsigned` reads an integer that is stored in it.
The end of an integer is a 64-bit sum that wraps, so an offset next to `2 ^ 64` passes the test for
the end, and only the slice shows that there is nothing to read.
-/

namespace BitValidity

/-! ### Slices -/

/-- The `size` bytes at `offset`. -/
def Bytes.slice (bytes : Bytes) (offset size : UInt64) : Except Breach Bytes :=
  if offset.toNat + size.toNat ≤ bytes.length then
    .ok ((bytes.drop offset.toNat).take size.toNat)
  else
    .error (.strayRead offset size bytes.length)

theorem Bytes.slice_eq_ok_iff {bytes : Bytes} {offset size : UInt64} {part : Bytes} :
    Bytes.slice bytes offset size = .ok part ↔
      offset.toNat + size.toNat ≤ bytes.length ∧
        part = (bytes.drop offset.toNat).take size.toNat := by
  unfold Bytes.slice
  split
  · simp_all [eq_comm]
  · simp only [reduceCtorEq, false_iff, not_and]
    omega

theorem Bytes.length_of_slice {bytes : Bytes} {offset size : UInt64} {part : Bytes}
    (h : Bytes.slice bytes offset size = .ok part) : part.length = size.toNat := by
  obtain ⟨hle, rfl⟩ := Bytes.slice_eq_ok_iff.mp h
  rw [List.length_take, List.length_drop]
  omega

/-! ### Integers -/

/-- The unsigned integer of `width` bytes that is stored at `offset`. -/
def loadUnsigned (bytes : Bytes) (offset width : UInt64) : Except Breach UInt64 :=
  if bytes.length < (offset + width).toNat then
    .error (.internal (.readPastEnd offset width bytes.length))
  else if (IntWidth.ofBytes? width.toNat).isNone then
    .error (.internal (.unsupportedWidth width))
  else
    (Bytes.slice bytes offset width).map fun part => UInt64.ofNat (LittleEndian.decode part)

end BitValidity
