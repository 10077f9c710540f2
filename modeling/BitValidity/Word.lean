import BitValidity.LittleEndian

/-!
# Machine words

Integers of one, two, four or eight bytes, and the two ways in which a 64-bit word stands for a
narrower one: the low bytes alone (`byteMask`), or the low bytes read as a two's complement number
(`signExtend`).
-/

namespace BitValidity

/-- How many bytes an integer may occupy. -/
inductive IntWidth where
  | one | two | four | eight
  deriving DecidableEq

namespace IntWidth

def bytes : IntWidth → Nat
  | one => 1
  | two => 2
  | four => 4
  | eight => 8

def ofBytes? : Nat → Option IntWidth
  | 1 => some one
  | 2 => some two
  | 4 => some four
  | 8 => some eight
  | _ => none

def toUInt32 (width : IntWidth) : UInt32 := UInt32.ofNat width.bytes

def toUInt64 (width : IntWidth) : UInt64 := UInt64.ofNat width.bytes

@[simp] theorem ofBytes?_bytes (width : IntWidth) : ofBytes? width.bytes = some width := by
  cases width <;> rfl

theorem ofBytes?_eq_some_iff {n : Nat} {width : IntWidth} :
    ofBytes? n = some width ↔ n = width.bytes := by
  constructor
  · unfold ofBytes?
    split <;> simp_all [← eq_comm] <;> rintro rfl <;> rfl
  · rintro rfl
    exact ofBytes?_bytes width

@[simp] theorem toNat_toUInt64 (width : IntWidth) : width.toUInt64.toNat = width.bytes := by
  cases width <;> rfl

end IntWidth

/-- All ones in the low `width` bytes of a word. -/
def byteMask (width : Nat) : UInt64 := UInt64.ofNat ((1 <<< (8 * min width 8)) - 1)

/-- Reads the low `width` bytes as a two's complement number. Bytes above them are expected to be
zero; a word of no bytes or of eight is taken as it is. -/
def signExtend (value : UInt64) (width : Nat) : Int64 :=
  if width = 0 ∨ 8 ≤ width then value.toInt64
  else
    let sign := UInt64.ofNat (1 <<< (8 * width - 1))
    ((value ^^^ sign) - sign).toInt64

end BitValidity
