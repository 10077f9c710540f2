import BitValidity.LittleEndian

/-!
# Bit patterns

A pattern is a number of bytes, least significant first, so two patterns are equal exactly when
they denote the same integer of the same width. Sets of patterns are given by inclusive ranges.
Both are values for diagnostics: they describe what was seen and what would have been accepted.
-/

namespace BitValidity

/-- Bytes of a pattern that a diagnostic shows when nothing else is asked for. -/
def defaultDiagnosticBytes : Nat := 16

/-- A bit pattern of any width, least significant byte first. -/
structure BitPattern where
  bytes : Bytes
  deriving DecidableEq, Inhabited

namespace BitPattern

/-- The pattern of bytes that sit in memory. -/
def ofMemory (bytes : Bytes) : BitPattern := ⟨bytes⟩

/-- The low `width` bytes of a word; a pattern wider than a word is filled up with zeros. -/
def ofUnsigned (value : UInt64) (width : Nat) : BitPattern :=
  ⟨LittleEndian.encode width value.toNat⟩

def zeros (width : Nat) : BitPattern := ⟨List.replicate width 0⟩

def ones (width : Nat) : BitPattern := ⟨List.replicate width 255⟩

def width (p : BitPattern) : Nat := p.bytes.length

def isZero (p : BitPattern) : Bool := p.bytes.all (· == 0)

@[simp] theorem width_ofMemory (bytes : Bytes) : (ofMemory bytes).width = bytes.length := rfl

@[simp] theorem width_ofUnsigned (value : UInt64) (w : Nat) : (ofUnsigned value w).width = w := by
  simp [ofUnsigned, width]

@[simp] theorem width_zeros (w : Nat) : (zeros w).width = w := by simp [zeros, width]

@[simp] theorem width_ones (w : Nat) : (ones w).width = w := by simp [ones, width]

/-! ### Text -/

/-- Two hexadecimal digits. -/
def hexByte (b : UInt8) : List Char :=
  [Nat.digitChar (b.toNat / 16), Nat.digitChar (b.toNat % 16)]

/-- The pattern in hexadecimal, most significant byte first. Of a pattern wider than `maxBytes` only
that many bytes are shown, and dots stand for the rest. -/
def text (p : BitPattern) (maxBytes : Nat) : String :=
  let shown := String.ofList ((p.bytes.reverse.take maxBytes).flatMap hexByte)
  "0x" ++ shown ++ if maxBytes < p.width then "..." else ""

end BitPattern

/-! ### Ranges -/

/-- An inclusive range of patterns. -/
structure BitRange where
  first : BitPattern
  last : BitPattern
  deriving DecidableEq

/-- The range that holds one pattern. -/
def BitRange.single (p : BitPattern) : BitRange := ⟨p, p⟩

def BitRange.text (r : BitRange) (maxBytes : Nat) : String :=
  r.first.text maxBytes ++ "..=" ++ r.last.text maxBytes

/-- A set of patterns, described by the ranges it consists of. -/
structure BitRanges where
  ranges : List BitRange
  deriving DecidableEq, Inhabited

namespace BitRanges

def empty : BitRanges := ⟨[]⟩

def isEmpty (s : BitRanges) : Bool := s.ranges.isEmpty

/-- Ranges of words of `width` bytes. -/
def ofUnsigned (ranges : List (UInt64 × UInt64)) (width : Nat) : BitRanges :=
  ⟨ranges.map fun r => ⟨.ofUnsigned r.1 width, .ofUnsigned r.2 width⟩⟩

/-- One range for each value. -/
def ofValues (values : List UInt64) (width : Nat) : BitRanges :=
  ⟨values.map fun v => .single (.ofUnsigned v width)⟩

/-- The ranges in their order, in brackets. -/
def text (s : BitRanges) (maxBytes : Nat) : String :=
  "[" ++ ", ".intercalate (s.ranges.map (·.text maxBytes)) ++ "]"

end BitRanges

end BitValidity
