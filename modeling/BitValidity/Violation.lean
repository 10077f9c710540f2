import BitValidity.BitPattern

/-!
# Violations

A violation says which constraint the bytes of a value failed first, and where in the value.
-/

namespace BitValidity

inductive ViolationKind where
  /-- A leaf has a value outside its valid set. -/
  | invalidBitPattern
  /-- A tag belongs to no variant. -/
  | invalidDiscriminant
  /-- A pointer that must not be null is null. -/
  | nullPointer
  /-- The type has no value at all. -/
  | uninhabited
  /-- The invariant of a whole value does not hold. -/
  | invariant
  deriving DecidableEq, Inhabited

namespace ViolationKind

/-- How a value is reported that is all zero and must not be. -/
def ofZero (pointer : Bool) : ViolationKind := if pointer then nullPointer else invalidBitPattern

def name : ViolationKind → String
  | invalidBitPattern => "invalid bit pattern"
  | invalidDiscriminant => "invalid discriminant"
  | nullPointer => "null pointer"
  | uninhabited => "uninhabited type"
  | invariant => "invariant violated"

/-- Kinds are numbered from zero. -/
def ofCode? : Nat → Option ViolationKind
  | 0 => some invalidBitPattern
  | 1 => some invalidDiscriminant
  | 2 => some nullPointer
  | 3 => some uninhabited
  | 4 => some invariant
  | _ => none

def nameOfCode (code : Nat) : String := ((ofCode? code).map name).getD "unknown violation"

end ViolationKind

/-- The first constraint that a value failed. -/
structure Violation where
  kind : ViolationKind
  /-- Where the failing part begins, from the start of the checked value. -/
  offset : UInt64
  length : UInt64
  bits : BitPattern
  /-- What the failing leaf would have accepted; empty if that cannot be described. -/
  valid : BitRanges
  /-- What the failing constraint is about. -/
  description : String
  deriving DecidableEq

/-- One line on the violation, with at most `maxBytes` bytes of each pattern. -/
def Violation.text (v : Violation) (maxBytes : Nat) : String :=
  match v.kind with
  | .nullPointer => s!"expected {v.description} to not be null at byte {v.offset}"
  | .invalidDiscriminant =>
    s!"invalid {v.description} discriminant {v.bits.text maxBytes} at byte {v.offset}"
  | .uninhabited => s!"{v.description} has no valid bit pattern"
  | .invariant => s!"{v.description} invariant does not hold"
  | .invalidBitPattern =>
    let found := s!"invalid bit pattern {v.bits.text maxBytes} for {v.description} at byte {v.offset}"
    if v.valid.isEmpty then found else s!"{found}; not in the ranges {v.valid.text maxBytes}"

end BitValidity
