import BitValidity.Load
import BitValidity.Predicate.ValidSet

/-!
# Checking bytes

`findViolation` checks bytes against a predicate and reports the first constraint that fails: fields
in their order, then the invariant of the whole. What it reports of a part is relocated to where the
part lies in the whole, and what the invariant reports becomes a violation of the invariant.
-/

namespace BitValidity

variable {κ : Type}

/-- A word of `width` bytes lies in the range. Signed, the raw words are read as two's complement
numbers; otherwise bytes above the width do not count. -/
def IntRange.contains (r : IntRange) (width : IntWidth) (signed : Bool) (value : UInt64) : Bool :=
  if signed then
    signExtend r.first width.bytes ≤ signExtend value width.bytes &&
      signExtend value width.bytes ≤ signExtend r.last width.bytes
  else
    r.first &&& byteMask width.bytes ≤ value &&& byteMask width.bytes &&
      value &&& byteMask width.bytes ≤ r.last &&& byteMask width.bytes

namespace Violation

/-- The whole of the bytes fails a leaf. -/
def ofLeaf (leaf : Predicate κ) (bytes : Bytes) (kind : ViolationKind) : Violation where
  kind := kind
  offset := 0
  length := leaf.size
  bits := .ofMemory bytes
  valid := leaf.validSet
  description := leaf.description

/-- A tag has a value that none of the variants has. -/
def ofTag (description : String) (offset : UInt64) (width : IntWidth) (tag : UInt64)
    (known : List UInt64) : Violation where
  kind := .invalidDiscriminant
  offset := offset
  length := width.toUInt64
  bits := .ofUnsigned tag width.bytes
  valid := .ofValues known width.bytes
  description := description

/-- The violation of a part, seen from the whole that has the part at `offset`. -/
def relocate (v : Violation) (offset : UInt64) : Violation := { v with offset := v.offset + offset }

/-- The violation of an invariant, seen from the value that has it. -/
def asInvariant (v : Violation) : Violation := { v with kind := .invariant }

end Violation

namespace Predicate

variable [Check κ]

mutual

/-- The first constraint that the bytes fail, if they fail one. -/
def findViolation (predicate : Predicate κ) (bytes : Bytes) : Except Breach (Option Violation) :=
  if bytes.length ≠ predicate.size.toNat then
    .error (.internal (.lengthMismatch predicate.description predicate.size bytes.length))
  else
    match predicate with
    | allValid _ _ => .ok none
    | noneValid size description =>
      .ok (some (.ofLeaf (noneValid size description : Predicate κ) bytes .uninhabited))
    | nonZero size description pointer =>
      if bytes.all (· == 0) then
        .ok (some (.ofLeaf (nonZero size description pointer : Predicate κ) bytes
          (.ofZero pointer)))
      else .ok none
    | intRanges width signed ranges description => do
      let value ← loadUnsigned bytes 0 width.toUInt64
      if ranges.any (·.contains width signed value) then return none
      return some (.ofLeaf (intRanges width signed ranges description : Predicate κ) bytes
        .invalidBitPattern)
    | custom size description check =>
      if Check.accepts check bytes then .ok none
      else .ok (some (.ofLeaf (custom size description check) bytes .invalidBitPattern))
    | allOf _ _ fields none => findFieldViolation fields bytes
    | allOf _ _ fields (some invariant) => do
      match ← findFieldViolation fields bytes with
      | some v => return some v
      | none => return (← findViolation invariant bytes).map .asInvariant
    | oneOf _ description offset width _ variants => do
      let tag ← loadUnsigned bytes offset width.toUInt64
      findVariantViolation variants width tag
        (.ofTag description offset width tag (variants.map (·.tag))) bytes
    | passthrough _ inner => findViolation inner bytes

/-- The first violation of a field in the bytes of the whole. -/
def findFieldViolation : List (FieldCheck (Predicate κ)) → Bytes →
    Except Breach (Option Violation)
  | [], _ => .ok none
  | field :: rest, bytes => do
    let part ← Bytes.slice bytes field.offset field.predicate.size
    match ← findViolation field.predicate part with
    | some v => return some (v.relocate field.offset)
    | none => findFieldViolation rest bytes

/-- The violation of the first variant that has the tag, or `unknown` if there is none. -/
def findVariantViolation : List (VariantCheck (Predicate κ)) → IntWidth → UInt64 → Violation →
    Bytes → Except Breach (Option Violation)
  | [], _, _, unknown, _ => .ok (some unknown)
  | variant :: rest, width, tag, unknown, bytes =>
    if variant.tag &&& byteMask width.bytes = tag then findViolation variant.payload bytes
    else findVariantViolation rest width tag unknown bytes

end

/-- A check that has an outcome was given as many bytes as the predicate covers. -/
theorem length_of_findViolation {predicate : Predicate κ} {bytes : Bytes}
    {outcome : Option Violation} (h : predicate.findViolation bytes = .ok outcome) :
    bytes.length = predicate.size.toNat := by
  rw [findViolation.eq_def] at h
  split at h
  · cases h
  · rename_i hlen
    exact Decidable.not_not.mp hlen

/-- The bytes are a value. -/
def Accepts (predicate : Predicate κ) (bytes : Bytes) : Prop :=
  predicate.findViolation bytes = .ok none

theorem Accepts.length_eq {predicate : Predicate κ} {bytes : Bytes}
    (h : predicate.Accepts bytes) : bytes.length = predicate.size.toNat :=
  length_of_findViolation h

end Predicate

end BitValidity
