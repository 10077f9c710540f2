import BitValidity.Predicate.Check

/-!
# The constraints on given bytes

For given bytes a predicate comes down to a list of constraints, each a leaf on some of the bytes,
in the order in which they are checked. A tag selects the constraints of its variant, and one that
belongs to no variant is itself a constraint, which fails. Which bytes matter at all is read off the
same way: padding, the inactive variants and the bytes of a leaf that accepts everything do not.
-/

namespace BitValidity

variable {κ : Type}

/-- A constraint on bytes of a value. -/
structure Constraint (κ : Type) where
  /-- From the start of the value. -/
  offset : UInt64
  /-- The constraint is part of an invariant, at any depth. -/
  inInvariant : Bool
  /-- What is reported of the bytes of the constraint alone when it fails, if it does. -/
  failure? : Option Violation

namespace Constraint

/-- The constraint of a part, seen from the whole. -/
def relocate (c : Constraint κ) (offset : UInt64) : Constraint κ :=
  { c with offset := c.offset + offset }

def markInvariant (c : Constraint κ) : Constraint κ := { c with inInvariant := true }

/-- What a check of the whole reports of a constraint that fails. -/
def violation? (c : Constraint κ) : Option Violation :=
  c.failure?.map fun v =>
    { v with
      offset := c.offset + v.offset
      kind := if c.inInvariant then .invariant else v.kind }

end Constraint

namespace Predicate

/-- The bytes that a field is about. -/
def part (bytes : Bytes) (offset size : UInt64) : Bytes :=
  (bytes.drop offset.toNat).take size.toNat

/-- The integer that the bytes of a tag denote. -/
def tagOf (bytes : Bytes) (offset : UInt64) (width : IntWidth) : UInt64 :=
  UInt64.ofNat (LittleEndian.decode (part bytes offset width.toUInt64))

variable [Check κ]

/-! ### Constraints -/

/-- A single constraint, at the start of the bytes that it is about. -/
def constraint (holds : Bool) (violation : Violation) : List (Constraint κ) :=
  [⟨0, false, if holds then none else some violation⟩]

mutual

/-- The constraints that the predicate puts on the bytes, in order. -/
def constraints : Predicate κ → Bytes → List (Constraint κ)
  | allValid size d, bytes =>
    constraint true (.ofLeaf (allValid size d : Predicate κ) bytes .invalidBitPattern)
  | noneValid size d, bytes =>
    constraint false (.ofLeaf (noneValid size d : Predicate κ) bytes .uninhabited)
  | nonZero size d pointer, bytes =>
    constraint (LittleEndian.decode bytes != 0)
      (.ofLeaf (nonZero size d pointer : Predicate κ) bytes
        (.ofZero pointer))
  | intRanges width signed ranges d, bytes =>
    constraint (ranges.any (·.contains width signed (tagOf bytes 0 width)))
      (.ofLeaf (intRanges width signed ranges d : Predicate κ) bytes .invalidBitPattern)
  | custom size d check, bytes =>
    constraint (Check.accepts check bytes)
      (.ofLeaf (custom size d check) bytes .invalidBitPattern)
  | allOf _ _ fields none, bytes => fieldConstraints fields bytes
  | allOf _ _ fields (some invariant), bytes =>
    fieldConstraints fields bytes ++ (invariant.constraints bytes).map (·.markInvariant)
  | oneOf _ d offset width _ variants, bytes =>
    variantConstraints variants width (tagOf bytes offset width)
      (.ofTag d offset width (tagOf bytes offset width) (variants.map (·.tag))) bytes
  | passthrough _ inner, bytes => inner.constraints bytes

def fieldConstraints : List (FieldCheck (Predicate κ)) → Bytes → List (Constraint κ)
  | [], _ => []
  | field :: rest, bytes =>
    (field.predicate.constraints (part bytes field.offset field.predicate.size)).map
        (·.relocate field.offset) ++
      fieldConstraints rest bytes

def variantConstraints : List (VariantCheck (Predicate κ)) → IntWidth → UInt64 → Violation →
    Bytes → List (Constraint κ)
  | [], _, _, unknown, _ => constraint false unknown
  | variant :: rest, width, tag, unknown, bytes =>
    if variant.tag &&& byteMask width.bytes = tag then variant.payload.constraints bytes
    else variantConstraints rest width tag unknown bytes

end

/-! ### Inspected bytes -/

omit [Check κ]

mutual

/-- The byte at an index decides what a check of the bytes reports. -/
def inspects : Predicate κ → Bytes → Nat → Bool
  | allValid _ _, _, _ => false
  | noneValid size _, _, i | nonZero size _ _, _, i | custom size _ _, _, i
  | allOf size _ _ (some _), _, i => decide (i < size.toNat)
  | intRanges width _ _ _, _, i => decide (i < width.bytes)
  | allOf _ _ fields none, bytes, i => fieldsInspect fields bytes i
  | oneOf _ _ offset width _ variants, bytes, i =>
    decide (offset.toNat ≤ i ∧ i < offset.toNat + width.bytes) ||
      variantInspects variants width (tagOf bytes offset width) bytes i
  | passthrough _ inner, bytes, i => inner.inspects bytes i

def fieldsInspect : List (FieldCheck (Predicate κ)) → Bytes → Nat → Bool
  | [], _, _ => false
  | field :: rest, bytes, i =>
    (decide (field.offset.toNat ≤ i) &&
      field.predicate.inspects (part bytes field.offset field.predicate.size)
        (i - field.offset.toNat)) ||
      fieldsInspect rest bytes i

def variantInspects : List (VariantCheck (Predicate κ)) → IntWidth → UInt64 → Bytes → Nat → Bool
  | [], _, _, _, _ => false
  | variant :: rest, width, tag, bytes, i =>
    if variant.tag &&& byteMask width.bytes = tag then variant.payload.inspects bytes i
    else variantInspects rest width tag bytes i

end

end Predicate

end BitValidity
