import BitValidity.Layout.Aggregate
import BitValidity.Layout.TaggedUnion

/-!
# Placements that fit

Sizes and offsets are 64-bit words, and a description can be such that the sums of its placement
wrap. It *fits* when none does: then every offset and size is that of unbounded arithmetic.
-/

namespace BitValidity

variable {κ : Type}

/-- The sum is a word. -/
def sumFits (a b : UInt64) : Bool := decide (a.toNat + b.toNat < UInt64.size)

/-- Rounding up goes through no sum that wraps. -/
def roundUpFits (n alignment : UInt64) : Bool :=
  decide (n.toNat + alignment.toNat ≤ UInt64.size)

/-- No sum wraps when fields are placed from `cursor` on. A field of a type without a fact ends the
placement. -/
def fieldsFit (r : Registry κ) : List Field → UInt64 → Bool
  | [], _ => true
  | field :: rest, cursor =>
    match r.fact? field.type with
    | none => true
    | some fact =>
      let offset := field.offset?.getD (roundUp cursor fact.alignment)
      (field.offset?.isSome || roundUpFits cursor fact.alignment) &&
        sumFits offset fact.size && fieldsFit r rest (offset + fact.size)

/-- The size that is computed for a whole is not rounded up past all words. -/
def sizeFits (declared? : Option UInt64) (required alignment : UInt64) : Bool :=
  declared?.isSome || roundUpFits required alignment

namespace Aggregate

/-- No sum wraps when the aggregate is laid out. -/
def fits (r : Registry κ) (a : Aggregate κ) : Bool :=
  match a.representation with
  | .transparent | .packed => true
  | .sequential =>
    fieldsFit r a.fields 0 &&
      match placeFields r a.name a.fields 0 with
      | .error _ => true
      | .ok fields =>
        sizeFits a.size? (lastStop 0 fields)
          (max (strictestAlignment 1 fields) (a.alignment?.getD 1))

/-- No sum wraps on the way to the layout of a sequential aggregate, or to the error that it has
none. -/
def sumsFit (r : Registry κ) (a : Aggregate κ) : Bool :=
  match placeFields r a.name a.fields 0 with
  | .error _ => true
  | .ok fields =>
    fieldsFit r a.fields 0 &&
      match checkOverlap a.name (fields.map (·.extent)),
        resolveAlignment a.name a.alignment? (strictestAlignment 1 fields) with
      | .ok _, .ok alignment => sizeFits a.size? (lastStop 0 fields) alignment
      | _, _ => true

end Aggregate

namespace TaggedUnion

/-- No sum wraps when the variants are placed behind the tag. -/
def variantsFit (r : Registry κ) (u : TaggedUnion) (payloadAlignment : UInt64) : Bool :=
  let start := roundUp u.tagStop payloadAlignment
  roundUpFits u.tagStop payloadAlignment &&
    u.variants.all (fun variant => fieldsFit r variant.fields start) &&
    match u.variants.mapM (u.placeVariant r start) with
    | .error _ => true
    | .ok placed =>
      sizeFits u.size? (lastStop u.tagStop placed.flatten)
        (max (max u.tag.width.toUInt64 payloadAlignment) (u.alignment?.getD 1))

/-- No sum wraps when the tagged union is laid out. -/
def fits (r : Registry κ) (u : TaggedUnion) : Bool :=
  sumFits u.tag.offset u.tag.width.toUInt64 &&
    match u.payloadAlignment r with
    | .error _ => true
    | .ok payloadAlignment => u.variantsFit r payloadAlignment

end TaggedUnion

end BitValidity
