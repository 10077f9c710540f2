import BitValidity.Layout.Discriminant
import BitValidity.Layout.Placement

/-!
# Layout of tagged unions

The variants of a tagged union share the storage behind the tag, from the first offset on where the
strictest of all their fields is aligned. A value is valid when its tag belongs to a variant and the
fields of that variant are valid.
-/

namespace BitValidity

variable {κ : Type}

namespace TaggedUnion

/-- The tag must be where an integer of its width is aligned. -/
def checkTagOffset (u : TaggedUnion) : Except Failure Unit := do
  if u.tag.offset % (← divisor u.tag.width.toUInt64) ≠ 0 then
    .error (.error (.layoutMismatch (.misalignedTag u.name u.tag.offset u.tag.width)))
  else return ()

/-- The offset behind the tag. -/
def tagStop (u : TaggedUnion) : UInt64 := u.tag.offset + u.tag.width.toUInt64

/-- The strictest alignment of a field of any variant. -/
def payloadAlignment (r : Registry κ) (u : TaggedUnion) : Except Error UInt64 := do
  let facts ← (u.variants.flatMap (·.fields)).mapM (r.fieldFact u.name)
  return facts.foldl (fun a fact => max a fact.alignment) 1

def variantName (u : TaggedUnion) (variant : Variant) : String := s!"{u.name}::{variant.name}"

/-- The fields of a variant, which must not overlap each other or the tag. -/
def placeVariant (r : Registry κ) (u : TaggedUnion) (start : UInt64) (variant : Variant) :
    Except Failure (List (PlacedField κ)) := do
  let fields ← placeFields r (u.variantName variant) variant.fields start
  checkOverlap (u.variantName variant)
    (fields.map (·.extent) ++ [⟨u.tag.offset, u.tag.width.toUInt64, "tag"⟩])
  return fields

/-- The predicate of a variant, on the whole value. -/
def payload (u : TaggedUnion) (size : UInt64) (variant : Variant)
    (fields : List (PlacedField κ)) : Predicate κ :=
  .allOf size (u.variantName variant) (fields.map (·.check)) none

/-- What is checked of a value with the given tags, when the variants are where they are placed. -/
def variantChecks (u : TaggedUnion) (size : UInt64) (tags : List UInt64)
    (placed : List (List (PlacedField κ))) : List (VariantCheck (Predicate κ)) :=
  (tags.zip (u.variants.zip placed)).map fun (tag, variant, fields) =>
    ⟨tag, u.payload size variant fields, variant.name⟩

/-- The layout of a tagged union: the fields of each variant at their offsets, and the fact. -/
def layout (r : Registry κ) (u : TaggedUnion) :
    Except Failure (List (List (PlacedField κ)) × LayoutFact κ) := do
  let width ← u.tag.checkedWidth u.name
  let tags ← resolveDiscriminants u.name u.tag (u.variants.map (·.discriminant?))
  u.checkTagOffset
  let payloadAlignment ← u.payloadAlignment r
  let start := roundUp u.tagStop (← divisor payloadAlignment)
  let placed ← u.variants.mapM (u.placeVariant r start)
  let alignment ← resolveAlignment u.name u.alignment? (max width.toUInt64 payloadAlignment)
  let fields := placed.flatten
  let size ← resolveSize u.name u.size? (lastStop u.tagStop fields) alignment fields
  return (placed, ⟨⟨size, alignment⟩, u.name,
    .oneOf size u.name u.tag.offset width u.tag.signed (u.variantChecks size tags placed)⟩)

def layoutFact (r : Registry κ) (u : TaggedUnion) : Except Failure (LayoutFact κ) :=
  (u.layout r).map (·.2)

end TaggedUnion

end BitValidity
