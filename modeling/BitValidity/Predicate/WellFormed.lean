import BitValidity.Predicate.Basic

/-!
# Well-formed predicates

What the constructors of predicates leave to their callers. In a well-formed predicate every part
lies inside the bytes of the whole, so that a check of as many bytes as the predicate covers
breaches no precondition. That the ends of integer ranges fit the width of their leaf is a condition
of its own, because a wider end is only noticed by a signed comparison.
-/

namespace BitValidity

variable {κ : Type}

/-- The ends of the range are integers of the width. -/
def IntRange.fits (r : IntRange) (width : IntWidth) : Bool :=
  decide (r.first.toNat < 1 <<< (8 * width.bytes)) &&
    decide (r.last.toNat < 1 <<< (8 * width.bytes))

namespace Predicate

/-! ### Parts inside the whole -/

mutual

/-- Fields and tags lie inside the bytes, and what is about the whole covers the whole. -/
def isWellFormed : Predicate κ → Bool
  | allValid _ _ | noneValid _ _ | nonZero _ _ _ | intRanges _ _ _ _ | custom _ _ _ => true
  | allOf size _ fields none => fieldsWellFormed size fields
  | allOf size _ fields (some invariant) =>
    fieldsWellFormed size fields && invariant.size == size && invariant.isWellFormed
  | oneOf size _ offset width _ variants =>
    decide (offset.toNat + width.bytes ≤ size.toNat) && variantsWellFormed size variants
  | passthrough _ inner => inner.isWellFormed

def fieldsWellFormed (size : UInt64) : List (FieldCheck (Predicate κ)) → Bool
  | [] => true
  | field :: rest =>
    decide (field.offset.toNat + field.predicate.size.toNat ≤ size.toNat) &&
      field.predicate.isWellFormed && fieldsWellFormed size rest

def variantsWellFormed (size : UInt64) : List (VariantCheck (Predicate κ)) → Bool
  | [] => true
  | variant :: rest =>
    variant.payload.size == size && variant.payload.isWellFormed && variantsWellFormed size rest

end

@[simp] theorem fieldsWellFormed_eq (size : UInt64) (fields : List (FieldCheck (Predicate κ))) :
    fieldsWellFormed size fields = fields.all fun field =>
      decide (field.offset.toNat + field.predicate.size.toNat ≤ size.toNat) &&
        field.predicate.isWellFormed := by
  induction fields with
  | nil => rfl
  | cons field rest ih => simp [fieldsWellFormed, ih]

@[simp] theorem variantsWellFormed_eq (size : UInt64)
    (variants : List (VariantCheck (Predicate κ))) :
    variantsWellFormed size variants = variants.all fun variant =>
      variant.payload.size == size && variant.payload.isWellFormed := by
  induction variants with
  | nil => rfl
  | cons variant rest ih => simp [variantsWellFormed, ih]

/-! ### A condition on every leaf -/

mutual

/-- Every leaf satisfies a condition, those of invariants and of all variants included. -/
def allLeaves (condition : Predicate κ → Bool) : Predicate κ → Bool
  | allOf _ _ fields none => fieldsLeaves condition fields
  | allOf _ _ fields (some invariant) =>
    fieldsLeaves condition fields && invariant.allLeaves condition
  | oneOf _ _ _ _ _ variants => variantsLeaves condition variants
  | passthrough _ inner => inner.allLeaves condition
  | allValid size d => condition (allValid size d)
  | noneValid size d => condition (noneValid size d)
  | nonZero size d pointer => condition (nonZero size d pointer)
  | intRanges width signed ranges d => condition (intRanges width signed ranges d)
  | custom size d check => condition (custom size d check)

def fieldsLeaves (condition : Predicate κ → Bool) : List (FieldCheck (Predicate κ)) → Bool
  | [] => true
  | field :: rest => field.predicate.allLeaves condition && fieldsLeaves condition rest

def variantsLeaves (condition : Predicate κ → Bool) : List (VariantCheck (Predicate κ)) → Bool
  | [] => true
  | variant :: rest => variant.payload.allLeaves condition && variantsLeaves condition rest

end

/-- The ranges of every integer leaf are ranges of integers of its width. -/
def rangesFit (p : Predicate κ) : Bool :=
  p.allLeaves fun
    | intRanges width _ ranges _ => ranges.all (·.fits width)
    | _ => true

/-- What is asked of a predicate that a caller supplies. -/
def isSound (p : Predicate κ) : Bool := p.isWellFormed && p.rangesFit

end Predicate

end BitValidity
