import BitValidity.Predicate.Basic

/-!
# Predicates that accept everything or nothing

Two tests that look at the shape of a predicate and at no bytes. `admitsAll` is meant to hold only
of predicates that accept every byte string of their size, and `admitsNone` only of those that
accept none. Both may miss predicates: nothing is known of a custom leaf, and a tagged choice is
never taken to accept everything.
-/

namespace BitValidity

variable {κ : Type}

/-- The range goes from the least integer of the width to the greatest. Bytes of its ends above the
width do not count. -/
def IntRange.coversDomain (r : IntRange) (width : IntWidth) (signed : Bool) : Bool :=
  let mask := byteMask width.bytes
  let least := if signed then (mask >>> 1) + 1 else 0
  let greatest := if signed then mask >>> 1 else mask
  r.first &&& mask == least && r.last &&& mask == greatest

namespace Predicate

/-! ### Everything -/

mutual

/-- The predicate adds no constraint, by its shape. -/
def admitsAll : Predicate κ → Bool
  | allValid _ _ => true
  | noneValid _ _ => false
  -- all bytes of an empty string are zero
  | nonZero _ _ _ => false
  | intRanges width signed ranges _ => ranges.any (·.coversDomain width signed)
  | custom _ _ _ => false
  | allOf _ _ fields none => fieldsAdmitAll fields
  | allOf _ _ _ (some _) => false
  | oneOf _ _ _ _ _ _ => false
  | passthrough _ inner => inner.admitsAll

def fieldsAdmitAll : List (FieldCheck (Predicate κ)) → Bool
  | [] => true
  | field :: rest => field.predicate.admitsAll && fieldsAdmitAll rest

end

/-! ### Nothing -/

mutual

/-- The predicate can hold of no bytes, by its shape. An invariant is not looked at. -/
def admitsNone : Predicate κ → Bool
  | allValid _ _ => false
  | noneValid _ _ => true
  | nonZero size _ _ => size == 0
  | intRanges _ _ ranges _ => ranges.isEmpty
  | custom _ _ _ => false
  | allOf _ _ fields _ => someFieldAdmitsNone fields
  | oneOf _ _ _ _ _ variants => variantsAdmitNone variants
  | passthrough _ inner => inner.admitsNone

def someFieldAdmitsNone : List (FieldCheck (Predicate κ)) → Bool
  | [] => false
  | field :: rest => field.predicate.admitsNone || someFieldAdmitsNone rest

def variantsAdmitNone : List (VariantCheck (Predicate κ)) → Bool
  | [] => true
  | variant :: rest => variant.payload.admitsNone && variantsAdmitNone rest

end

@[simp] theorem fieldsAdmitAll_eq (fields : List (FieldCheck (Predicate κ))) :
    fieldsAdmitAll fields = fields.all fun field => field.predicate.admitsAll := by
  induction fields with
  | nil => rfl
  | cons field rest ih => simp [fieldsAdmitAll, ih]

@[simp] theorem someFieldAdmitsNone_eq (fields : List (FieldCheck (Predicate κ))) :
    someFieldAdmitsNone fields = fields.any fun field => field.predicate.admitsNone := by
  induction fields with
  | nil => rfl
  | cons field rest ih => simp [someFieldAdmitsNone, ih]

@[simp] theorem variantsAdmitNone_eq (variants : List (VariantCheck (Predicate κ))) :
    variantsAdmitNone variants = variants.all fun variant => variant.payload.admitsNone := by
  induction variants with
  | nil => rfl
  | cons variant rest ih => simp [variantsAdmitNone, ih]

end Predicate

end BitValidity
