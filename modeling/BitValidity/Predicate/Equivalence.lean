import BitValidity.Predicate.Basic

/-!
# Equivalent predicates

Two predicates are equivalent when they have the same shape. Descriptions and the names of fields
and variants are of no account; offsets, tags, ranges and the order of parts are. A custom leaf is
only equivalent to a leaf with the same check.
-/

namespace BitValidity

variable {κ : Type} [DecidableEq κ]

namespace Predicate

mutual

def equivalent : Predicate κ → Predicate κ → Bool
  | allValid size _, allValid size' _ => size == size'
  | noneValid size _, noneValid size' _ => size == size'
  | nonZero size _ pointer, nonZero size' _ pointer' => size == size' && pointer == pointer'
  | intRanges width signed ranges _, intRanges width' signed' ranges' _ =>
    width == width' && signed == signed' && ranges == ranges'
  | custom size _ check, custom size' _ check' => size == size' && check == check'
  | allOf size _ fields none, allOf size' _ fields' none =>
    size == size' && fieldsEquivalent fields fields'
  | allOf size _ fields (some invariant), allOf size' _ fields' (some invariant') =>
    size == size' && fieldsEquivalent fields fields' && equivalent invariant invariant'
  | oneOf size _ offset width signed variants, oneOf size' _ offset' width' signed' variants' =>
    size == size' && offset == offset' && width == width' && signed == signed' &&
      variantsEquivalent variants variants'
  | passthrough _ inner, passthrough _ inner' => equivalent inner inner'
  | _, _ => false

def fieldsEquivalent : List (FieldCheck (Predicate κ)) → List (FieldCheck (Predicate κ)) → Bool
  | [], [] => true
  | field :: rest, field' :: rest' =>
    field.offset == field'.offset && equivalent field.predicate field'.predicate &&
      fieldsEquivalent rest rest'
  | _, _ => false

def variantsEquivalent : List (VariantCheck (Predicate κ)) →
    List (VariantCheck (Predicate κ)) → Bool
  | [], [] => true
  | variant :: rest, variant' :: rest' =>
    variant.tag == variant'.tag && equivalent variant.payload variant'.payload &&
      variantsEquivalent rest rest'
  | _, _ => false

end

end Predicate

end BitValidity
