import BitValidity.Breach
import BitValidity.Violation
import BitValidity.Word

/-!
# Validity predicates

A predicate says which byte strings of one size are values of a type. Leaves constrain the string
itself; `allOf` puts predicates side by side at offsets, `oneOf` lets a tag choose one of them, and
`passthrough` renames one. What a `custom` leaf accepts is up to the caller: its checks are the
elements of a type `κ` with a `Check` instance, and two custom leaves are alike exactly when they
hold the same element.

The constructors put no conditions on offsets. Where a field or tag lies outside the bytes the
predicate is not well-formed, and checking it breaches a precondition.
-/

namespace BitValidity

/-- A type of names for checks that a caller supplies. -/
class Check (κ : Type) where
  accepts : κ → Bytes → Bool

/-- An inclusive range of integers, by the raw words of its ends. How they compare is up to the leaf
that the range belongs to. -/
structure IntRange where
  first : UInt64
  last : UInt64
  deriving DecidableEq

/-- A predicate on the bytes from `offset` on. -/
structure FieldCheck (π : Type) where
  offset : UInt64
  predicate : π
  name : String

/-- A predicate on the whole value for one value of the tag. -/
structure VariantCheck (π : Type) where
  tag : UInt64
  payload : π
  name : String

inductive Predicate (κ : Type) where
  | allValid (size : UInt64) (description : String)
  | noneValid (size : UInt64) (description : String)
  /-- Some byte is not zero. A `pointer` that fails this is null. -/
  | nonZero (size : UInt64) (description : String) (pointer : Bool)
  /-- The integer that the bytes denote lies in one of the ranges. -/
  | intRanges (width : IntWidth) (signed : Bool) (ranges : List IntRange) (description : String)
  | custom (size : UInt64) (description : String) (check : κ)
  /-- Every field holds, and then the invariant. Bytes in no field are padding. -/
  | allOf (size : UInt64) (description : String) (fields : List (FieldCheck (Predicate κ)))
      (invariant : Option (Predicate κ))
  /-- The first variant that has the value of the tag holds. -/
  | oneOf (size : UInt64) (description : String) (tagOffset : UInt64) (tagWidth : IntWidth)
      (tagSigned : Bool) (variants : List (VariantCheck (Predicate κ)))
  | passthrough (description : String) (inner : Predicate κ)

variable {κ : Type}

namespace Predicate

/-- The number of bytes that the predicate is about. -/
def size : Predicate κ → UInt64
  | allValid size _ | noneValid size _ | nonZero size _ _ | custom size _ _ | allOf size _ _ _
  | oneOf size _ _ _ _ _ => size
  | intRanges width _ _ _ => width.toUInt64
  | passthrough _ inner => inner.size

/-- What the predicate constrains, in words. -/
def description : Predicate κ → String
  | allValid _ d | noneValid _ d | nonZero _ d _ | intRanges _ _ _ d | custom _ d _ | allOf _ d _ _
  | oneOf _ d _ _ _ _ | passthrough d _ => d

/-! ### Leaves -/

/-- A leaf that accepts everything, described as such. -/
def anyValue (size : UInt64) : Predicate κ := allValid size "any value"

/-- A leaf that accepts nothing, described as such. -/
def uninhabited (size : UInt64) : Predicate κ := noneValid size "uninhabited type"

/-- The width of an integer leaf or tag, if there are integers of that many bytes. -/
def checkedWidth (width : UInt32) (error : UInt32 → InternalError) :
    Except InternalError IntWidth :=
  match IntWidth.ofBytes? width.toNat with
  | some w => .ok w
  | none => .error (error width)

def intRanges? (width : UInt32) (signed : Bool) (ranges : List IntRange) (description : String) :
    Except InternalError (Predicate κ) :=
  (checkedWidth width .rangesWidth).map fun w => intRanges w signed ranges description

/-- Exactly the listed values. -/
def oneOfValues? (width : UInt32) (values : List UInt64) (description : String) :
    Except InternalError (Predicate κ) :=
  intRanges? width false (values.map fun v => ⟨v, v⟩) description

def custom? (size : UInt64) (description : String) : Option κ →
    Except InternalError (Predicate κ)
  | some check => .ok (custom size description check)
  | none => .error .customWithoutCheck

/-! ### Tagged choices -/

def oneOf? (size : UInt64) (description : String) (tagOffset : UInt64) (tagWidth : UInt32)
    (tagSigned : Bool) (variants : List (VariantCheck (Predicate κ))) :
    Except InternalError (Predicate κ) :=
  (checkedWidth tagWidth .tagWidth).map fun w =>
    oneOf size description tagOffset w tagSigned variants

/-! ### Induction -/

/-- Induction on a predicate, with a hypothesis for each predicate that it is made of. -/
@[elab_as_elim] theorem induct {P : Predicate κ → Prop}
    (allValid : ∀ size d, P (allValid size d))
    (noneValid : ∀ size d, P (noneValid size d))
    (nonZero : ∀ size d pointer, P (nonZero size d pointer))
    (intRanges : ∀ width signed ranges d, P (intRanges width signed ranges d))
    (custom : ∀ size d check, P (custom size d check))
    (allOf : ∀ size d fields invariant, (∀ f ∈ fields, P f.predicate) →
      (∀ p ∈ invariant, P p) → P (allOf size d fields invariant))
    (oneOf : ∀ size d offset width signed variants, (∀ v ∈ variants, P v.payload) →
      P (oneOf size d offset width signed variants))
    (passthrough : ∀ d inner, P inner → P (passthrough d inner))
    (p : Predicate κ) : P p := by
  refine @Predicate.rec κ P (fun fields => ∀ f ∈ fields, P f.predicate)
    (fun invariant => ∀ p ∈ invariant, P p) (fun variants => ∀ v ∈ variants, P v.payload)
    (fun f => P f.predicate) (fun v => P v.payload)
    allValid noneValid nonZero intRanges custom allOf oneOf passthrough ?_ ?_ ?_ ?_ ?_ ?_ ?_ ?_ p
  all_goals simp +contextual

end Predicate

end BitValidity
