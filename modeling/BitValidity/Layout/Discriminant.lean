import BitValidity.Error.Basic
import BitValidity.Layout.Description
import BitValidity.Word

/-!
# Discriminants

The discriminants of a tag are given or follow from the one before. Resolved, each must be a value
of the tag and none may occur twice; what is stored in the tag is then the low bytes of each.
-/

namespace BitValidity

namespace Tag

/-- The width of the tag, if there are integers of that many bytes. -/
def checkedWidth (tag : Tag) (owner : String) : Except Error IntWidth :=
  match IntWidth.ofBytes? tag.width.toNat with
  | some width => .ok width
  | none => .error (.unsupportedLayout (.tagWidth owner tag.width))

end Tag

namespace Discriminant

/-- The least discriminant that a tag can hold. -/
def least (width : IntWidth) (signed : Bool) : Int64 :=
  if signed then -(byteMask width.bytes >>> 1).toInt64 - 1 else 0

/-- The greatest discriminant that a tag can hold. Discriminants have a sign, so a tag of eight
bytes can hold more values than there are discriminants for. -/
def greatest (width : IntWidth) (signed : Bool) : Int64 :=
  if signed then (byteMask width.bytes >>> 1).toInt64
  else if width = .eight then Int64.maxValue
  else (byteMask width.bytes).toInt64

/-- The value that a discriminant has if none is given, after one that has `value`. There is no such
value after the greatest of all. -/
def successor (value : Int64) : Option Int64 :=
  if value = Int64.maxValue then none else some (value + 1)

/-- The tag that stands for a discriminant. -/
def encode (width : IntWidth) (value : Int64) : UInt64 := value.toUInt64 &&& byteMask width.bytes

/-- Resolves the discriminants from the one at `index` on. The tags in `seen` are in use, and `next`
is the value of a discriminant that is not given. -/
def resolveFrom (owner : String) (width : IntWidth) (signed : Bool) :
    List (Option Int64) → Nat → Option Int64 → List UInt64 → Except Error (List UInt64)
  | [], _, _, _ => .ok []
  | given :: rest, index, next, seen =>
    match given.or next with
    | none => .error (.layoutMismatch (.discriminantOverflow index owner))
    | some value =>
      if value < least width signed ∨ greatest width signed < value then
        .error (.layoutMismatch
          (.discriminantRange value index owner width.toUInt32 signed))
      else if seen.contains (encode width value) then
        .error (.layoutMismatch (.duplicateDiscriminant value index owner))
      else
        (resolveFrom owner width signed rest (index + 1) (successor value)
          (encode width value :: seen)).map (encode width value :: ·)

end Discriminant

/-- The tags that stand for the discriminants, in their order. -/
def resolveDiscriminants (owner : String) (tag : Tag) (discriminants : List (Option Int64)) :
    Except Error (List UInt64) := do
  let width ← tag.checkedWidth owner
  Discriminant.resolveFrom owner width tag.signed discriminants 0 (some 0) []

end BitValidity
