import BitValidity.Layout.Discriminant
import BitValidity.LayoutFact

/-!
# Enumerations

An enumeration is an integer whose values are the discriminants. Values that follow each other are
gathered into ranges, so that the same values in another order have the same fact.
-/

namespace BitValidity

variable {κ : Type}

namespace IntRange

/-- The order of tags: that of the integers they stand for. -/
def tagLE (width : IntWidth) (signed : Bool) (a b : UInt64) : Bool :=
  if signed then signExtend a width.bytes ≤ signExtend b width.bytes else a ≤ b

/-- The tag that follows another, if the greatest is not followed by the least. -/
def follows (width : IntWidth) (signed : Bool) (a b : UInt64) : Bool :=
  let next := (a + 1) &&& byteMask width.bytes
  next == b && tagLE width signed a next

/-- Gathers tags in their order into ranges, after the range that is open. -/
def gatherFrom (width : IntWidth) (signed : Bool) (opened : IntRange) :
    List UInt64 → List IntRange
  | [] => [opened]
  | tag :: rest =>
    if follows width signed opened.last tag then
      gatherFrom width signed { opened with last := tag } rest
    else opened :: gatherFrom width signed ⟨tag, tag⟩ rest

/-- The ranges that hold exactly the given tags. -/
def gather (width : IntWidth) (signed : Bool) (tags : List UInt64) : List IntRange :=
  match tags.mergeSort (tagLE width signed) with
  | [] => []
  | tag :: rest => gatherFrom width signed ⟨tag, tag⟩ rest

end IntRange

namespace Enumeration

/-- The layout of an enumeration depends on no registry. -/
def layoutFact (e : Enumeration) : Except Error (LayoutFact κ) :=
  if e.tag.offset ≠ 0 then .error (.layoutMismatch (.enumerationOffset e.name))
  else do
    let width ← e.tag.checkedWidth e.name
    let tags ← resolveDiscriminants e.name e.tag e.discriminants
    return {
      size := width.toUInt64
      alignment := width.toUInt64
      name := e.name
      validity := .intRanges width e.tag.signed (IntRange.gather width e.tag.signed tags) e.name }

end Enumeration

end BitValidity
