import BitValidity.Layout.Description
import BitValidity.Registry.Basic

/-!
# Placement of fields

Fields go one behind the other, each at the next offset where it is aligned, unless the description
puts them somewhere. All sums are of 64-bit words and wrap.
-/

namespace BitValidity

variable {κ : Type}

/-- A field at its offset, with the fact of its type. -/
structure PlacedField (κ : Type) where
  field : Field
  fact : LayoutFact κ
  offset : UInt64

namespace PlacedField

/-- The offset behind the field. -/
def stop (p : PlacedField κ) : UInt64 := p.offset + p.fact.size

/-- The predicate of the field, where the field is. -/
def check (p : PlacedField κ) : FieldCheck (Predicate κ) := ⟨p.offset, p.fact.validity, p.field.name⟩

end PlacedField

/-- The fact of the type of a field. -/
def Registry.fieldFact (r : Registry κ) (owner : String) (field : Field) :
    Except Error (LayoutFact κ) :=
  (r.lookup field.type).mapError (·.withNote (.requiredByField field.name owner))

/-- The offset of a field: the one that is given, which must be aligned, or else the first aligned
one from `cursor` on. -/
def Field.place (field : Field) (owner : String) (alignment cursor : UInt64) :
    Except Failure UInt64 := do
  match field.offset? with
  | none => return roundUp cursor (← divisor alignment)
  | some offset =>
    if offset % (← divisor alignment) ≠ 0 then
      .error (.error (.layoutMismatch (.misalignedField field.name owner offset alignment)))
    else return offset

/-- Places fields from `cursor` on. -/
def placeFields (r : Registry κ) (owner : String) :
    List Field → UInt64 → Except Failure (List (PlacedField κ))
  | [], _ => .ok []
  | field :: rest, cursor => do
    let fact ← r.fieldFact owner field
    let offset ← field.place owner fact.alignment cursor
    let placed ← placeFields r owner rest (offset + fact.size)
    return ⟨field, fact, offset⟩ :: placed

/-- The strictest alignment of the fields, and `least` if none is stricter. -/
def strictestAlignment (least : UInt64) (fields : List (PlacedField κ)) : UInt64 :=
  fields.foldl (fun a p => max a p.fact.alignment) least

/-- The end of the field that ends last, and `least` if none ends behind that. -/
def lastStop (least : UInt64) (fields : List (PlacedField κ)) : UInt64 :=
  fields.foldl (fun stop p => max stop p.stop) least

/-! ### Overlap -/

/-- A stretch of bytes that something occupies. -/
structure Extent where
  offset : UInt64
  size : UInt64
  name : String

def PlacedField.extent (p : PlacedField κ) : Extent := ⟨p.offset, p.fact.size, p.field.name⟩

namespace Extent

/-- The first two neighbours of which the first reaches into the second. -/
def findOverlap : List Extent → Option (Extent × Extent)
  | a :: b :: rest =>
    if b.offset < a.offset + a.size then some (a, b) else findOverlap (b :: rest)
  | _ => none

/-- By their offsets; extents that begin together stay in their order. -/
def sort (extents : List Extent) : List Extent := extents.mergeSort fun a b => a.offset ≤ b.offset

end Extent

/-- Refuses extents of which two share a byte. -/
def checkOverlap (owner : String) (extents : List Extent) : Except Error Unit :=
  match Extent.findOverlap (Extent.sort (extents.filter (·.size != 0))) with
  | none => .ok ()
  | some (a, b) => .error (.layoutMismatch (.overlap a.name b.name owner b.offset))

/-! ### Alignment and size of the whole -/

/-- The natural alignment, raised to what is requested. -/
def resolveAlignment (owner : String) (requested? : Option UInt64) (natural : UInt64) :
    Except Error UInt64 :=
  match requested? with
  | none => .ok natural
  | some requested =>
    if isPowerOfTwo requested then .ok (max natural requested)
    else .error (.layoutMismatch (.requestedAlignment owner requested))

/-- The declared size, which must hold every field, or else the size that holds what is required. -/
def resolveSize (owner : String) (declared? : Option UInt64) (required alignment : UInt64)
    (fields : List (PlacedField κ)) : Except Failure UInt64 := do
  match declared? with
  | none => return roundUp required (← divisor alignment)
  | some declared =>
    match fields.find? (declared < ·.stop) with
    | some p =>
      .error (.error
        (.layoutMismatch (.fieldPastEnd p.field.name owner p.fact.size p.offset declared)))
    | none =>
      if declared < required ∨ declared % (← divisor alignment) ≠ 0 then
        .error (.error (.layoutMismatch (.declaredSize owner declared required alignment)))
      else return declared

end BitValidity
