import BitValidity.Layout.Placement

/-!
# Layout of aggregates

A sequential aggregate places its fields one behind the other and is valid when all of them are. A
transparent one has the layout of its only field that is not empty, and the empty ones must have a
value, or the whole has none.
-/

namespace BitValidity

variable {κ : Type}

/-- The fields of an aggregate at their offsets, and the fact of the whole. -/
structure AggregateLayout (κ : Type) where
  fields : List (PlacedField κ)
  fact : LayoutFact κ

namespace Aggregate

/-! ### Sequential aggregates -/

/-- The invariant, which must be about the whole value. -/
def checkInvariant (a : Aggregate κ) (size : UInt64) : Except Error Unit :=
  match a.invariant? with
  | none => .ok ()
  | some invariant =>
    if invariant.size ≠ size then
      .error (.layoutMismatch (.invariantSize a.name invariant.size size))
    else .ok ()

def sequentialLayout (r : Registry κ) (a : Aggregate κ) :
    Except Failure (AggregateLayout κ) := do
  let fields ← placeFields r a.name a.fields 0
  checkOverlap a.name (fields.map (·.extent))
  let alignment ← resolveAlignment a.name a.alignment? (strictestAlignment 1 fields)
  let size ← resolveSize a.name a.size? (lastStop 0 fields) alignment fields
  a.checkInvariant size
  return ⟨fields, ⟨⟨size, alignment⟩, a.name,
    .allOf size a.name (fields.map (·.check)) a.invariant?⟩⟩

/-! ### Transparent aggregates -/

/-- Puts every field at the start. -/
def placeTransparent (r : Registry κ) (owner : String) :
    List Field → Except Error (List (PlacedField κ))
  | [] => .ok []
  | field :: rest => do
    let fact ← r.fieldFact owner field
    if field.offset?.getD 0 ≠ 0 then
      .error (.layoutMismatch (.transparentOffset field.name owner))
    else if fact.size = 0 ∧ fact.alignment ≠ 1 then
      .error (.layoutMismatch (.transparentMarker field.name owner fact.alignment))
    else return ⟨field, fact, 0⟩ :: (← placeTransparent r owner rest)

/-- The field whose layout a transparent aggregate has. -/
def innerField (owner : String) (fields : List (PlacedField κ)) : Except Error (PlacedField κ) :=
  match fields.filter (·.fact.size != 0) with
  | [inner] => .ok inner
  | others => .error (.layoutMismatch (.transparentFields owner others.length))

/-- A declared size must be the size there is. -/
def checkTransparentSize (a : Aggregate κ) (inner : PlacedField κ) : Except Error Unit :=
  match a.size? with
  | none => .ok ()
  | some declared =>
    if declared ≠ inner.fact.size then
      .error (.layoutMismatch
        (.transparentSize a.name declared inner.field.name inner.fact.size))
    else .ok ()

/-- The fields of a transparent aggregate, and the one among them that is not empty. -/
def transparentFields (r : Registry κ) (a : Aggregate κ) :
    Except Error (List (PlacedField κ) × PlacedField κ) :=
  match a.alignment?, a.invariant? with
  | some alignment, _ => .error (.unsupportedLayout (.transparentAlignment a.name alignment))
  | none, some _ => .error (.unsupportedLayout (.transparentInvariant a.name))
  | none, none => do
    let fields ← placeTransparent r a.name a.fields
    let inner ← innerField a.name fields
    a.checkTransparentSize inner
    return (fields, inner)

variable [Check κ]

def transparentLayout (r : Registry κ) (a : Aggregate κ) :
    Except Failure (AggregateLayout κ) := do
  let (fields, inner) ← a.transparentFields r
  let markers ← (fields.filter (·.fact.size == 0)).mapM (·.fact.hasEmptyValue)
  let validity :=
    if markers.all id then .passthrough a.name inner.fact.validity
    else .noneValid inner.fact.size a.name
  return ⟨fields, ⟨inner.fact.toStorage, a.name, validity⟩⟩

/-! ### Aggregates -/

def layout (r : Registry κ) (a : Aggregate κ) : Except Failure (AggregateLayout κ) :=
  match a.representation with
  | .sequential => a.sequentialLayout r
  | .transparent => a.transparentLayout r
  | .packed => .error (.error (.unsupportedLayout (.packed a.name)))

def layoutFact (r : Registry κ) (a : Aggregate κ) : Except Failure (LayoutFact κ) :=
  (a.layout r).map (·.fact)

end Aggregate

end BitValidity
