import BitValidity.Layout.Aggregate
import BitValidity.Layout.Enumeration
import BitValidity.Layout.TaggedUnion

/-!
# Deriving that a type is nicheless

That every bit pattern is a value can be derived from the description of a composite, or from the
registered fact of a type. A derivation writes nothing.

- An aggregate is nicheless when its fields are and it has no invariant.
- An enumeration is nicheless when every tag is in use.
- A tagged union is never taken to be nicheless.
- A registered type is nicheless when it has no bytes or its predicate admits everything by its
  shape.
- What has no value at all is not nicheless.
-/

namespace BitValidity

variable {κ : Type} [Check κ]

/-! ### Aggregates -/

namespace Aggregate

/-- Every field is nicheless, and an empty one has a value. -/
def checkFields (r : Registry κ) (owner : String) :
    List (PlacedField κ) → Except Failure Unit
  | [] => .ok ()
  | p :: rest => do
    if p.fact.size = 0 then
      if ← p.fact.hasEmptyValue then checkFields r owner rest
      else .error (.error (.notNicheless owner (.emptyField p.field.name)))
    else if r.isNicheless p.field.type then checkFields r owner rest
    else .error (.error (.notNicheless owner (.constrainedField p.field.name p.fact.name)))

omit [Check κ] in
/-- Why an aggregate is nicheless all of whose fields are. -/
def nichelessRule (a : Aggregate κ) (layout : AggregateLayout κ) : ProofRule :=
  if layout.fact.size = 0 then .zeroSized
  else
    match a.representation, layout.fields.find? (·.fact.size != 0) with
    | .transparent, some inner => .transparentOver inner.fact.name
    | _, _ => .everyField

def deriveNicheless (r : Registry κ) (a : Aggregate κ) : Except Failure NichelessProof := do
  let layout ← a.layout r
  if layout.fact.validity.admitsNone then
    .error (.error (.notNicheless a.name .uninhabited))
  else if a.invariant?.isSome then
    .error (.error (.notNicheless a.name .invariant))
  else
    checkFields r a.name layout.fields
    return .derived (a.nichelessRule layout)

end Aggregate

/-! ### Tagged unions and enumerations -/

omit [Check κ] in
def TaggedUnion.deriveNicheless (r : Registry κ) (u : TaggedUnion) :
    Except Failure NichelessProof := do
  let _ ← u.layoutFact r
  .error (.error (.notNicheless u.name .taggedUnion))

def Enumeration.deriveNicheless (e : Enumeration) : Except Error NichelessProof := do
  let fact : LayoutFact Empty ← e.layoutFact
  if fact.validity.admitsNone then .error (.notNicheless e.name .uninhabited)
  else if !fact.validity.admitsAll then .error (.notNicheless e.name .unusedTags)
  else return .derived .everyTag

/-! ### Registered types -/

namespace LayoutFact

/-- The type has no value, as far as that is seen from the shape of its predicate. -/
def isUninhabited (fact : LayoutFact κ) : Except Breach Bool :=
  if fact.validity.admitsNone then .ok true
  else if fact.size = 0 then fact.hasEmptyValue.map (!·)
  else .ok false

/-- From the fact alone. -/
def deriveNicheless (fact : LayoutFact κ) : Except Failure NichelessProof := do
  if ← fact.isUninhabited then
    .error (.error (.notNicheless fact.name .uninhabited))
  else if fact.size = 0 then return .derived .zeroSized
  else if !fact.validity.admitsAll then
    .error (.error (.notNicheless fact.name .constrained))
  else return .derived .everyPattern

end LayoutFact

/-- The proof that is recorded, or else one from the fact. -/
def Registry.deriveNicheless (r : Registry κ) (type : TypeId) : Except Failure NichelessProof :=
  match r.proof? type with
  | some proof => .ok proof
  | none => do (← r.lookup type).deriveNicheless

end BitValidity
