import BitValidity.Registry.History

/-!
# What recorded proofs rest on

A proof for an aggregate is derived from the proofs that are recorded of the types of its fields,
and does not say how those were found. All other derived proofs are found from a description or a
fact alone, and an assertion is the word of a caller. The registry keeps no trace of this, but the
run that led to it tells what was recorded and what was consulted for it, and so on which assertions
a proof rests in the end.
-/

namespace BitValidity

variable {κ : Type}

/-! ### Premises -/

/-- The types of the fields that have bytes. Of an empty field the derivation looks at the fact. -/
def Aggregate.occupiedTypes (r : Registry κ) (a : Aggregate κ) : List TypeId :=
  (a.fields.map (·.type)).filter fun type => (r.fact? type).any (·.size != 0)

/-- The types whose recorded proofs a derivation from the description consults. -/
def Description.premises (r : Registry κ) : Description κ → List TypeId
  | aggregate a => a.occupiedTypes r
  | leaf _ | taggedUnion _ | enumeration _ => []

namespace Operation

/-- The type of which an operation can record a proof. -/
def provenType? : Operation κ → Option TypeId
  | define type _ _ | proveNicheless type | assertNicheless type _ => some type
  | _ => none

/-- The types whose recorded proofs an operation consults. -/
def premises (r : Registry κ) : Operation κ → List TypeId
  | define _ description _ => description.premises r
  | _ => []

end Operation

/-! ### Recordings -/

/-- That a proof was recorded of a type for the first time, and what was consulted for it. -/
structure Recording where
  type : TypeId
  origin : ProofOrigin
  premises : List TypeId
  deriving DecidableEq

/-- What an operation records when it leads from one registry to the other. -/
def Operation.recording? (r r' : Registry κ) (op : Operation κ) : Option Recording := do
  let type ← op.provenType?
  if r.isNicheless type then none
  else
    let proof ← r'.proof? type
    return ⟨type, proof.origin, op.premises r⟩

/-- What is recorded by operations performed one after the other, in this order. -/
def Registry.recordings [Check κ] [DecidableEq κ] (r : Registry κ) :
    List (Operation κ) → List Recording
  | [] => []
  | op :: rest => (op.recording? r (r.after op)).toList ++ (r.after op).recordings rest

/-- The proof of a type rests on the assertion of another, or of the type itself. -/
inductive RestsOn (recordings : List Recording) : TypeId → TypeId → Prop where
  | asserted {recording : Recording} (h : recording ∈ recordings)
      (horigin : recording.origin = .asserted) :
      RestsOn recordings recording.type recording.type
  | consulted {recording : Recording} {premise root : TypeId} (h : recording ∈ recordings)
      (hpremise : premise ∈ recording.premises) (hroot : RestsOn recordings premise root) :
      RestsOn recordings recording.type root

end BitValidity
