import BitValidity.Layout.Nicheless
import BitValidity.Registry.Session

/-!
# Defining types

To define a type is to derive its fact, to register it, and to record a proof that the type is
nicheless if one can be derived. That no proof can be derived is no error.
-/

namespace BitValidity

variable {κ : Type} [Check κ] [DecidableEq κ]

/-- What a type can be defined by. -/
inductive Description (κ : Type) where
  | leaf (fact : DraftFact κ)
  | aggregate (a : Aggregate κ)
  | taggedUnion (u : TaggedUnion)
  | enumeration (e : Enumeration)

namespace Description

/-- The fact of a type that is defined so. A leaf brings its own. -/
def fact (r : Registry κ) : Description κ → Except Failure (DraftFact κ)
  | leaf fact => .ok fact
  | aggregate a => (a.layoutFact r).map (·.draft)
  | taggedUnion u => (u.layoutFact r).map (·.draft)
  | enumeration e => liftM (e.layoutFact.map fun fact : LayoutFact κ => fact.draft)

/-- The proof for a type that is defined so. That of a leaf is derived from what is registered. -/
def deriveNicheless (r : Registry κ) (type : TypeId) : Description κ → Except Failure NichelessProof
  | leaf _ => r.deriveNicheless type
  | aggregate a => a.deriveNicheless r
  | taggedUnion u => u.deriveNicheless r
  | enumeration e => liftM e.deriveNicheless

end Description

omit [Check κ] [DecidableEq κ] in
/-- The storage that a fact describes must be the storage that is expected. -/
def DraftFact.checkExpected (draft : DraftFact κ) : Option Storage → Except Error Unit
  | none => .ok ()
  | some expected =>
    if draft.toStorage ≠ expected then
      .error (.layoutMismatch (.expectedStorage draft.name draft.toStorage expected))
    else .ok ()

/-- An assertion is made of a type that may have values, and with a reason. -/
def LayoutFact.checkAssertion (fact : LayoutFact κ) (justification : String) :
    Except Failure Unit := do
  if justification.isEmpty then
    .error (.error (.notNicheless fact.name .unjustified))
  else if ← fact.isUninhabited then
    .error (.error ((Error.notNicheless fact.name .uninhabited).withNote .uninhabitedAssertion))
  else return ()

namespace Session

/-- Registers a fact that has the expected storage. The answer is the fact that the type then has.
-/
def registerChecked (type : TypeId) (draft : DraftFact κ) (expected? : Option Storage) :
    Session κ (LayoutFact κ) := do
  ask fun _ => draft.checkExpected expected?
  register type draft
  lookup type

/-- Records a proof if there is one. -/
def recordIfProven (type : TypeId) (derive : Registry κ → Except Failure NichelessProof) :
    Session κ Unit := fun r =>
  match derive r with
  | .ok proof => recordProof type proof r
  | .error (.error _) => (.ok (), r)
  | .error (.breach b) => (.error (.breach b), r)

/-- Defines a type. The answer is its fact, which is the one it had if it had one. -/
def define (type : TypeId) (description : Description κ) (expected? : Option Storage) :
    Session κ (LayoutFact κ) := do
  let draft ← read description.fact
  let fact ← registerChecked type draft expected?
  recordIfProven type fun r => description.deriveNicheless r type
  return fact

/-- Derives and records that a registered type is nicheless. -/
def proveNicheless (type : TypeId) : Session κ Unit := do
  let proof ← read (·.deriveNicheless type)
  recordProof type proof

/-- Records that a type is nicheless, by the word of the caller. -/
def assertNicheless (type : TypeId) (justification : String) : Session κ Unit := do
  let fact ← lookup type
  read fun _ => fact.checkAssertion justification
  recordProof type (.asserted justification)

end Session

end BitValidity
