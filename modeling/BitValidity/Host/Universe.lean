import BitValidity.Host.Value
import BitValidity.Registry.Session

/-!
# Universes

A universe of a type is a nicheless type of the same storage: any value of the universe may be
looked at as bytes that may or may not be a value of the type. A `Universe` is the evidence that a
registry holds such a pair. It is checked once; through it values of the universe are converted with
a check of their bytes, and values of the type without one.
-/

namespace BitValidity

variable {κ : Type}

/-- A pair of host types of which the first is a universe of the second, with their facts. -/
structure Universe (κ : Type) (u t : HostType) where
  source : LayoutFact κ
  target : LayoutFact κ
  maxDiagnosticBytes : Nat
  storage_eq : u.storage = t.storage

/-- A fact that is bound to a host type must describe its storage. An empty class may have a fact
without bytes. -/
def HostType.checkBinding (t : HostType) (fact : LayoutFact κ) : Except Error Unit :=
  if (fact.size = t.size ∨ (t.isEmpty ∧ fact.size = 0)) ∧ fact.alignment = t.alignment then .ok ()
  else .error (.layoutMismatch (.boundStorage fact.name fact.toStorage t.storage))

namespace Universe

variable {u t : HostType}

/-- The evidence for a pair that is known to be declared. -/
def ofRegistry (r : Registry κ) (source target : TypeId) (h : u.storage = t.storage) :
    Except Error (Universe κ u t) := do
  let sourceFact ← r.lookup source
  let targetFact ← r.lookup target
  u.checkBinding sourceFact
  t.checkBinding targetFact
  return ⟨sourceFact, targetFact, r.options.maxDiagnosticBytes, h⟩

/-- Declares that `u` is a universe of `t`. -/
def declare (u t : HostType) (h : u.storage = t.storage) : Session κ (Universe κ u t) := do
  let source ← Session.idOf u
  let target ← Session.idOf t
  Session.declareUniverse source target
  Session.ask fun r => ofRegistry r source target h

/-- The name of a host type in a registry, or its symbol if it is not known there. -/
def nameIn (r : Registry κ) (t : HostType) : String :=
  if (r.findHostType t).isValid then r.nameOf (r.findHostType t) else t.symbol

/-- The evidence for a pair that was declared before. -/
def lookup (r : Registry κ) (u t : HostType) (h : u.storage = t.storage) :
    Except Error (Universe κ u t) :=
  let source := r.findHostType u
  let target := r.findHostType t
  if source.isValid && target.isValid && r.isUniverse source target then
    ofRegistry r source target h
  else .error (.notInUniverse (nameIn r u) (nameIn r t))

section

variable [Check κ]

/-- Converts a value of the universe if its bytes are a value of the type. Only as many bytes are
checked as the fact has: of an empty class that can be none. -/
def checkedReinterpret (c : Universe κ u t) (v : HostValue u) : Except Failure (HostValue t) := do
  match ← c.target.validity.findViolation (v.bytes.take c.target.size.toNat) with
  | some violation =>
    .error (.error (.invalidBitPattern c.source.name c.target.name violation c.maxDiagnosticBytes))
  | none => return v.reinterpret (congrArg Storage.size c.storage_eq)

/-- Converts a value through a declared pair. -/
def reinterpretOnce (r : Registry κ) (t : HostType) (h : u.storage = t.storage)
    (v : HostValue u) : Except Failure (HostValue t) := do
  (← lookup r u t h).checkedReinterpret v

end

/-- Every value of the type is a value of the universe. -/
def widen (c : Universe κ u t) (v : HostValue t) : HostValue u :=
  v.reinterpret (congrArg Storage.size c.storage_eq).symm

end Universe

end BitValidity
