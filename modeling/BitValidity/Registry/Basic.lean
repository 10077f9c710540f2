import BitValidity.Error.Basic
import BitValidity.Host.Type
import BitValidity.LayoutFact
import BitValidity.TypeId

/-!
# Registries

A registry holds what is known of each type: a name, a layout fact, a proof that the type is
nicheless, and which types are universes of it. Facts, proofs and universes are written once and
stay; after the registry is frozen nothing can be written. An operation that writes answers with the
new registry or with an error, and then there is no new registry.
-/

namespace BitValidity

structure RegistryOptions where
  /-- Refuse to register a type again even when the fact is the same. -/
  strict : Bool
  /-- Bytes of a bit pattern that are shown in an error. -/
  maxDiagnosticBytes : Nat
  deriving DecidableEq

def RegistryOptions.standard : RegistryOptions := ⟨false, defaultDiagnosticBytes⟩

/-- What a registry knows of one type. -/
structure Entry (κ : Type) where
  name : String
  fact? : Option (LayoutFact κ)
  proof? : Option NichelessProof

structure Registry (κ : Type) where
  options : RegistryOptions
  frozen : Bool
  /-- By type identity. -/
  entries : List (Entry κ)
  /-- The identities of types of the host, in the order in which they became known. -/
  hostTypes : List (HostType × TypeId)
  /-- Pairs of a universe and its type, in the order in which they were declared first. -/
  universes : List (TypeId × TypeId)

variable {κ : Type}

namespace Registry

def empty (options : RegistryOptions) : Registry κ := ⟨options, false, [], [], []⟩

/-- The number of types that are known. -/
def size (r : Registry κ) : Nat := r.entries.length

def freeze (r : Registry κ) : Registry κ := { r with frozen := true }

/-! ### Entries -/

def entry? (r : Registry κ) (type : TypeId) : Option (Entry κ) :=
  if type.isValid then r.entries[type.value.toNat]? else none

def setEntry (r : Registry κ) (type : TypeId) (entry : Entry κ) : Registry κ :=
  { r with entries := r.entries.set type.value.toNat entry }

/-- Makes a type known, of which nothing but the name is known yet. -/
def allocate (r : Registry κ) (name : String) : TypeId × Registry κ :=
  (⟨UInt32.ofNat r.size⟩, { r with entries := r.entries ++ [⟨name, none, none⟩] })

/-- The name of the fact, else the name under which the type became known. -/
def nameOf (r : Registry κ) (type : TypeId) : String :=
  match r.entry? type with
  | some entry => entry.name
  | none => s!"type#{type.value}"

def fact? (r : Registry κ) (type : TypeId) : Option (LayoutFact κ) :=
  (r.entry? type).bind (·.fact?)

/-- The fact of a type that must have one. -/
def lookup (r : Registry κ) (type : TypeId) : Except Error (LayoutFact κ) :=
  match r.fact? type with
  | some fact => .ok fact
  | none => .error (.unknownType (r.nameOf type))

def proof? (r : Registry κ) (type : TypeId) : Option NichelessProof :=
  (r.entry? type).bind (·.proof?)

def isNicheless (r : Registry κ) (type : TypeId) : Bool := (r.proof? type).isSome

/-! ### Identities -/

/-- The identity of a type of the host, or the invalid one if it is not known. -/
def findHostType (r : Registry κ) (t : HostType) : TypeId :=
  (r.hostTypes.lookup t).getD .invalid

/-- The identity of a type of the host, which becomes known by its symbol when it is named for the
first time. A frozen registry learns nothing. -/
def intern (r : Registry κ) (t : HostType) : TypeId × Registry κ :=
  if r.frozen then (r.findHostType t, r)
  else
    match r.hostTypes.lookup t with
    | some type => (type, r)
    | none =>
      let (type, r) := r.allocate t.symbol
      (type, { r with hostTypes := r.hostTypes ++ [(t, type)] })

/-- Makes a type known that exists in descriptions only. -/
def declareType (r : Registry κ) (name : String) : Except Error (TypeId × Registry κ) :=
  if r.frozen then .error (.registryFrozen (.declaring name)) else .ok (r.allocate name)

/-! ### Facts and proofs -/

section

variable [DecidableEq κ]

/-- Gives a type its fact. A type that has one keeps it: the same fact again changes nothing, unless
the registry is strict. -/
def register (r : Registry κ) (type : TypeId) (draft : DraftFact κ) : Except Error (Registry κ) :=
  if r.frozen then .error (.registryFrozen (.registering draft.name)) else
  match r.entry? type, draft.validity? with
  | none, _ => .error (.unknownType draft.name)
  | some _, none => .error (.layoutMismatch (.missingPredicate draft.name))
  | some entry, some validity =>
    if validity.size ≠ draft.size then
      .error (.layoutMismatch (.predicateSize draft.name validity.size draft.size))
    else if !isPowerOfTwo draft.alignment then
      .error (.layoutMismatch (.factAlignment draft.name draft.alignment))
    else
      let fact : LayoutFact κ := ⟨draft.toStorage, draft.name, validity⟩
      match entry.fact? with
      | some known =>
        if r.options.strict || !known.agreesWith fact then .error (.duplicateFact known.name)
        else .ok r
      | none => .ok (r.setEntry type { entry with name := fact.name, fact? := some fact })

end

/-- Records that a type is nicheless. The first proof stays. -/
def recordProof (r : Registry κ) (type : TypeId) (proof : NichelessProof) :
    Except Error (Registry κ) :=
  if r.frozen then .error (.registryFrozen (.recordingProof (r.nameOf type))) else
  match r.entry? type with
  | some ⟨name, some fact, none⟩ => .ok (r.setEntry type ⟨name, some fact, some proof⟩)
  | some ⟨_, some _, some _⟩ => .ok r
  | some ⟨_, none, _⟩ | none => .error (.unknownType (r.nameOf type))

/-! ### Universes -/

/-- Declares that `source` is a universe of `target`: it accepts every bit pattern, and has the
storage of `target`. -/
def declareUniverse (r : Registry κ) (source target : TypeId) : Except Error (Registry κ) :=
  if r.frozen then
    .error (.registryFrozen (.declaringUniverse (r.nameOf source) (r.nameOf target)))
  else do
    let u ← r.lookup source
    let t ← r.lookup target
    if !r.isNicheless source then
      .error ((Error.notNicheless u.name .unprovenUniverse).withNote
        (.requiredForUniverse u.name t.name))
    else if u.toStorage ≠ t.toStorage then
      .error (.layoutMismatch (.universeStorage u.name u.toStorage t.name t.toStorage))
    else if r.universes.contains (source, target) then .ok r
    else .ok { r with universes := r.universes ++ [(source, target)] }

/-- Every nicheless type is a universe of itself, and for the rest declared pairs count. -/
def isUniverse (r : Registry κ) (source target : TypeId) : Bool :=
  (source == target && r.isNicheless target) || r.universes.contains (source, target)

/-- The universes of a type: itself if it is nicheless, then the declared ones in their order. -/
def universesOf (r : Registry κ) (type : TypeId) : List TypeId :=
  (if r.isNicheless type then [type] else []) ++
    (r.universes.filter fun p => p.2 == type && p.1 != type).map (·.1)

end Registry

end BitValidity
