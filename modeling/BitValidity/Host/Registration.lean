import BitValidity.Host.Niche
import BitValidity.Host.Universe
import BitValidity.Registry.Definition

/-!
# Registering types of the host

A type of the host is registered under its own identity, and what is described must have the storage
that the type has.
-/

namespace BitValidity

variable {κ : Type} [Check κ] [DecidableEq κ]

namespace Session

/-- Defines a type of the host, and answers with its identity. -/
def defineHost (t : HostType) (description : Description κ) (expected? : Option Storage) :
    Session κ TypeId := do
  let type ← idOf t
  let _ ← define type description expected?
  return type

/-- Registers a type by its predicate. -/
def registerLeaf (t : HostType) (name : String) (validity? : Option (Predicate κ)) :
    Session κ TypeId :=
  defineHost t (.leaf ⟨t.storage, name, validity?⟩) none

def defineAggregate (t : HostType) (a : Aggregate κ) : Session κ TypeId :=
  defineHost t (.aggregate a) (some t.storage)

def defineTransparent (t : HostType) (a : Aggregate κ) : Session κ TypeId :=
  defineAggregate t { a with representation := .transparent }

def defineTaggedUnion (t : HostType) (u : TaggedUnion) : Session κ TypeId :=
  defineHost t (.taggedUnion u) (some t.storage)

/-- Registers an enumeration that is stored as an integer and has the given values. -/
def registerEnumeration (enumeration name : String) (underlying : IntType)
    (values : List underlying.Value) : Session κ TypeId :=
  let tag : Tag := ⟨underlying.width.toUInt32, underlying.signed, 0⟩
  let discriminants := values.map fun v => some (Int64.ofInt (underlying.toInt v))
  defineHost (.enumeration enumeration underlying) (.enumeration ⟨name, tag, discriminants⟩)
    (some (HostType.enumeration enumeration underlying).storage)

/-- An array as an aggregate of its elements. -/
def arrayDescription (name : String) (element : TypeId) (count : Nat) : Aggregate κ where
  name := s!"{name}[{count}]"
  representation := .sequential
  fields := (List.range count).map fun i => ⟨s!"[{i}]", element, none⟩
  alignment? := none
  size? := none
  invariant? := none

def registerArray (element : HostType) (count : Nat) : Session κ TypeId := do
  let type ← idOf element
  let fact ← lookup type
  defineAggregate (.array element count) (arrayDescription fact.name type count)

/-! ### Types with a niche -/

/-- Registers the integers that are not zero, of which all the integers are a universe. -/
def registerNonZero (i : IntType) :
    Session κ (Universe κ (.int i) (.oneNiche (.nonZero i))) := do
  let base ← lookup (← idOf (.int i))
  let name := s!"NonZero<{base.name}>"
  let _ ← registerLeaf (.oneNiche (.nonZero i)) name
    (some (.nonZero i.width.toUInt64 name false))
  Universe.declare _ _ rfl

/-- Registers the pointers to something that are not null, of which all pointers to it are a
universe. -/
def registerNonNull (pointee name : String) :
    Session κ (Universe κ (.pointer pointee) (.oneNiche (.nonNull pointee))) := do
  let pointerName := s!"{name}*"
  let _ ← registerLeaf (.pointer pointee) pointerName
    (some (.allValid (HostType.pointer pointee).size pointerName))
  let nonNullName := s!"NonNull<{name}>"
  let _ ← registerLeaf (.oneNiche (.nonNull pointee)) nonNullName
    (some (.nonZero (HostType.pointer pointee).size nonNullName true))
  Universe.declare _ _ rfl

/-- Registers the option of a type that stores the absence of a value in the niche. -/
def registerNicheOption (x : OneNiche) :
    Session κ (Universe κ (.nicheOption x) (.oneNiche x)) := do
  let base ← lookup (← idOf (.oneNiche x))
  let name := s!"NicheOption<{base.name}>"
  let _ ← registerLeaf (.nicheOption x) name
    (some (.allValid (HostType.oneNiche x).size name))
  Universe.declare _ _ rfl

/-- Registers the storage of a type that may hold any bit pattern. -/
def registerMaybeInvalid (t : HostType) : Session κ (Universe κ (.maybeInvalid t) t) := do
  let base ← lookup (← idOf t)
  let name := s!"MaybeInvalid<{base.name}>"
  let _ ← registerLeaf (.maybeInvalid t) name (some (.allValid t.size name))
  Universe.declare _ _ rfl

end Session

end BitValidity
