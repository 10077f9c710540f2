import BitValidity.Breach
import BitValidity.Host.Type

/-!
# Values of the host

A value of the host is the bytes of its storage. Nothing is said here about which bytes are valid: a
`HostValue` of a type is what a reinterpreting cast makes of any storage of the right size.
-/

namespace BitValidity

/-- Storage of the size of a type. -/
structure HostValue (t : HostType) where
  bytes : Bytes
  length_eq : bytes.length = t.size.toNat

namespace HostValue

variable {t u : HostType}

def zeroed (t : HostType) : HostValue t := ⟨List.replicate t.size.toNat 0, by simp⟩

/-- The same bytes as a value of a type of the same size. -/
def reinterpret (v : HostValue t) (h : t.size = u.size) : HostValue u :=
  ⟨v.bytes, h ▸ v.length_eq⟩

/-- Copies bytes, which must be as many as the type has. -/
def ofBytes (t : HostType) (bytes : Bytes) : Except InternalError (HostValue t) :=
  if h : bytes.length = t.size.toNat then .ok ⟨bytes, h⟩
  else .error (.storageLength t.size bytes.length)

end HostValue

/-! ### Integers -/

/-- The values of an integer type. -/
abbrev IntType.Value (i : IntType) := BitVec (8 * i.width.bytes)

/-- The number that a value stands for. -/
def IntType.toInt (i : IntType) (value : i.Value) : Int :=
  if i.signed then value.toInt else value.toNat

/-- How an integer is stored. -/
def IntType.store (i : IntType) (value : i.Value) : HostValue (.int i) :=
  ⟨LittleEndian.encode i.width.bytes value.toNat, by simp [HostType.size]⟩

/-! ### Storage for values that may be invalid -/

/-- Storage of a type that may hold any bit pattern. -/
abbrev MaybeInvalid (t : HostType) := HostValue (.maybeInvalid t)

namespace MaybeInvalid

variable {t : HostType}

/-- Keeps a value. -/
def ofValue (v : HostValue t) : MaybeInvalid t := v.reinterpret rfl

def zeroed (t : HostType) : MaybeInvalid t := HostValue.zeroed _

def ofBytes (t : HostType) (bytes : Bytes) : Except InternalError (MaybeInvalid t) :=
  HostValue.ofBytes _ bytes

/-- The value, if the caller is right that it is one. -/
def assumeValid (v : MaybeInvalid t) : HostValue t := v.reinterpret rfl

/-- The value, of a type of which every bit pattern is one. -/
def get (v : MaybeInvalid t) (_ : t.isNicheless) : HostValue t := v.reinterpret rfl

end MaybeInvalid

end BitValidity
