/-!
# Type identities

A type is known to a registry by a dense index, given out in the order in which types become known.
-/

namespace BitValidity

structure TypeId where
  value : UInt32
  deriving DecidableEq

namespace TypeId

/-- The identity of no type. -/
def invalid : TypeId := ⟨4294967295⟩

def isValid (id : TypeId) : Bool := id != invalid

instance : LT TypeId where
  lt a b := a.value < b.value

instance (a b : TypeId) : Decidable (a < b) := inferInstanceAs (Decidable (a.value < b.value))

end TypeId

end BitValidity
