import BitValidity.Host.Registration

/-!
# Built-in types

The types that every program has. Every bit pattern of an integer, a floating-point number, a byte,
a character or a pointer to anything is a value; a boolean is zero or one, and is converted from an
integer of one byte; the unit has no bytes. With each integer type go the integers that are not
zero.
-/

namespace BitValidity

variable {κ : Type} [Check κ] [DecidableEq κ]

namespace Session

/-- Registers a type of which every bit pattern is a value. -/
def registerAllValid (t : HostType) (name : String) : Session κ Unit := do
  let _ ← registerLeaf t name (some (.allValid t.size name))

/-- Registers an integer type and the integers of it that are not zero. -/
def registerInteger (i : IntType) : Session κ Unit := do
  registerAllValid (.int i) i.name
  let _ ← registerNonZero i

/-- The built-in types of which every bit pattern is a value, but for the integers. -/
def plainTypes : List (HostType × String) :=
  [(.float, "float"), (.double, "double"), (.byte, "std::byte"), (.char, "char"),
    (.address, "void*")]

def registerBool : Session κ Unit := do
  let _ ← registerLeaf .bool "bool" (some (.intRanges .one false [⟨0, 0⟩, ⟨1, 1⟩] "bool"))
  let _ ← Universe.declare (.int ⟨.one, false⟩) .bool rfl

def registerUnit : Session κ Unit := do
  let _ ← defineHost .unit (.leaf ⟨⟨0, 1⟩, "Unit", some (.allValid 0 "Unit")⟩) none

/-- Registers every built-in type. To do so again changes nothing. -/
def registerBuiltins : Session κ Unit := do
  IntType.all.forM fun i => annotate (.registeringBuiltin i.name) (registerInteger i)
  plainTypes.forM fun (t, name) => annotate (.registeringBuiltin name) (registerAllValid t name)
  registerBool
  registerUnit

end Session

end BitValidity
