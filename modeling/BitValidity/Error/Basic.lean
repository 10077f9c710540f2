import BitValidity.Breach
import BitValidity.Error.Cause

/-!
# Errors

An error is a cause with the notes that were added on its way to the caller. Its kind, message and
violation are read off the cause. Two errors are equal when all that a reader sees of them is equal:
the causes may differ.
-/

namespace BitValidity

inductive ErrorKind where
  /-- A fact was asked for of a type that has none. -/
  | unknownType
  /-- A type already has a different fact. -/
  | duplicateFact
  /-- A type could not be shown to accept every bit pattern. -/
  | notNicheless
  /-- A value was rejected by the validity of the type it should become. -/
  | invalidBitPattern
  | layoutMismatch
  | unsupportedLayout
  | registryFrozen
  /-- No universe was declared for a pair of types. -/
  | notInUniverse
  deriving DecidableEq, Inhabited

namespace ErrorKind

def name : ErrorKind → String
  | unknownType => "unknown type"
  | duplicateFact => "duplicate layout fact"
  | notNicheless => "not nicheless"
  | invalidBitPattern => "invalid bit pattern"
  | layoutMismatch => "layout mismatch"
  | unsupportedLayout => "unsupported layout"
  | registryFrozen => "registry frozen"
  | notInUniverse => "not in universe"

/-- Kinds are numbered from zero. -/
def ofCode? : Nat → Option ErrorKind
  | 0 => some unknownType
  | 1 => some duplicateFact
  | 2 => some notNicheless
  | 3 => some invalidBitPattern
  | 4 => some layoutMismatch
  | 5 => some unsupportedLayout
  | 6 => some registryFrozen
  | 7 => some notInUniverse
  | _ => none

def nameOfCode (code : Nat) : String := ((ofCode? code).map name).getD "unknown error"

end ErrorKind

/-! ### Causes -/

/-- Why an operation was refused. -/
inductive Cause where
  | unknownType (name : String)
  | duplicateFact (name : String)
  | notNicheless (name : String) (obstacle : Obstacle)
  | invalidBitPattern (source target : String) (violation : Violation) (maxBytes : Nat)
  | layoutMismatch (fault : LayoutFault)
  | unsupportedLayout (reason : Unsupported)
  | registryFrozen (write : FrozenWrite)
  | notInUniverse (universeName typeName : String)
  deriving DecidableEq

namespace Cause

def kind : Cause → ErrorKind
  | unknownType _ => .unknownType
  | duplicateFact _ => .duplicateFact
  | notNicheless .. => .notNicheless
  | invalidBitPattern .. => .invalidBitPattern
  | layoutMismatch _ => .layoutMismatch
  | unsupportedLayout _ => .unsupportedLayout
  | registryFrozen _ => .registryFrozen
  | notInUniverse .. => .notInUniverse

def message : Cause → String
  | unknownType name => s!"no layout fact registered for {name}"
  | duplicateFact name =>
    s!"conflicting layout fact for {name}; a different fact is already registered"
  | notNicheless name obstacle => s!"cannot prove {name} is nicheless: {obstacle.message}"
  | invalidBitPattern source target violation maxBytes =>
    s!"failed to convert {source} into {target}; {violation.text maxBytes}"
  | layoutMismatch fault => fault.message
  | unsupportedLayout reason => reason.message
  | registryFrozen write => s!"{write.message} after the layout registry was frozen"
  | notInUniverse universeName typeName =>
    s!"{universeName} is not a declared universe of {typeName}"

def violation? : Cause → Option Violation
  | invalidBitPattern _ _ violation _ => some violation
  | _ => none

end Cause

/-! ### Notes -/

/-- What an error was needed for. -/
inductive Note where
  | requiredByField (field owner : String)
  | requiredForUniverse (universeName typeName : String)
  | registeringBuiltin (name : String)
  | uninhabitedAssertion
  | described (text : String)
  deriving DecidableEq

def Note.text : Note → String
  | requiredByField field owner => s!"required by field {field} of {owner}"
  | requiredForUniverse universeName typeName =>
    s!"required to declare {universeName} as a universe of {typeName}"
  | registeringBuiltin name => s!"while registering builtin {name}"
  | uninhabitedAssertion => "uninhabited types cannot be asserted"
  | described text => text

/-! ### Errors -/

/-- A refusal, with notes in the order in which they were added. -/
structure Error where
  cause : Cause
  notes : List Note

namespace Error

def ofCause (cause : Cause) : Error := ⟨cause, []⟩

def withNote (e : Error) (note : Note) : Error := { e with notes := e.notes ++ [note] }

def kind (e : Error) : ErrorKind := e.cause.kind

def message (e : Error) : String := e.cause.message

def violation? (e : Error) : Option Violation := e.cause.violation?

/-- The message, and a line for each note. -/
def text (e : Error) : String :=
  e.notes.foldl (fun text note => text ++ "\nnote: " ++ note.text) e.message

/-- The text of an error that is thrown by a caller who cannot return it. -/
def thrown (e : Error) : String := thrownText e.text

/-- All that a reader sees of an error. -/
def view (e : Error) : ErrorKind × String × Option Violation × List String :=
  (e.kind, e.message, e.violation?, e.notes.map (·.text))

instance : BEq Error where
  beq a b := a.view == b.view

@[simp] theorem kind_withNote (e : Error) (note : Note) : (e.withNote note).kind = e.kind := rfl

@[simp] theorem message_withNote (e : Error) (note : Note) :
    (e.withNote note).message = e.message := rfl

/-! ### Constructors -/

def unknownType (name : String) : Error := ofCause (.unknownType name)

def duplicateFact (name : String) : Error := ofCause (.duplicateFact name)

def notNicheless (name : String) (obstacle : Obstacle) : Error :=
  ofCause (.notNicheless name obstacle)

def invalidBitPattern (source target : String) (violation : Violation) (maxBytes : Nat) : Error :=
  ofCause (.invalidBitPattern source target violation maxBytes)

def layoutMismatch (fault : LayoutFault) : Error := ofCause (.layoutMismatch fault)

def unsupportedLayout (reason : Unsupported) : Error := ofCause (.unsupportedLayout reason)

def registryFrozen (write : FrozenWrite) : Error := ofCause (.registryFrozen write)

def notInUniverse (universeName typeName : String) : Error :=
  ofCause (.notInUniverse universeName typeName)

end Error

/-! ### Failures -/

/-- An operation fails with an error for its caller, or on a broken precondition. -/
inductive Failure where
  | error (e : Error)
  | breach (b : Breach)

instance : MonadLift (Except Error) (Except Failure) where
  monadLift
    | .ok a => .ok a
    | .error e => .error (.error e)

instance : MonadLift (Except Breach) (Except Failure) where
  monadLift
    | .ok a => .ok a
    | .error b => .error (.breach b)

end BitValidity
