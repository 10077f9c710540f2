/-!
# Broken preconditions

Checking and loading have preconditions: a predicate is given as many bytes as it covers, an integer
is read inside its bytes. A caller that breaks one of them is told so by an `InternalError`. Where
the precondition is tested in wrapping arithmetic a broken one can go unnoticed, and bytes outside
the value are read; that outcome is `Breach.strayRead`, kept apart because nothing is known about
the bytes that are then seen. A division by zero is a breach as well: there is no result that it
could go on with.
-/

namespace BitValidity

/-- What reaches the handler of a thrown message: all of it up to the first null character. -/
def thrownText (text : String) : String := String.ofList (text.toList.takeWhile (· != '\x00'))

/-- A broken precondition that was noticed. -/
inductive InternalError where
  /-- An integer was to be read past the end of its bytes. -/
  | readPastEnd (offset width : UInt64) (available : Nat)
  /-- There are no integers of this many bytes. -/
  | unsupportedWidth (width : UInt64)
  /-- A leaf over an integer of a width that does not exist. -/
  | rangesWidth (width : UInt32)
  /-- A tagged choice over a tag of a width that does not exist. -/
  | tagWidth (width : UInt32)
  | customWithoutCheck
  /-- A predicate was given more or fewer bytes than it covers. -/
  | lengthMismatch (description : String) (expected : UInt64) (actual : Nat)
  /-- Storage was filled with more or fewer bytes than it has. -/
  | storageLength (expected : UInt64) (actual : Nat)
  deriving DecidableEq

namespace InternalError

/-- The operation whose precondition was broken. -/
def context : InternalError → String
  | readPastEnd .. | unsupportedWidth .. => "LoadUnsigned"
  | rangesWidth .. => "IntRanges"
  | tagWidth .. => "OneOf"
  | customWithoutCheck => "Custom"
  | lengthMismatch .. => "FindViolation"
  | storageLength .. => "MaybeInvalid::FromBytes"

def detail : InternalError → String
  | readPastEnd offset width available =>
    s!"read of {width} bytes at offset {offset} exceeds {available} byte value"
  | unsupportedWidth width => s!"unsupported integer width {width}"
  | rangesWidth width | tagWidth width => s!"integer width must be 1, 2, 4 or 8, got {width}"
  | customWithoutCheck => "custom predicate without a check"
  | lengthMismatch description expected actual =>
    s!"predicate for {description} expects {expected} bytes, got {actual}"
  | storageLength expected actual => s!"expected {expected} bytes, got {actual}"

def message (e : InternalError) : String :=
  thrownText s!"Internal error in {e.context}: {e.detail}"

end InternalError

/-- What a broken precondition leads to. -/
inductive Breach where
  /-- It was noticed. -/
  | internal (e : InternalError)
  /-- It went unnoticed: `size` bytes at `offset` were read of a value that does not hold them. -/
  | strayRead (offset size : UInt64) (available : Nat)
  /-- A number was to be divided by zero. -/
  | zeroDivisor
  deriving DecidableEq

end BitValidity
