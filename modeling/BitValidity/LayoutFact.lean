import BitValidity.Predicate.Check
import BitValidity.Predicate.Equivalence
import BitValidity.Predicate.Extremes
import BitValidity.Storage

/-!
# Layout facts

What is known of a type: its name, its storage, and which bytes are values of it. A type of which
every bit pattern is a value is *nicheless*; a proof of that records how it was established.
-/

namespace BitValidity

variable {κ : Type}

/-- What is known of the storage of a type. -/
structure LayoutFact (κ : Type) extends Storage where
  name : String
  validity : Predicate κ

/-- A fact as it is put forward. Nothing in it has been tested, and the predicate may be missing. -/
structure DraftFact (κ : Type) extends Storage where
  name : String
  validity? : Option (Predicate κ)

def LayoutFact.draft (fact : LayoutFact κ) : DraftFact κ where
  toStorage := fact.toStorage
  name := fact.name
  validity? := some fact.validity

namespace LayoutFact

section

variable [DecidableEq κ]

/-- The facts have the same storage and equivalent predicates. Their names do not matter. -/
def agreesWith (a b : LayoutFact κ) : Bool :=
  a.toStorage == b.toStorage && a.validity.equivalent b.validity

end

variable [Check κ]

/-- The type has no bytes, and having none it is a value. -/
def hasEmptyValue (fact : LayoutFact κ) : Except Breach Bool :=
  if fact.size = 0 then return (← fact.validity.findViolation []).isNone
  else return false

end LayoutFact

/-! ### Nichelessness -/

/-- How a type was found to be nicheless. -/
inductive ProofOrigin where
  /-- From the structure of the type. -/
  | derived
  /-- By the word of a caller. -/
  | asserted
  deriving DecidableEq

def ProofOrigin.name : ProofOrigin → String
  | derived => "derived"
  | asserted => "asserted"

/-- The rule by which a proof was derived. -/
inductive ProofRule where
  | zeroSized
  | everyField
  | transparentOver (inner : String)
  | everyTag
  | everyPattern
  deriving DecidableEq

def ProofRule.text : ProofRule → String
  | zeroSized => "zero-sized type"
  | everyField => "every field is nicheless"
  | transparentOver inner => s!"transparent wrapper over nicheless {inner}"
  | everyTag => "discriminants cover every tag value"
  | everyPattern => "validity predicate accepts every bit pattern"

/-- Evidence that every bit pattern is a value. -/
inductive NichelessProof where
  | derived (rule : ProofRule)
  | asserted (justification : String)
  deriving DecidableEq

namespace NichelessProof

def origin : NichelessProof → ProofOrigin
  | derived _ => .derived
  | asserted _ => .asserted

/-- The rule of a derived proof, or what was said for an asserted one. -/
def reason : NichelessProof → String
  | derived rule => rule.text
  | asserted justification => justification

end NichelessProof

end BitValidity
