import BitValidity.Storage
import BitValidity.Violation

/-!
# What can be wrong

Every refusal of the library has a cause: a description that no storage can have (`LayoutFault`), a
representation that is not supported (`Unsupported`), a reason why a type cannot be shown to accept
every bit pattern (`Obstacle`), or a write after the registry was frozen (`FrozenWrite`). The
wording of each stands in one function. Each sort of cause is open to callers who describe one in
their own words (`described`).
-/

namespace BitValidity

/-! ### Layouts that contradict themselves -/

/-- A disagreement in the description of a type's storage. -/
inductive LayoutFault where
  | missingPredicate (name : String)
  | predicateSize (name : String) (covered size : UInt64)
  | factAlignment (name : String) (alignment : UInt64)
  | universeStorage (universeName : String) (universeStorage : Storage) (typeName : String)
      (typeStorage : Storage)
  | expectedStorage (name : String) (derived expected : Storage)
  | boundStorage (name : String) (registered bound : Storage)
  | misalignedField (field owner : String) (offset alignment : UInt64)
  | overlap (first second owner : String) (offset : UInt64)
  | requestedAlignment (owner : String) (requested : UInt64)
  | fieldPastEnd (field owner : String) (size offset total : UInt64)
  | declaredSize (owner : String) (declared required alignment : UInt64)
  | invariantSize (owner : String) (covered size : UInt64)
  | transparentOffset (field owner : String)
  | transparentMarker (field owner : String) (alignment : UInt64)
  | transparentFields (owner : String) (found : Nat)
  | transparentSize (owner : String) (declared : UInt64) (field : String) (size : UInt64)
  | misalignedTag (owner : String) (offset : UInt64) (width : UInt32)
  | discriminantOverflow (index : Nat) (owner : String)
  | discriminantRange (value : Int64) (index : Nat) (owner : String) (width : UInt32)
      (signed : Bool)
  | duplicateDiscriminant (value : Int64) (index : Nat) (owner : String)
  | enumerationOffset (owner : String)
  | described (text : String)
  deriving DecidableEq

def LayoutFault.message : LayoutFault → String
  | missingPredicate name => s!"layout fact for {name} has no validity predicate"
  | predicateSize name covered size =>
    s!"validity predicate of {name} covers {covered} bytes, but the type is {size} bytes"
  | factAlignment name alignment => s!"alignment of {name} must be a power of two, got {alignment}"
  | universeStorage universeName u typeName t =>
    s!"{universeName} ({u.text}) cannot be a universe of {typeName} ({t.text})"
  | expectedStorage name derived expected =>
    s!"{name} is described with {derived.text}, but the C++ type has {expected.text}"
  | boundStorage name registered bound =>
    s!"{name} is registered with {registered.text}, but the C++ type has {bound.text}"
  | misalignedField field owner offset alignment =>
    s!"field {field} of {owner} at offset {offset} is not aligned to {alignment}"
  | overlap first second owner offset =>
    s!"{first} and {second} of {owner} overlap at byte {offset}"
  | requestedAlignment owner requested => s!"align({requested}) of {owner} is not a power of two"
  | fieldPastEnd field owner size offset total =>
    s!"field {field} of {owner} ({size} bytes at offset {offset}) exceeds its size of {total} bytes"
  | declaredSize owner declared required alignment =>
    s!"size {declared} of {owner} must cover {required} bytes and be a multiple of its alignment " ++
      s!"{alignment}"
  | invariantSize owner covered size =>
    s!"invariant of {owner} covers {covered} bytes, but the type is {size} bytes"
  | transparentOffset field owner =>
    s!"field {field} of transparent wrapper {owner} must be at offset 0"
  | transparentMarker field owner alignment =>
    s!"zero-sized field {field} of transparent wrapper {owner} has alignment {alignment}"
  | transparentFields owner found =>
    s!"transparent wrapper {owner} must have exactly one non-zero-sized field, found {found}"
  | transparentSize owner declared field size =>
    s!"transparent wrapper {owner} declares size {declared}, but {field} is {size} bytes"
  | misalignedTag owner offset width =>
    s!"tag of {owner} at offset {offset} is not aligned to {width}"
  | discriminantOverflow index owner =>
    s!"implicit discriminant of variant #{index} of {owner} overflows"
  | discriminantRange value index owner width signed =>
    let sign := if signed then "signed" else "unsigned"
    s!"discriminant {value} of variant #{index} of {owner} does not fit a {width}-byte {sign} tag"
  | duplicateDiscriminant value index owner =>
    s!"discriminant {value} of variant #{index} of {owner} is already in use"
  | enumerationOffset owner =>
    s!"enumeration {owner} is a bare tag and must start at offset 0"
  | described text => text

/-! ### Representations that are not supported -/

inductive Unsupported where
  | packed (owner : String)
  | transparentAlignment (owner : String) (requested : UInt64)
  | transparentInvariant (owner : String)
  | tagWidth (owner : String) (width : UInt32)
  | described (text : String)
  deriving DecidableEq

def Unsupported.message : Unsupported → String
  | packed owner => s!"{owner} uses a packed representation, which cannot be modeled"
  | transparentAlignment owner requested =>
    s!"transparent wrapper {owner} cannot request align({requested})"
  | transparentInvariant owner =>
    s!"transparent wrapper {owner} cannot carry a whole-value invariant"
  | tagWidth owner width =>
    s!"tag of {owner} is {width} bytes wide; supported widths are 1, 2, 4 and 8"
  | described text => text

/-! ### Obstacles to a proof that every bit pattern is a value -/

inductive Obstacle where
  | uninhabited
  /-- The predicate is not one that is seen to accept everything. -/
  | constrained
  | invariant
  | emptyField (field : String)
  | constrainedField (field type : String)
  | taggedUnion
  | unusedTags
  | unjustified
  /-- A universe was declared without a proof. -/
  | unprovenUniverse
  | described (text : String)
  deriving DecidableEq

def Obstacle.message : Obstacle → String
  | uninhabited => "the type is uninhabited"
  | constrained => "its validity predicate rejects some bit patterns"
  | invariant => "a whole-value invariant constrains its fields"
  | emptyField field => s!"zero-sized field {field} has no valid value"
  | constrainedField field type => s!"field {field} of type {type} is not nicheless"
  | taggedUnion => "tagged unions reserve every tag value without a variant"
  | unusedTags => "tag values without a discriminant are niches"
  | unjustified => "an asserted proof needs a written justification"
  | unprovenUniverse => "a universe must accept every bit pattern of its size"
  | described text => text

/-! ### Writes to a frozen registry -/

inductive FrozenWrite where
  | declaring (name : String)
  | registering (name : String)
  | recordingProof (name : String)
  | declaringUniverse (universeName typeName : String)
  | described (text : String)
  deriving DecidableEq

def FrozenWrite.message : FrozenWrite → String
  | declaring name => s!"declaring type {name}"
  | registering name => s!"registering layout fact for {name}"
  | recordingProof name => s!"recording nicheless proof for {name}"
  | declaringUniverse universeName typeName =>
    s!"declaring {universeName} as a universe of {typeName}"
  | described text => text

end BitValidity
