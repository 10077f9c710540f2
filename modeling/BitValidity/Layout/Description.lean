import BitValidity.Predicate.Basic
import BitValidity.TypeId

/-!
# Descriptions of composite types

A composite is described by its parts: the fields of an aggregate, the tag and variants of a tagged
union, the tag of an enumeration. What a description leaves out (offsets, sizes, alignments,
discriminants) is computed when its layout is derived.
-/

namespace BitValidity

/-- A part of a composite. An offset counts from the start of the whole value. -/
structure Field where
  /-- For diagnostics only. -/
  name : String
  type : TypeId
  offset? : Option UInt64

/-- How an aggregate represents its fields. -/
inductive Representation where
  /-- In their order, each where it is aligned first. -/
  | sequential
  /-- As its only field that is not empty. -/
  | transparent
  /-- Without alignment. There is no model of this. -/
  | packed
  deriving DecidableEq

/-- A sequence of fields. -/
structure Aggregate (κ : Type) where
  name : String
  representation : Representation
  fields : List Field
  /-- Raises the alignment and never lowers it. -/
  alignment? : Option UInt64
  /-- The size of the whole; what lies behind the last field is padding. -/
  size? : Option UInt64
  /-- Checked of the whole value, after every field. -/
  invariant? : Option (Predicate κ)

/-- An integer that tells variants apart. -/
structure Tag where
  width : UInt32
  signed : Bool
  offset : UInt64
  deriving DecidableEq

/-- One byte without a sign, at the start. -/
def Tag.standard : Tag := ⟨1, false, 0⟩

structure Variant where
  name : String
  /-- If there is none, one more than that of the variant before, or zero for the first. -/
  discriminant? : Option Int64
  fields : List Field

/-- A tag, followed by the fields of one of the variants. -/
structure TaggedUnion where
  name : String
  tag : Tag
  variants : List Variant
  alignment? : Option UInt64
  size? : Option UInt64

/-- A tag alone. Its values are the discriminants. -/
structure Enumeration where
  name : String
  tag : Tag
  discriminants : List (Option Int64)

end BitValidity
