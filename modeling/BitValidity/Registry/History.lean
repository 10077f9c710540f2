import BitValidity.Host.Builtins
import BitValidity.Layout.Fit
import BitValidity.Predicate.WellFormed

/-!
# Histories of a registry

The states of a registry are those that a run of operations leads to from an empty one. An operation
that fails is part of a run like any other; what it leaves behind is what its session leaves.

Conditions on a run are conditions on its operations, each in the state that it is performed in:
that predicates from outside are sound, that no placement wraps, that what is asserted is true.
-/

namespace BitValidity

variable {κ : Type}

/-! ### Operations -/

/-- An operation on types by their identity. -/
inductive Operation (κ : Type) where
  | idOf (t : HostType)
  | declareType (name : String)
  | register (type : TypeId) (draft : DraftFact κ)
  | define (type : TypeId) (description : Description κ) (expected? : Option Storage)
  | proveNicheless (type : TypeId)
  | assertNicheless (type : TypeId) (justification : String)
  | declareUniverse (source target : TypeId)
  | freeze

/-- An operation on types of the host. -/
inductive HostOperation (κ : Type) where
  | registerLeaf (t : HostType) (name : String) (validity? : Option (Predicate κ))
  | defineAggregate (t : HostType) (a : Aggregate κ)
  | defineTransparent (t : HostType) (a : Aggregate κ)
  | defineTaggedUnion (t : HostType) (u : TaggedUnion)
  | registerEnumeration (enumeration name : String) (underlying : IntType)
      (values : List underlying.Value)
  | registerArray (element : HostType) (count : Nat)
  | registerNonZero (i : IntType)
  | registerNonNull (pointee name : String)
  | registerNicheOption (x : OneNiche)
  | registerMaybeInvalid (t : HostType)
  | registerBuiltins
  | declareUniverse (u t : HostType) (h : u.storage = t.storage)

/-- An operation on types by their identity or on types of the host. -/
inductive Action (κ : Type) where
  | byIdentity (op : Operation κ)
  | onHost (op : HostOperation κ)

/-- The action is there to write. To ask for an identity is to read if the type is known, and a
registry may be frozen again. -/
def Action.writes : Action κ → Bool
  | byIdentity (.idOf _) | byIdentity .freeze => false
  | byIdentity _ | onHost _ => true

section

variable [Check κ] [DecidableEq κ]

/-- Performs an operation, for the sake of what it writes. -/
def Operation.perform : Operation κ → Session κ Unit
  | idOf t => discard (Session.idOf t)
  | declareType name => discard (Session.declareType name)
  | register type draft => Session.register type draft
  | define type description expected? => discard (Session.define type description expected?)
  | proveNicheless type => Session.proveNicheless type
  | assertNicheless type justification => Session.assertNicheless type justification
  | declareUniverse source target => Session.declareUniverse source target
  | freeze => Session.freeze

/-- Performs an operation, for the sake of what it writes. -/
def HostOperation.perform : HostOperation κ → Session κ Unit
  | registerLeaf t name validity? => discard (Session.registerLeaf t name validity?)
  | defineAggregate t a => discard (Session.defineAggregate t a)
  | defineTransparent t a => discard (Session.defineTransparent t a)
  | defineTaggedUnion t u => discard (Session.defineTaggedUnion t u)
  | registerEnumeration enumeration name underlying values =>
    discard (Session.registerEnumeration enumeration name underlying values)
  | registerArray element count => discard (Session.registerArray element count)
  | registerNonZero i => discard (Session.registerNonZero i)
  | registerNonNull pointee name => discard (Session.registerNonNull pointee name)
  | registerNicheOption x => discard (Session.registerNicheOption x)
  | registerMaybeInvalid t => discard (Session.registerMaybeInvalid t)
  | registerBuiltins => Session.registerBuiltins
  | declareUniverse u t h => discard (Universe.declare u t h)

/-- Performs an action, for the sake of what it writes. -/
def Action.perform : Action κ → Session κ Unit
  | byIdentity op => op.perform
  | onHost op => op.perform

/-! ### Runs -/

/-- The state that an operation leaves, whether it fails or not. -/
def Registry.after (r : Registry κ) (op : Operation κ) : Registry κ := (op.perform.run r).2

namespace Registry

/-- A run leads from one state to another, and each of its operations is allowed in the state that
it is performed in. -/
inductive Leads (Allowed : Registry κ → Operation κ → Prop) (start : Registry κ) :
    Registry κ → Prop where
  | refl : Leads Allowed start start
  | step {r : Registry κ} {op : Operation κ} :
      Leads Allowed start r → Allowed r op → Leads Allowed start (r.after op)

/-- The state is that of a registry after some allowed operations. -/
def ReachableBy (Allowed : Registry κ → Operation κ → Prop) (r : Registry κ) : Prop :=
  ∃ options, Leads Allowed (empty options) r

/-- The state is that of a registry after some operations. -/
def Reachable (r : Registry κ) : Prop := ReachableBy (fun _ _ => True) r

/-- The state that operations leave, performed one after the other. -/
def afterAll (r : Registry κ) (ops : List (Operation κ)) : Registry κ := ops.foldl after r

/-- The state that actions leave, performed one after the other. -/
def afterActions (r : Registry κ) (actions : List (Action κ)) : Registry κ :=
  actions.foldl (fun r action => (action.perform.run r).2) r

/-- The pair of a universe and its type that an operation declares, unless it is refused. -/
def declared? (r : Registry κ) : Operation κ → Option (TypeId × TypeId)
  | .declareUniverse source target =>
    if ((Session.declareUniverse source target).run r).1.isOk then some (source, target) else none
  | _ => none

/-- When the operations are performed one after the other, each is allowed in the state that it is
performed in. -/
def AllowsAll (Allowed : Registry κ → Operation κ → Prop) (r : Registry κ) :
    List (Operation κ) → Prop
  | [] => True
  | op :: rest => Allowed r op ∧ (r.after op).AllowsAll Allowed rest

/-- The type that an operation registers, with the fact that was given for it or derived, unless the
operation fails. -/
def registered? (r : Registry κ) : Operation κ → Option (TypeId × DraftFact κ)
  | .register type draft =>
    if ((Session.register type draft).run r).1.isOk then some (type, draft) else none
  | .define type description expected? =>
    if ((Session.define type description expected?).run r).1.isOk then
      (description.fact r).toOption.map (type, ·)
    else none
  | _ => none

/-- The pairs that are declared by operations performed one after the other, in this order. A pair
is listed as often as it is declared. -/
def declarations (r : Registry κ) : List (Operation κ) → List (TypeId × TypeId)
  | [] => []
  | op :: rest => (r.declared? op).toList ++ (r.after op).declarations rest

end Registry

end

/-! ### Conditions on operations -/

/-- The predicates that a description brings from outside. -/
def Description.supplied : Description κ → List (Predicate κ)
  | leaf draft => draft.validity?.toList
  | aggregate a => a.invariant?.toList
  | taggedUnion _ | enumeration _ => []

/-- No sum wraps when what is described is laid out. -/
def Description.fits (r : Registry κ) : Description κ → Bool
  | aggregate a => a.fits r
  | taggedUnion u => u.fits r
  | leaf _ | enumeration _ => true

namespace Predicate

/-- A leaf that holds of all bytes, of none, or of all that are not zero. -/
def isPlainLeaf : Predicate κ → Bool
  | allValid _ _ | noneValid _ _ | nonZero _ _ _ => true
  | _ => false

/-- A plain leaf, or one with ranges that each go from an integer of the width up to another. -/
def isOrderedLeaf : Predicate κ → Bool
  | intRanges width signed ranges _ =>
    ranges.all fun r => r.fits width && IntRange.tagLE width signed r.first r.last
  | p => p.isPlainLeaf

end Predicate

namespace Description

/-- A leaf is of the kind, and a composite has no invariant. -/
def isBuiltOf (kind : Predicate κ → Bool) : Description κ → Bool
  | leaf draft => draft.validity?.all kind
  | aggregate a => a.invariant?.isNone
  | taggedUnion _ | enumeration _ => true

def isTaggedUnion : Description κ → Bool
  | taggedUnion _ => true
  | leaf _ | aggregate _ | enumeration _ => false

end Description

namespace Operation

/-- What the operation registers or defines is a leaf of the kind or a composite without an
invariant. -/
def isBuiltOf (kind : Predicate κ → Bool) : Operation κ → Bool
  | register _ draft => draft.validity?.all kind
  | define _ description _ => description.isBuiltOf kind
  | _ => true

/-- The predicates that an operation brings from outside. -/
def supplied : Operation κ → List (Predicate κ)
  | register _ draft => draft.validity?.toList
  | define _ description _ => description.supplied
  | _ => []

/-- Every predicate that the operation brings is well-formed. -/
def SuppliesWellFormed (op : Operation κ) : Prop := ∀ p ∈ op.supplied, p.isWellFormed

/-- Every predicate that the operation brings is well-formed, with ranges that fit. -/
def SuppliesSound (op : Operation κ) : Prop := ∀ p ∈ op.supplied, p.isSound

/-- The operation claims of a type that it is nicheless, by the word of the caller. -/
def isAssertion : Operation κ → Bool
  | assertNicheless _ _ => true
  | _ => false

variable [Check κ] [DecidableEq κ]

omit [DecidableEq κ] in
/-- No sum wraps in the placement of what the operation defines, where that has a layout. -/
def Fits (r : Registry κ) : Operation κ → Prop
  | define _ description _ => ∀ draft, description.fact r = .ok draft → description.fits r
  | _ => True

omit [DecidableEq κ] in
/-- The operation keeps every part inside its whole, in what it brings and in what it places. -/
structure IsBounded (r : Registry κ) (op : Operation κ) : Prop where
  supplies : op.SuppliesWellFormed
  fits : op.Fits r

/-- Nothing false is asserted: if it is recorded of a type that it is nicheless, by the word of the
caller, then the type accepts every bit pattern. -/
def AssertsTruly (r : Registry κ) : Operation κ → Prop
  | assertNicheless type justification =>
    ((assertNicheless type justification).perform.run r).1 = .ok () →
      ∀ fact, r.fact? type = some fact →
        ∀ bytes : Bytes, bytes.length = fact.size.toNat → fact.validity.Accepts bytes
  | _ => True

/-- If the operation brings a fact, then it brings one of a leaf of the kind, or of a composite
without an invariant in the placement of which no sum wraps. -/
def BringsBuiltOf (kind : Predicate κ → Bool) (r : Registry κ) (op : Operation κ) : Prop :=
  (r.after op).fact? = r.fact? ∨ op.isBuiltOf kind = true ∧ op.Fits r

/-- If the operation brings a fact, then it defines a plain leaf, an enumeration, or an aggregate
without an invariant in the placement of which no sum wraps. -/
def DefinesPlainly (r : Registry κ) (op : Operation κ) : Prop :=
  (r.after op).fact? = r.fact? ∨ ∃ type description expected?,
    op = .define type description expected? ∧
      description.isBuiltOf Predicate.isPlainLeaf = true ∧ description.isTaggedUnion = false ∧
      op.Fits r

omit [DecidableEq κ] in
/-- The operation keeps to what callers promise of what they supply and describe. Nothing is said of
what they assert. -/
structure IsCareful (r : Registry κ) (op : Operation κ) : Prop where
  supplies : op.SuppliesSound
  fits : op.Fits r

/-- The operation keeps to what callers promise. -/
structure IsAdmissible (r : Registry κ) (op : Operation κ) : Prop where
  supplies : op.SuppliesSound
  fits : op.Fits r
  asserts : op.AssertsTruly r

end Operation

end BitValidity
