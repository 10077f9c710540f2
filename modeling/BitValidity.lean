import BitValidity.Predicate.Constraint
import BitValidity.Proofs.Host.Conversion
import BitValidity.Proofs.Host.Operations
import BitValidity.Proofs.Layout.EnumerationTags
import BitValidity.Proofs.Layout.Inhabitation
import BitValidity.Proofs.Layout.SharedStorage
import BitValidity.Proofs.Predicate.Constraints
import BitValidity.Proofs.Predicate.Equivalence
import BitValidity.Proofs.Predicate.Inspection
import BitValidity.Proofs.Registry.Choices
import BitValidity.Proofs.Registry.Completeness
import BitValidity.Proofs.Registry.Finality
import BitValidity.Proofs.Registry.Provenance
import BitValidity.Proofs.Registry.Refusal
import BitValidity.Proofs.Layout.FieldOrder
import BitValidity.Proofs.Layout.VariantOrder
import BitValidity.Proofs.Registry.Redefinition
import BitValidity.Proofs.Host.Declaration
import BitValidity.Proofs.Layout.WrittenOut
import BitValidity.Proofs.Host.DefaultUniverse
import BitValidity.Proofs.Host.Repetition
import BitValidity.Proofs.Predicate.DescribedSet
import BitValidity.Proofs.Registry.Identities
import BitValidity.Proofs.Layout.Repeated
import BitValidity.Proofs.Host.Arrays
import BitValidity.Proofs.Host.ZeroNiche
import BitValidity.Proofs.StoredIntegers
