import BitValidity.Proofs.Layout.Soundness
import BitValidity.Proofs.Predicate.Names

/-!
# Derived nichelessness

A proof that is derived, from the description of a composite or from the fact of a type, is about a
predicate that accepts every bit pattern. Of the types of fields this is asked only where they are
recorded as nicheless; an empty field was looked at in the derivation itself.
-/

namespace BitValidity

variable {κ : Type} [Check κ] {r : Registry κ}

/-- The predicate of every type that is recorded as nicheless accepts every bit pattern. -/
def Registry.ProofsSound (r : Registry κ) : Prop :=
  ∀ type fact, r.isNicheless type = true → r.fact? type = some fact → fact.validity.AcceptsAll

/-! ### Facts -/

namespace LayoutFact

variable {fact : LayoutFact κ}

/-- The only value that a type without bytes can have is the empty one. -/
lemma accepts_nil_iff_of_hasEmptyValue (hempty : fact.size = 0) {value : Bool}
    (h : fact.hasEmptyValue = .ok value) : fact.validity.Accepts [] ↔ value = true := by
  rw [hasEmptyValue, if_pos hempty, bind_eq_ok_iff] at h
  obtain ⟨outcome, houtcome, h⟩ := h
  obtain rfl : outcome.isNone = value := pure_eq_ok_iff.mp h
  rw [Predicate.Accepts, houtcome, Except.ok.injEq, Option.isNone_iff_eq_none]

lemma acceptsAll_of_hasEmptyValue (hsize : fact.validity.size = fact.size) (hempty : fact.size = 0)
    (h : fact.hasEmptyValue = .ok true) : fact.validity.AcceptsAll := by
  intro bytes hlen
  rw [hsize, hempty, UInt64.toNat_zero, List.length_eq_zero_iff] at hlen
  rw [hlen]
  exact (accepts_nil_iff_of_hasEmptyValue hempty h).mpr rfl

lemma hasEmptyValue_of_isUninhabited (hempty : fact.size = 0)
    (h : fact.isUninhabited = .ok false) : fact.hasEmptyValue = .ok true := by
  simp only [isUninhabited] at h
  split at h
  · cases h
  · obtain ⟨value, hvalue, hnot⟩ := map_eq_ok_iff.mp h
    obtain rfl : value = true := by simpa using hnot
    exact hvalue

theorem deriveNicheless_eq_ok_iff {proof : NichelessProof} :
    fact.deriveNicheless = .ok proof ↔ fact.isUninhabited = .ok false ∧
      (fact.size = 0 ∧ proof = .derived .zeroSized ∨
        fact.size ≠ 0 ∧ fact.validity.admitsAll = true ∧ proof = .derived .everyPattern) := by
  simp only [deriveNicheless, bind_eq_ok_iff, liftM_breach_eq_ok_iff]
  constructor
  · rintro ⟨_ | _, huninhabited, h⟩
    · refine ⟨huninhabited, ?_⟩
      simp only [Bool.false_eq_true, if_false] at h
      split at h
      · rename_i hempty
        exact .inl ⟨hempty, (pure_eq_ok_iff.mp h).symm⟩
      · rename_i hsize
        split at h
        · cases h
        · rename_i hall
          exact .inr ⟨hsize, by simpa using hall, (pure_eq_ok_iff.mp h).symm⟩
    · cases h
  · rintro ⟨huninhabited, ⟨hempty, rfl⟩ | ⟨hsize, hall, rfl⟩⟩
    · exact ⟨false, huninhabited, by simp [hempty]⟩
    · exact ⟨false, huninhabited, by simp [hsize, hall]⟩

/-- What is derived from a fact alone is right. -/
theorem acceptsAll_of_deriveNicheless {proof : NichelessProof}
    (hsize : fact.validity.size = fact.size) (hsound : fact.validity.isSound = true)
    (h : fact.deriveNicheless = .ok proof) : fact.validity.AcceptsAll := by
  obtain ⟨huninhabited, ⟨hempty, -⟩ | ⟨-, hall, -⟩⟩ := deriveNicheless_eq_ok_iff.mp h
  · exact acceptsAll_of_hasEmptyValue hsize hempty
      (hasEmptyValue_of_isUninhabited hempty huninhabited)
  · exact Predicate.acceptsAll_of_admitsAll hsound hall

end LayoutFact

/-- Where no proof is recorded, the fact alone decides. -/
lemma Registry.deriveNicheless_eq {type : TypeId} {fact : LayoutFact κ}
    (hnone : r.proof? type = none) (hfact : r.fact? type = some fact) :
    r.deriveNicheless type = fact.deriveNicheless := by
  rw [deriveNicheless, hnone, lookup_eq_ok_iff.mpr hfact]
  rfl

/-! ### Aggregates -/

namespace Aggregate

variable {a : Aggregate κ} {layout : AggregateLayout κ}

/-- The fields are found to be nicheless when each of them is recorded as nicheless, or is empty and
has a value. -/
lemma checkFields_eq_ok_iff {owner : String} {fields : List (PlacedField κ)} :
    checkFields r owner fields = .ok () ↔ ∀ p ∈ fields,
      if p.fact.size = 0 then p.fact.hasEmptyValue = .ok true
      else r.isNicheless p.field.type = true := by
  induction fields with
  | nil => simp [checkFields]
  | cons p rest ih =>
    rw [checkFields, List.forall_mem_cons, ← ih]
    split
    · simp only [bind_eq_ok_iff, liftM_breach_eq_ok_iff]
      constructor
      · rintro ⟨_ | _, hvalue, h⟩
        · cases h
        · exact ⟨hvalue, h⟩
      · rintro ⟨hvalue, h⟩
        exact ⟨true, hvalue, h⟩
    · split
      · rename_i hnicheless
        exact (and_iff_right hnicheless).symm
      · rename_i hnicheless
        constructor
        · intro h
          cases h
        · rintro ⟨hnot, -⟩
          exact absurd hnot hnicheless

/-- Fields that are found to be nicheless are of types that accept every bit pattern. -/
lemma acceptsAll_of_checkFields (hr : r.Consistent) {owner : String}
    {fields : List (PlacedField κ)} (hfields : ∀ p ∈ fields, r.fact? p.field.type = some p.fact)
    (hproofs : ∀ p ∈ fields, p.fact.size ≠ 0 → r.isNicheless p.field.type = true →
      p.fact.validity.AcceptsAll)
    (h : checkFields r owner fields = .ok ()) : ∀ p ∈ fields, p.fact.validity.AcceptsAll := by
  intro p hp
  have h := checkFields_eq_ok_iff.mp h p hp
  split at h
  · rename_i hempty
    exact LayoutFact.acceptsAll_of_hasEmptyValue (hr.size_eq _ _ (hfields p hp)) hempty h
  · rename_i hsize
    exact hproofs p hp hsize h

lemma acceptsAll_of_sequentialLayout (hsound : layout.fact.validity.isSound = true)
    (hinvariant : a.invariant? = none) (h : a.sequentialLayout r = .ok layout)
    (hfields : ∀ p ∈ layout.fields, p.fact.validity.AcceptsAll) :
    layout.fact.validity.AcceptsAll := by
  obtain ⟨fields, alignment, size, -, -, -, -, -, rfl⟩ := sequentialLayout_eq_ok_iff.mp h
  rw [hinvariant] at hsound ⊢
  have hinside := (Predicate.isSound_allOf_iff.mp hsound).1
  apply (Predicate.acceptsAll_allOf_iff fun field hfield => (hinside field hfield).1).mpr
  exact List.forall_mem_map.mpr hfields

lemma acceptsAll_of_transparentLayout (hinhabited : layout.fact.validity.admitsNone = false)
    (h : a.transparentLayout r = .ok layout)
    (hfields : ∀ p ∈ layout.fields, p.fact.validity.AcceptsAll) :
    layout.fact.validity.AcceptsAll := by
  obtain ⟨fields, inner, markers, hplaced, -, rfl⟩ := transparentLayout_eq_ok_iff.mp h
  obtain ⟨-, -, -, hinner, -⟩ := transparentFields_eq_ok_iff.mp hplaced
  dsimp only at hinhabited ⊢
  split at hinhabited
  · rename_i hmarkers
    rw [if_pos hmarkers]
    exact Predicate.acceptsAll_passthrough_iff.mpr (hfields inner (mem_of_filter_eq hinner).1)
  · cases hinhabited

lemma fact_eq_of_layout (h : a.layout r = .ok layout) :
    ∀ p ∈ layout.fields, r.fact? p.field.type = some p.fact := by
  rcases layout_eq_ok_iff.mp h with ⟨-, h⟩ | ⟨-, h⟩
  · obtain ⟨fields, alignment, size, hplaced, -, -, -, -, rfl⟩ := sequentialLayout_eq_ok_iff.mp h
    intro p hp
    exact hplaced.fact_eq hp
  · obtain ⟨fields, inner, markers, hfields, -, rfl⟩ := transparentLayout_eq_ok_iff.mp h
    obtain ⟨-, -, hfields, -⟩ := transparentFields_eq_ok_iff.mp hfields
    intro p hp
    obtain ⟨field, -, hfield⟩ := exists_mem_left hfields hp
    exact hfield.field_eq ▸ hfield.fact_eq

lemma field_mem_of_layout (h : a.layout r = .ok layout) :
    ∀ p ∈ layout.fields, p.field ∈ a.fields := by
  rcases layout_eq_ok_iff.mp h with ⟨-, h⟩ | ⟨-, h⟩
  · obtain ⟨fields, alignment, size, hplaced, -, -, -, -, rfl⟩ := sequentialLayout_eq_ok_iff.mp h
    intro p hp
    exact hplaced.field_mem hp
  · obtain ⟨fields, inner, markers, hfields, -, rfl⟩ := transparentLayout_eq_ok_iff.mp h
    obtain ⟨-, -, hfields, -⟩ := transparentFields_eq_ok_iff.mp hfields
    intro p hp
    obtain ⟨field, hmem, hfield⟩ := exists_mem_left hfields hp
    exact hfield.field_eq ▸ hmem

theorem deriveNicheless_eq_ok_iff {proof : NichelessProof} (h : a.layout r = .ok layout) :
    a.deriveNicheless r = .ok proof ↔ layout.fact.validity.admitsNone = false ∧
      a.invariant? = none ∧ checkFields r a.name layout.fields = .ok () ∧
        proof = .derived (a.nichelessRule layout) := by
  rw [deriveNicheless, h, ok_bind]
  cases layout.fact.validity.admitsNone with
  | true => simp
  | false =>
    cases a.invariant? with
    | none =>
      simp only [Bool.false_eq_true, if_false, Option.isSome_none, bind_eq_ok_iff, pure_eq_ok_iff,
        true_and, eq_comm (a := proof)]
      constructor
      · rintro ⟨⟨⟩, hcheck, hproof⟩
        exact ⟨hcheck, hproof⟩
      · rintro ⟨hcheck, hproof⟩
        exact ⟨(), hcheck, hproof⟩
    | some invariant => simp

/-- What is derived from the description of an aggregate is right of the fact that has its layout,
if the proofs are right that are recorded of the types of its fields. -/
theorem acceptsAll_of_deriveNicheless {proof : NichelessProof} (hr : r.Consistent)
    (hlayout : a.layout r = .ok layout) (hsound : layout.fact.validity.isSound = true)
    (hproofs : ∀ p ∈ layout.fields, p.fact.size ≠ 0 → r.isNicheless p.field.type = true →
      p.fact.validity.AcceptsAll)
    (h : a.deriveNicheless r = .ok proof) : layout.fact.validity.AcceptsAll := by
  obtain ⟨hinhabited, hinvariant, hcheck, -⟩ := (deriveNicheless_eq_ok_iff hlayout).mp h
  have hfields := acceptsAll_of_checkFields hr (fact_eq_of_layout hlayout) hproofs hcheck
  rcases layout_eq_ok_iff.mp hlayout with ⟨-, hlayout⟩ | ⟨-, hlayout⟩
  · exact acceptsAll_of_sequentialLayout hsound hinvariant hlayout hfields
  · exact acceptsAll_of_transparentLayout hinhabited hlayout hfields

end Aggregate

/-! ### Tagged unions and enumerations -/

omit [Check κ] in
lemma TaggedUnion.deriveNicheless_ne_ok (u : TaggedUnion) (proof : NichelessProof) :
    u.deriveNicheless r ≠ .ok proof := by
  intro h
  obtain ⟨_, -, h⟩ := bind_eq_ok_iff.mp h
  cases h

namespace Enumeration

variable {e : Enumeration} {fact : LayoutFact κ} {proof : NichelessProof}

omit [Check κ] in
/-- The derivation looks at a fact without checks, which has the same ranges as any other. -/
lemma deriveNicheless_eq (hfact : e.layoutFact = .ok fact) :
    e.deriveNicheless =
      if fact.validity.admitsNone then .error (.notNicheless e.name .uninhabited)
      else if fact.validity.admitsAll then .ok (.derived .everyTag)
      else .error (.notNicheless e.name .unusedTags) := by
  obtain ⟨width, tags, hoffset, hwidth, htags, rfl⟩ := layoutFact_eq_ok_iff.mp hfact
  have hempty : e.layoutFact = .ok (⟨⟨width.toUInt64, width.toUInt64⟩, e.name,
      .intRanges width e.tag.signed (IntRange.gather width e.tag.signed tags) e.name⟩ :
      LayoutFact Empty) :=
    layoutFact_eq_ok_iff.mpr ⟨width, tags, hoffset, hwidth, htags, rfl⟩
  rw [deriveNicheless, hempty, ok_bind]
  by_cases hnone : (IntRange.gather width e.tag.signed tags).isEmpty = true
  · simp [Predicate.admitsNone, hnone]
  · by_cases hall : (IntRange.gather width e.tag.signed tags).any
        (·.coversDomain width e.tag.signed) = true
    · simp [Predicate.admitsNone, Predicate.admitsAll, hnone, hall]
    · simp [Predicate.admitsNone, Predicate.admitsAll, hnone, hall]

omit [Check κ] in
theorem deriveNicheless_eq_ok_iff (hfact : e.layoutFact = .ok fact) :
    e.deriveNicheless = .ok proof ↔ fact.validity.admitsNone = false ∧
      fact.validity.admitsAll = true ∧ proof = .derived .everyTag := by
  rw [deriveNicheless_eq hfact]
  cases fact.validity.admitsNone <;> cases fact.validity.admitsAll <;> simp [eq_comm]

/-- What is derived from the description of an enumeration is right of its fact. -/
theorem acceptsAll_of_deriveNicheless (hfact : e.layoutFact = .ok fact)
    (h : e.deriveNicheless = .ok proof) : fact.validity.AcceptsAll :=
  Predicate.acceptsAll_of_admitsAll (e.good_of_layoutFact Predicate.layoutClosed_isSound hfact)
    ((deriveNicheless_eq_ok_iff hfact).mp h).2.1

end Enumeration

end BitValidity
