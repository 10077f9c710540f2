import BitValidity.Proofs.Layout.Nicheless
import BitValidity.Proofs.Predicate.Equivalence
import BitValidity.Proofs.Predicate.NoneValid
import BitValidity.Registry.Definition

/-!
# Aggregates with an impossible part

An aggregate has no value when a part of it has none: a field whose predicate accepts nothing by its
shape, an empty field that rejects the empty string, or an invariant that accepts nothing by its
shape. No derivation overlooks such a part. But whether a type may be asserted to be nicheless is up
to its fact alone, where the part is only seen if the predicate of the whole accepts nothing by its
shape or the type has no bytes.
-/

namespace BitValidity

variable {κ : Type} [Check κ]

/-! ### Predicates -/

namespace Predicate

/-- A part of the predicate is seen to accept nothing: the whole by its shape, a field of an
aggregate by its shape or, if it is empty, by a check, or the invariant of an aggregate by its
shape. -/
def HasImpossiblePart : Predicate κ → Prop
  | allOf _ _ fields invariant =>
    (∃ field ∈ fields, field.predicate.admitsNone = true ∨
      field.predicate.size = 0 ∧ ∃ v, field.predicate.findViolation [] = .ok (some v)) ∨
    ∃ p ∈ invariant, p.admitsNone = true
  | p => p.admitsNone = true

lemma hasImpossiblePart_of_admitsNone {p : Predicate κ} (h : p.admitsNone = true) :
    p.HasImpossiblePart := by
  cases p with
  | allOf size d fields invariant =>
    simp only [admitsNone, someFieldAdmitsNone_eq, List.any_eq_true] at h
    obtain ⟨field, hfield, h⟩ := h
    exact .inl ⟨field, hfield, .inl h⟩
  | _ => exact h

/-- What has an impossible part accepts nothing. -/
theorem HasImpossiblePart.not_accepts {p : Predicate κ} (h : p.HasImpossiblePart) {bytes : Bytes} :
    ¬ p.Accepts bytes := by
  cases p with
  | allOf size d fields invariant =>
    intro haccepts
    obtain ⟨-, hfields, hinvariant⟩ := accepts_allOf_iff.mp haccepts
    rcases h with ⟨field, hfield, hnone | ⟨hempty, v, hv⟩⟩ | ⟨p, hp, hnone⟩
    · exact not_accepts_of_admitsNone hnone (hfields field hfield).2
    · have hnil := (hfields field hfield).2
      simp only [Accepts, part, hempty, UInt64.toNat_zero, List.take_zero, hv] at hnil
      cases hnil
    · exact not_accepts_of_admitsNone hnone (hinvariant p hp)
  | _ => exact not_accepts_of_admitsNone h

/-- An empty string passes what is taken to accept everything, if it can be checked at all. -/
lemma eq_none_of_admitsAll {p : Predicate κ} (hall : p.admitsAll = true)
    {outcome : Option Violation} (h : p.findViolation [] = .ok outcome) : outcome = none := by
  have hlen := length_of_findViolation h
  induction p using Predicate.induct generalizing outcome with
  | allValid size d =>
    rw [findViolation, if_neg (not_not.mpr hlen)] at h
    exact (Except.ok.inj h).symm
  | intRanges width signed ranges d => cases width <;> cases hlen
  | allOf size d fields invariant ihfields ihinvariant =>
    cases invariant with
    | none =>
      rw [findViolation, if_neg (not_not.mpr hlen)] at h
      simp only [admitsAll, fieldsAdmitAll_eq, List.all_eq_true] at hall
      clear hlen
      induction fields with
      | nil => exact (Except.ok.inj h).symm
      | cons field rest ih =>
        obtain ⟨hfield, hrest⟩ := List.forall_mem_cons.mp hall
        obtain ⟨ihfield, ihrest⟩ := List.forall_mem_cons.mp ihfields
        simp only [findFieldViolation, bind_eq_ok_iff, Bytes.slice_eq_ok_iff] at h
        obtain ⟨_, ⟨hle, rfl⟩, found, hfound, h⟩ := h
        rw [List.drop_nil, List.take_nil] at hfound
        obtain rfl := ihfield hfield hfound (length_of_findViolation hfound)
        exact ih ihrest h hrest
    | some invariant => cases hall
  | passthrough d inner ih =>
    rw [findViolation, if_neg (not_not.mpr hlen)] at h
    exact ih hall h hlen
  | noneValid size d => cases hall
  | nonZero size d pointer => cases hall
  | custom size d check => cases hall
  | oneOf size d offset width signed variants ih => cases hall

lemma not_hasImpossiblePart_of_admitsAll {p : Predicate κ} (hall : p.admitsAll = true)
    (hsome : p.admitsNone = false) : ¬ p.HasImpossiblePart := by
  cases p with
  | allOf size d fields invariant =>
    cases invariant with
    | none =>
      simp only [admitsAll, fieldsAdmitAll_eq, List.all_eq_true] at hall
      simp only [admitsNone, someFieldAdmitsNone_eq, List.any_eq_false] at hsome
      rintro (⟨field, hfield, hnone | ⟨-, v, hv⟩⟩ | ⟨_, ⟨⟩, -⟩)
      · exact hsome field hfield hnone
      · cases eq_none_of_admitsAll (hall field hfield) hv
    | some invariant => cases hall
  | _ =>
    intro h
    cases hsome.symm.trans h

lemma hasImpossiblePart_anonymous (p : Predicate κ) :
    p.anonymous.HasImpossiblePart ↔ p.HasImpossiblePart := by
  have hviolation : ∀ q : Predicate κ, (∃ v, q.anonymous.findViolation [] = .ok (some v)) ↔
      ∃ v, q.findViolation [] = .ok (some v) := by
    intro q
    rw [findViolation_anonymous]
    rcases q.findViolation [] with b | _ | v <;> simp
  cases p with
  | allOf size d fields invariant =>
    cases invariant <;>
      simp [anonymous, HasImpossiblePart, anonymousFields_eq_map, hviolation]
  | _ => simp [anonymous, HasImpossiblePart, admitsNone, anonymousVariants_eq_map]

/-- Equivalent predicates both have an impossible part, or neither has. -/
lemma hasImpossiblePart_iff_of_equivalent [DecidableEq κ] {p q : Predicate κ}
    (h : p.equivalent q = true) : p.HasImpossiblePart ↔ q.HasImpossiblePart := by
  rw [← hasImpossiblePart_anonymous p, equivalent_iff.mp h, hasImpossiblePart_anonymous q]

end Predicate

/-! ### Facts -/

namespace LayoutFact

variable {fact : LayoutFact κ} {proof : NichelessProof}

/-- A fact with an impossible part is seen to be uninhabited by its shape, or without bytes by a
check, if there is nothing in it that cannot be checked. -/
lemma isUninhabited_eq_true_iff (hpart : fact.validity.HasImpossiblePart) :
    fact.isUninhabited = .ok true ↔ fact.validity.admitsNone = true ∨
      fact.size = 0 ∧ ∃ outcome, fact.validity.findViolation [] = .ok outcome := by
  rw [isUninhabited]
  cases fact.validity.admitsNone with
  | true => simp
  | false =>
    by_cases hempty : fact.size = 0
    · cases hviolation : fact.validity.findViolation [] with
      | error b => simp [hempty, hasEmptyValue, hviolation, Except.map]
      | ok outcome =>
        cases outcome with
        | none => exact absurd hviolation hpart.not_accepts
        | some v => simp [hempty, hasEmptyValue, hviolation, Except.map, pure, Except.pure]
    · simp [hempty]

/-- Nothing is derived from a fact with an impossible part. -/
theorem not_hasImpossiblePart_of_deriveNicheless (h : fact.deriveNicheless = .ok proof) :
    (∃ rule, proof = .derived rule) ∧ ¬ fact.validity.HasImpossiblePart := by
  obtain ⟨huninhabited, ⟨hempty, rfl⟩ | ⟨-, hall, rfl⟩⟩ := deriveNicheless_eq_ok_iff.mp h
  · have hvalue := hasEmptyValue_of_isUninhabited hempty huninhabited
    have hnil := (accepts_nil_iff_of_hasEmptyValue hempty hvalue).mpr rfl
    exact ⟨⟨_, rfl⟩, fun hpart => hpart.not_accepts hnil⟩
  · have hsome : fact.validity.admitsNone = false := by
      by_contra hnone
      rw [isUninhabited, if_pos (Bool.not_eq_false _ ▸ hnone)] at huninhabited
      cases huninhabited
    exact ⟨⟨_, rfl⟩, Predicate.not_hasImpossiblePart_of_admitsAll hall hsome⟩

/-- Of a fact that is seen to be uninhabited nothing is derived. -/
lemma deriveNicheless_of_isUninhabited (h : fact.isUninhabited = .ok true) :
    fact.deriveNicheless = .error (.error (.notNicheless fact.name .uninhabited)) := by
  rw [deriveNicheless, h]
  rfl

/-- An assertion is allowed of what is not seen to be uninhabited, with a reason. -/
lemma checkAssertion_eq_ok_iff {justification : String} :
    fact.checkAssertion justification = .ok () ↔
      justification.isEmpty = false ∧ fact.isUninhabited = .ok false := by
  rw [checkAssertion]
  split
  · simp_all
  · rename_i hjustified
    simp only [bind_eq_ok_iff, liftM_breach_eq_ok_iff]
    constructor
    · rintro ⟨_ | _, huninhabited, h⟩
      · exact ⟨by simpa using hjustified, huninhabited⟩
      · cases h
    · rintro ⟨-, huninhabited⟩
      exact ⟨false, huninhabited, rfl⟩

/-- No assertion is allowed of what is seen to be uninhabited. -/
lemma checkAssertion_of_isUninhabited (h : fact.isUninhabited = .ok true) (justification : String) :
    ∃ e, fact.checkAssertion justification = .error (.error e) ∧ e.kind = .notNicheless := by
  rw [checkAssertion, h]
  split
  · exact ⟨_, rfl, rfl⟩
  · exact ⟨_, rfl, rfl⟩

/-- With a reason, an assertion is refused for nothing else. -/
lemma isUninhabited_of_checkAssertion {justification : String} {e : Error}
    (hjustified : justification.isEmpty = false)
    (h : fact.checkAssertion justification = .error (.error e)) :
    fact.isUninhabited = .ok true := by
  rw [checkAssertion, hjustified] at h
  rcases huninhabited : fact.isUninhabited with b | _ | _
  · rw [huninhabited] at h
    cases h
  · rw [huninhabited] at h
    cases h
  · rfl

end LayoutFact

/-! ### Aggregates -/

namespace Aggregate

variable {r : Registry κ} {a : Aggregate κ} {layout : AggregateLayout κ} {proof : NichelessProof}

/-- A field has no value, as far as that is seen from the shape of its predicate or, if it is empty,
by a check, or the invariant has none, as far as that is seen from its shape. -/
def HasImpossiblePart (a : Aggregate κ) (layout : AggregateLayout κ) : Prop :=
  (∃ p ∈ layout.fields, p.fact.validity.admitsNone = true ∨
    p.fact.size = 0 ∧ ∃ v, p.fact.validity.findViolation [] = .ok (some v)) ∨
  ∃ p ∈ a.invariant?, p.admitsNone = true

/-- An impossible part shows in the fact of the aggregate. An empty field of a transparent aggregate
is looked at when the layout is derived, the shape of a field is part of that of the whole, and a
type without bytes is checked, if there is nothing in it that cannot be checked. -/
def ShowsImpossiblePart (a : Aggregate κ) (layout : AggregateLayout κ) : Prop :=
  a.representation = .transparent ∨ (∃ p ∈ layout.fields, p.fact.validity.admitsNone = true) ∨
    layout.fact.size = 0 ∧ ∃ outcome, layout.fact.validity.findViolation [] = .ok outcome

/-- A transparent aggregate with an impossible part accepts nothing by its shape. -/
lemma admitsNone_of_transparentLayout (h : a.transparentLayout r = .ok layout)
    (hpart : a.HasImpossiblePart layout) : layout.fact.validity.admitsNone = true := by
  obtain ⟨fields, inner, markers, hfields, hmarkers, rfl⟩ := transparentLayout_eq_ok_iff.mp h
  obtain ⟨-, hinvariant, -, hinner, -⟩ := transparentFields_eq_ok_iff.mp hfields
  dsimp only
  split
  · rename_i hall
    rcases hpart with ⟨p, hp, hpart⟩ | ⟨q, hq, -⟩
    · by_cases hempty : p.fact.size = 0
      · -- the marker of the field says that the empty string is a value
        have hmem : p ∈ fields.filter (·.fact.size == 0) :=
          List.mem_filter.mpr ⟨hp, by simpa using hempty⟩
        obtain ⟨marker, hmarker, hvalue⟩ := exists_mem_right hmarkers hmem
        obtain rfl : marker = true := List.all_eq_true.mp hall marker hmarker
        have haccepts := (p.fact.accepts_nil_iff_of_hasEmptyValue hempty hvalue).mpr rfl
        rcases hpart with hnone | ⟨-, v, hv⟩
        · exact absurd haccepts (Predicate.not_accepts_of_admitsNone hnone)
        · cases haccepts.symm.trans hv
      · obtain rfl := (eq_or_empty_of_filter_eq hinner hp).resolve_right hempty
        exact hpart.resolve_right fun h => hempty h.1
    · rw [hinvariant] at hq
      cases hq
  · rfl

/-- The predicate of an aggregate with an impossible part has one. -/
lemma hasImpossiblePart_of_layout (hr : r.Consistent) (h : a.layout r = .ok layout)
    (hpart : a.HasImpossiblePart layout) : layout.fact.validity.HasImpossiblePart := by
  rcases layout_eq_ok_iff.mp h with ⟨-, hlayout⟩ | ⟨-, hlayout⟩
  · have hfacts := fact_eq_of_layout h
    obtain ⟨fields, alignment, size, -, -, -, -, -, rfl⟩ := sequentialLayout_eq_ok_iff.mp hlayout
    rcases hpart with ⟨p, hp, hpart⟩ | hinvariant
    · refine .inl ⟨p.check, List.mem_map_of_mem hp, ?_⟩
      show p.fact.validity.admitsNone = true ∨ p.fact.validity.size = 0 ∧ _
      rwa [hr.size_eq _ _ (hfacts p hp)]
    · exact .inr hinvariant
  · exact Predicate.hasImpossiblePart_of_admitsNone (admitsNone_of_transparentLayout hlayout hpart)

/-- Whether an impossible part shows is up to the fact of the aggregate alone. -/
lemma showsImpossiblePart_iff (hr : r.Consistent) (h : a.layout r = .ok layout)
    (hpart : a.HasImpossiblePart layout) :
    a.ShowsImpossiblePart layout ↔ layout.fact.isUninhabited = .ok true := by
  rw [LayoutFact.isUninhabited_eq_true_iff (hasImpossiblePart_of_layout hr h hpart),
    ShowsImpossiblePart, ← or_assoc]
  apply or_congr_left
  rcases layout_eq_ok_iff.mp h with ⟨hrep, hlayout⟩ | ⟨hrep, hlayout⟩
  · obtain ⟨fields, alignment, size, -, -, -, -, -, rfl⟩ := sequentialLayout_eq_ok_iff.mp hlayout
    simp [hrep, Predicate.admitsNone, PlacedField.check]
  · exact iff_of_true (.inl hrep) (admitsNone_of_transparentLayout hlayout hpart)

/-- Nothing is derived from the description of an aggregate with an impossible part. -/
theorem not_hasImpossiblePart_of_deriveNicheless (hr : r.Consistent) (h : a.layout r = .ok layout)
    (hderive : a.deriveNicheless r = .ok proof) :
    (∃ rule, proof = .derived rule) ∧ ¬ layout.fact.validity.HasImpossiblePart := by
  obtain ⟨hsome, hinvariant, hcheck, rfl⟩ := (deriveNicheless_eq_ok_iff h).mp hderive
  refine ⟨⟨_, rfl⟩, fun hpart => ?_⟩
  rcases layout_eq_ok_iff.mp h with ⟨-, hlayout⟩ | ⟨-, hlayout⟩
  · have hfacts := fact_eq_of_layout h
    obtain ⟨fields, alignment, size, -, -, -, -, -, rfl⟩ := sequentialLayout_eq_ok_iff.mp hlayout
    rcases hpart with ⟨field, hfield, hpart⟩ | ⟨p, hp, -⟩
    · obtain ⟨p, hp, rfl⟩ := List.mem_map.mp hfield
      have hcheck := checkFields_eq_ok_iff.mp hcheck p hp
      have hsize := hr.size_eq _ _ (hfacts p hp)
      rcases hpart with hnone | ⟨hempty, v, hv⟩
      · simp only [Predicate.admitsNone, Predicate.someFieldAdmitsNone_eq, List.any_eq_false]
          at hsome
        exact hsome _ hfield hnone
      · have hempty : p.fact.size = 0 := hsize.symm.trans hempty
        rw [if_pos hempty] at hcheck
        cases ((p.fact.accepts_nil_iff_of_hasEmptyValue hempty hcheck).mpr rfl).symm.trans hv
    · rw [hinvariant] at hp
      cases hp
  · obtain ⟨fields, inner, markers, -, -, rfl⟩ := transparentLayout_eq_ok_iff.mp hlayout
    -- a wrapper and a predicate that holds of nothing have no parts
    dsimp only at hpart hsome
    split at hsome <;> rename_i hall <;> simp only [hall, if_true] at hpart
    · cases hsome.symm.trans hpart
    · cases hsome

end Aggregate

end BitValidity
