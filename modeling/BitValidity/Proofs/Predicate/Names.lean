import BitValidity.Predicate.Equivalence
import BitValidity.Proofs.Predicate.Acceptance

/-!
# Predicates without their names

`anonymous` takes the descriptions and the names of fields and variants out of a predicate. Two
predicates are equivalent exactly when they are the same without their names (`equivalent_iff`), so
equivalence inherits the laws of equality. A check of an anonymous predicate has the outcome of the
check of the predicate itself, also without names (`findViolation_anonymous`).
-/

namespace BitValidity

variable {κ : Type}

/-! ### Taking names out -/

namespace Predicate

mutual

/-- The predicate without its descriptions and names. -/
def anonymous : Predicate κ → Predicate κ
  | allValid size _ => allValid size ""
  | noneValid size _ => noneValid size ""
  | nonZero size _ pointer => nonZero size "" pointer
  | intRanges width signed ranges _ => intRanges width signed ranges ""
  | custom size _ check => custom size "" check
  | allOf size _ fields none => allOf size "" (anonymousFields fields) none
  | allOf size _ fields (some invariant) =>
    allOf size "" (anonymousFields fields) (some invariant.anonymous)
  | oneOf size _ offset width signed variants =>
    oneOf size "" offset width signed (anonymousVariants variants)
  | passthrough _ inner => passthrough "" inner.anonymous

def anonymousFields : List (FieldCheck (Predicate κ)) → List (FieldCheck (Predicate κ))
  | [] => []
  | field :: rest => ⟨field.offset, field.predicate.anonymous, ""⟩ :: anonymousFields rest

def anonymousVariants : List (VariantCheck (Predicate κ)) → List (VariantCheck (Predicate κ))
  | [] => []
  | variant :: rest => ⟨variant.tag, variant.payload.anonymous, ""⟩ :: anonymousVariants rest

end

@[simp] lemma size_anonymous (p : Predicate κ) : p.anonymous.size = p.size := by
  induction p using Predicate.induct with
  | allOf size d fields invariant => cases invariant <;> simp [anonymous, Predicate.size]
  | passthrough d inner ih => simpa [anonymous, Predicate.size] using ih
  | _ => simp [anonymous, Predicate.size]

@[simp] lemma description_anonymous (p : Predicate κ) : p.anonymous.description = "" := by
  cases p with
  | allOf size d fields invariant => cases invariant <;> simp [anonymous, description]
  | _ => simp [anonymous, description]

@[simp] lemma validSet_anonymous (p : Predicate κ) : p.anonymous.validSet = p.validSet := by
  cases p with
  | allOf size d fields invariant => cases invariant <;> simp [anonymous, validSet]
  | _ => simp [anonymous, validSet]

@[simp] lemma tags_anonymousVariants (variants : List (VariantCheck (Predicate κ))) :
    (anonymousVariants variants).map (·.tag) = variants.map (·.tag) := by
  induction variants with
  | nil => rfl
  | cons variant rest ih => simp [anonymousVariants, ih]

end Predicate

def Violation.anonymous (v : Violation) : Violation := { v with description := "" }

/-- Of what a breach reports, only the predicate whose bytes are too few or too many is named. -/
def Breach.anonymous : Breach → Breach
  | .internal (.lengthMismatch _ expected actual) => .internal (.lengthMismatch "" expected actual)
  | breach => breach

/-- The outcome of a check without names. -/
def anonymousOutcome (outcome : Except Breach (Option Violation)) :
    Except Breach (Option Violation) :=
  (outcome.map (·.map Violation.anonymous)).mapError Breach.anonymous

@[simp] lemma anonymousOutcome_ok (v? : Option Violation) :
    anonymousOutcome (.ok v?) = .ok (v?.map Violation.anonymous) := rfl

@[simp] lemma anonymousOutcome_error (b : Breach) :
    anonymousOutcome (.error b) = .error b.anonymous := rfl

lemma anonymousOutcome_eq_none_iff {outcome : Except Breach (Option Violation)} :
    anonymousOutcome outcome = .ok none ↔ outcome = .ok none := by
  rcases outcome with b | _ | v <;> simp

/-! ### Equivalence -/

namespace Predicate

section

variable [DecidableEq κ]

lemma fieldsEquivalent_iff {fields : List (FieldCheck (Predicate κ))}
    (fields' : List (FieldCheck (Predicate κ)))
    (ih : ∀ field ∈ fields, ∀ q : Predicate κ,
      field.predicate.equivalent q = true ↔ field.predicate.anonymous = q.anonymous) :
    fieldsEquivalent fields fields' = true ↔
      anonymousFields fields = anonymousFields fields' := by
  induction fields generalizing fields' with
  | nil => cases fields' <;> simp [fieldsEquivalent, anonymousFields]
  | cons field rest ihrest =>
    obtain ⟨hfield, hrest⟩ := List.forall_mem_cons.mp ih
    cases fields' with
    | nil => simp [fieldsEquivalent, anonymousFields]
    | cons field' rest' =>
      simp [fieldsEquivalent, anonymousFields, hfield, ihrest rest' hrest]

lemma variantsEquivalent_iff {variants : List (VariantCheck (Predicate κ))}
    (variants' : List (VariantCheck (Predicate κ)))
    (ih : ∀ variant ∈ variants, ∀ q : Predicate κ,
      variant.payload.equivalent q = true ↔ variant.payload.anonymous = q.anonymous) :
    variantsEquivalent variants variants' = true ↔
      anonymousVariants variants = anonymousVariants variants' := by
  induction variants generalizing variants' with
  | nil => cases variants' <;> simp [variantsEquivalent, anonymousVariants]
  | cons variant rest ihrest =>
    obtain ⟨hvariant, hrest⟩ := List.forall_mem_cons.mp ih
    cases variants' with
    | nil => simp [variantsEquivalent, anonymousVariants]
    | cons variant' rest' =>
      simp [variantsEquivalent, anonymousVariants, hvariant, ihrest rest' hrest]

/-- Equivalent predicates are those that differ in names only. -/
theorem equivalent_iff {p q : Predicate κ} :
    p.equivalent q = true ↔ p.anonymous = q.anonymous := by
  induction p using Predicate.induct generalizing q with
  | allOf size d fields invariant ihfields ihinvariant =>
    have hfields : ∀ fields', fieldsEquivalent fields fields' = true ↔
        anonymousFields fields = anonymousFields fields' := by
      intro fields'
      apply fieldsEquivalent_iff
      intro field hfield q
      exact ihfields field hfield
    cases q with
    | allOf size' d' fields' invariant' =>
      cases invariant with
      | none => cases invariant' <;> simp [equivalent, anonymous, hfields]
      | some invariant =>
        have hinvariant : ∀ q : Predicate κ,
            invariant.equivalent q = true ↔ invariant.anonymous = q.anonymous := by
          intro q
          exact ihinvariant invariant rfl
        cases invariant' <;> simp [equivalent, anonymous, hfields, hinvariant, and_assoc]
    | _ => cases invariant <;> simp [equivalent, anonymous]
  | oneOf size d offset width signed variants ih =>
    have hvariants : ∀ variants', variantsEquivalent variants variants' = true ↔
        anonymousVariants variants = anonymousVariants variants' := by
      intro variants'
      apply variantsEquivalent_iff
      intro variant hvariant q
      exact ih variant hvariant
    cases q with
    | allOf size' d' fields' invariant' => cases invariant' <;> simp [equivalent, anonymous]
    | _ => simp [equivalent, anonymous, hvariants, and_assoc]
  | passthrough d inner ih =>
    cases q with
    | allOf size' d' fields' invariant' => cases invariant' <;> simp [equivalent, anonymous]
    | _ => simp [equivalent, anonymous, ih]
  | _ =>
    cases q with
    | allOf size' d' fields' invariant' => cases invariant' <;> simp [equivalent, anonymous]
    | _ => simp [equivalent, anonymous, and_assoc]

lemma equivalent_refl (p : Predicate κ) : p.equivalent p = true :=
  equivalent_iff.mpr rfl

lemma size_eq_of_equivalent {p q : Predicate κ} (h : p.equivalent q = true) : p.size = q.size := by
  rw [← size_anonymous p, equivalent_iff.mp h, size_anonymous]

end

/-! ### Outcomes of checks -/

variable [Check κ]

omit [Check κ] in
@[simp] lemma ofLeaf_anonymous (p : Predicate κ) (bytes : Bytes) (kind : ViolationKind) :
    Violation.ofLeaf p.anonymous bytes kind = (Violation.ofLeaf p bytes kind).anonymous := by
  simp [Violation.ofLeaf, Violation.anonymous]

lemma findFieldViolation_anonymous {fields : List (FieldCheck (Predicate κ))} (bytes : Bytes)
    (ih : ∀ field ∈ fields, ∀ bytes, field.predicate.anonymous.findViolation bytes =
      anonymousOutcome (field.predicate.findViolation bytes)) :
    findFieldViolation (anonymousFields fields) bytes =
      anonymousOutcome (findFieldViolation fields bytes) := by
  induction fields with
  | nil => rfl
  | cons field rest ihrest =>
    obtain ⟨hfield, hrest⟩ := List.forall_mem_cons.mp ih
    simp only [anonymousFields, findFieldViolation, size_anonymous, Bytes.slice]
    split
    · simp only [ok_bind, hfield, ihrest hrest]
      rcases field.predicate.findViolation _ with b | _ | v <;> rfl
    · rfl

lemma findVariantViolation_anonymous {variants : List (VariantCheck (Predicate κ))}
    {width : IntWidth} {tag : UInt64} {bytes : Bytes} (unknown : Violation)
    (ih : ∀ variant ∈ variants, ∀ bytes, variant.payload.anonymous.findViolation bytes =
      anonymousOutcome (variant.payload.findViolation bytes)) :
    findVariantViolation (anonymousVariants variants) width tag unknown.anonymous bytes =
      anonymousOutcome (findVariantViolation variants width tag unknown bytes) := by
  induction variants with
  | nil => rfl
  | cons variant rest ihrest =>
    obtain ⟨hvariant, hrest⟩ := List.forall_mem_cons.mp ih
    simp only [anonymousVariants, findVariantViolation]
    split
    · exact hvariant bytes
    · exact ihrest hrest

omit [Check κ] in
/-- Loading an integer names nothing. -/
lemma loadUnsigned_anonymous {bytes : Bytes} {offset width : UInt64} {b : Breach}
    (h : loadUnsigned bytes offset width = .error b) : b.anonymous = b := by
  simp only [loadUnsigned, Bytes.slice] at h
  split at h
  · cases h; rfl
  · split at h
    · cases h; rfl
    · split at h <;> cases h; rfl

/-- Bytes that are too few or too many are reported without a look at them. -/
lemma findViolation_anonymous_of_length {p : Predicate κ} {bytes : Bytes}
    (h : bytes.length = p.size.toNat →
      p.anonymous.findViolation bytes = anonymousOutcome (p.findViolation bytes)) :
    p.anonymous.findViolation bytes = anonymousOutcome (p.findViolation bytes) := by
  by_cases hlen : bytes.length = p.size.toNat
  · exact h hlen
  · rw [findViolation.eq_def, findViolation.eq_def, if_pos (by simpa using hlen), if_pos hlen]
    simp [Breach.anonymous]

/-- Names have no part in a check but that the outcome mentions them. -/
theorem findViolation_anonymous (p : Predicate κ) (bytes : Bytes) :
    p.anonymous.findViolation bytes = anonymousOutcome (p.findViolation bytes) := by
  induction p using Predicate.induct generalizing bytes with
  | allOf size d fields invariant ihfields ihinvariant =>
    apply findViolation_anonymous_of_length
    intro (hlen : bytes.length = size.toNat)
    have hfields := findFieldViolation_anonymous bytes ihfields
    cases invariant with
    | none =>
      simpa only [anonymous, findViolation, Predicate.size, hlen, ne_eq, not_true_eq_false,
        if_false] using hfields
    | some invariant =>
      simp only [anonymous, findViolation, Predicate.size, hlen, ne_eq, not_true_eq_false,
        if_false, hfields, ihinvariant invariant rfl]
      rcases findFieldViolation fields bytes with b | _ | v
      · rfl
      · rcases invariant.findViolation bytes with b | _ | v <;> rfl
      · rfl
  | oneOf size d offset width signed variants ih =>
    apply findViolation_anonymous_of_length
    intro (hlen : bytes.length = size.toNat)
    simp only [anonymous, findViolation, Predicate.size, hlen, ne_eq, not_true_eq_false, if_false]
    cases h : loadUnsigned bytes offset width.toUInt64 with
    | error b => simp [loadUnsigned_anonymous h]
    | ok tag =>
      rw [tags_anonymousVariants, ok_bind, ok_bind]
      exact findVariantViolation_anonymous (.ofTag d offset width tag (variants.map (·.tag))) ih
  | passthrough d inner ih =>
    apply findViolation_anonymous_of_length
    intro (hlen : bytes.length = inner.size.toNat)
    simp only [anonymous, findViolation, Predicate.size, size_anonymous, hlen, ne_eq,
      not_true_eq_false, if_false, ih]
  | intRanges width signed ranges d =>
    apply findViolation_anonymous_of_length
    intro (hlen : bytes.length = width.toUInt64.toNat)
    simp only [anonymous, findViolation, Predicate.size, hlen, ne_eq, not_true_eq_false, if_false]
    cases h : loadUnsigned bytes 0 width.toUInt64 with
    | error b => simp [loadUnsigned_anonymous h]
    | ok value =>
      simp only [ok_bind]
      split <;> rfl
  | allValid size d | noneValid size d =>
    apply findViolation_anonymous_of_length
    intro (hlen : bytes.length = size.toNat)
    simp only [anonymous, findViolation, Predicate.size, hlen, ne_eq, not_true_eq_false, if_false]
    rfl
  | nonZero size d pointer | custom size d check =>
    apply findViolation_anonymous_of_length
    intro (hlen : bytes.length = size.toNat)
    simp only [anonymous, findViolation, Predicate.size, hlen, ne_eq, not_true_eq_false, if_false]
    split <;> rfl

/-- Equivalent predicates accept the same bytes. -/
theorem accepts_iff_of_equivalent [DecidableEq κ] {p q : Predicate κ} (h : p.equivalent q = true)
    {bytes : Bytes} : p.Accepts bytes ↔ q.Accepts bytes := by
  rw [Accepts, Accepts, ← anonymousOutcome_eq_none_iff, ← findViolation_anonymous,
    equivalent_iff.mp h, findViolation_anonymous, anonymousOutcome_eq_none_iff]

end Predicate

end BitValidity
