import BitValidity.Proofs.Predicate.Constraints

/-!
# Bytes that are not inspected

A check looks at some of the bytes only, and at which ones depends on the bytes: the tag of a choice
decides whose bytes count. Padding, the payloads of the other variants and the bytes of a leaf that
accepts everything are passed over. Two strings that are the same wherever a check of the first
looks are checked alike: the second is looked at in the same places, and what is reported of the two
is the same (`findViolation_congr_of_agreesOn`).
-/

namespace BitValidity

variable {κ : Type}

namespace Predicate

/-- The second bytes are the same wherever a check of the first looks. -/
def AgreesOn (p : Predicate κ) (bytes bytes' : Bytes) : Prop :=
  ∀ i, p.inspects bytes i = true → bytes'[i]? = bytes[i]?

/-! ### Parts that are inspected -/

section

variable {fields : List (FieldCheck (Predicate κ))} {bytes bytes' : Bytes} {i : ℕ}

/-- A byte is inspected in the whole if it is inspected in some field. -/
lemma fieldsInspect_iff : fieldsInspect fields bytes i = true ↔
    ∃ field ∈ fields, field.offset.toNat ≤ i ∧
      field.predicate.inspects (part bytes field.offset field.predicate.size)
        (i - field.offset.toNat) = true := by
  induction fields with
  | nil => simp [fieldsInspect]
  | cons field rest ih => simp [fieldsInspect, ih]

/-- Bytes that agree where any field is inspected have parts that agree for each field. -/
lemma agreesOn_part {field : FieldCheck (Predicate κ)} (hfield : field ∈ fields)
    (h : ∀ i, fieldsInspect fields bytes i = true → bytes'[i]? = bytes[i]?) :
    field.predicate.AgreesOn (part bytes field.offset field.predicate.size)
      (part bytes' field.offset field.predicate.size) := by
  intro i hi
  have hwhole : bytes'[field.offset.toNat + i]? = bytes[field.offset.toNat + i]? := by
    refine h _ (fieldsInspect_iff.mpr ⟨field, hfield, Nat.le_add_right _ _, ?_⟩)
    rwa [Nat.add_sub_cancel_left]
  rw [getElem?_part, getElem?_part, hwhole]

/-- Strings of one length that agree on every index below it are the same. -/
lemma eq_of_agree_below {n : ℕ} (hlen : bytes.length = n) (hlen' : bytes'.length = n)
    (h : ∀ i < n, bytes'[i]? = bytes[i]?) : bytes' = bytes := by
  apply List.ext_getElem?
  intro i
  by_cases hi : i < n
  · exact h i hi
  · rw [List.getElem?_eq_none (by omega), List.getElem?_eq_none (by omega)]

end

/-! ### Checks of bytes that agree -/

variable [Check κ] {p : Predicate κ} {bytes bytes' : Bytes}

/-- The predicate looks at the same bytes of the two strings, and asks the same of both. -/
structure TreatsAlike (p : Predicate κ) (bytes bytes' : Bytes) : Prop where
  inspects_eq : p.inspects bytes' = p.inspects bytes
  constraints_eq : p.constraints bytes' = p.constraints bytes

lemma TreatsAlike.of_eq (h : bytes' = bytes) : p.TreatsAlike bytes bytes' := by
  subst h
  exact ⟨rfl, rfl⟩

lemma fields_treatAlike {fields : List (FieldCheck (Predicate κ))}
    (h : ∀ field ∈ fields, field.predicate.TreatsAlike
      (part bytes field.offset field.predicate.size)
      (part bytes' field.offset field.predicate.size)) :
    fieldsInspect fields bytes' = fieldsInspect fields bytes ∧
      fieldConstraints fields bytes' = fieldConstraints fields bytes := by
  induction fields with
  | nil => exact ⟨rfl, rfl⟩
  | cons field rest ih =>
    obtain ⟨hfield, hrest⟩ := List.forall_mem_cons.mp h
    obtain ⟨hinspects, hconstraints⟩ := ih hrest
    constructor
    · funext i
      rw [fieldsInspect, fieldsInspect, hfield.inspects_eq, hinspects]
    · rw [fieldConstraints, fieldConstraints, hfield.constraints_eq, hconstraints]

/-- Of the variants of a choice only the one that the tag selects is asked. -/
lemma variants_treatAlike {variants : List (VariantCheck (Predicate κ))} {width : IntWidth}
    {tag : UInt64} {unknown : Violation}
    (h : ∀ variant ∈ variants, variant.payload.AgreesOn bytes bytes' →
      variant.payload.TreatsAlike bytes bytes')
    (hagree : ∀ i, variantInspects variants width tag bytes i = true → bytes'[i]? = bytes[i]?) :
    variantInspects variants width tag bytes' = variantInspects variants width tag bytes ∧
      variantConstraints variants width tag unknown bytes' =
        variantConstraints variants width tag unknown bytes := by
  induction variants with
  | nil => exact ⟨rfl, rfl⟩
  | cons variant rest ih =>
    obtain ⟨hvariant, hrest⟩ := List.forall_mem_cons.mp h
    by_cases htag : variant.tag &&& byteMask width.bytes = tag
    · simp only [variantInspects, if_pos htag] at hagree
      have halike := hvariant hagree
      constructor
      · funext i
        simp only [variantInspects, if_pos htag, halike.inspects_eq]
      · simp only [variantConstraints, if_pos htag, halike.constraints_eq]
    · simp only [variantInspects, if_neg htag] at hagree
      obtain ⟨hinspects, hconstraints⟩ := ih hrest hagree
      constructor
      · funext i
        simp only [variantInspects, if_neg htag, hinspects]
      · simp only [variantConstraints, if_neg htag, hconstraints]

/-- Bytes that agree where the first are inspected are treated alike. -/
theorem treatsAlike_of_agreesOn (hwf : p.isWellFormed) (hlen : bytes.length = p.size.toNat)
    (hlen' : bytes'.length = p.size.toNat) (hagree : p.AgreesOn bytes bytes') :
    p.TreatsAlike bytes bytes' := by
  induction p using Predicate.induct generalizing bytes bytes' with
  | allValid size d => exact ⟨rfl, rfl⟩
  | noneValid size d =>
    exact .of_eq (eq_of_agree_below hlen hlen' fun i hi => hagree i (decide_eq_true hi))
  | nonZero size d pointer =>
    exact .of_eq (eq_of_agree_below hlen hlen' fun i hi => hagree i (decide_eq_true hi))
  | intRanges width signed ranges d =>
    have hlen : bytes.length = width.bytes := hlen.trans width.toNat_toUInt64
    have hlen' : bytes'.length = width.bytes := hlen'.trans width.toNat_toUInt64
    exact .of_eq (eq_of_agree_below hlen hlen' fun i hi => hagree i (decide_eq_true hi))
  | custom size d check =>
    exact .of_eq (eq_of_agree_below hlen hlen' fun i hi => hagree i (decide_eq_true hi))
  | allOf size d fields invariant ihfields _ =>
    have hlen : bytes.length = size.toNat := hlen
    have hlen' : bytes'.length = size.toNat := hlen'
    cases invariant with
    | some invariant =>
      exact .of_eq (eq_of_agree_below hlen hlen' fun i hi => hagree i (decide_eq_true hi))
    | none =>
      obtain ⟨hfields, -⟩ := isWellFormed_allOf_iff.mp hwf
      have halike : ∀ field ∈ fields, field.predicate.TreatsAlike
          (part bytes field.offset field.predicate.size)
          (part bytes' field.offset field.predicate.size) := by
        intro field hfield
        obtain ⟨hle, hwf⟩ := hfields field hfield
        exact ihfields field hfield hwf (length_part (hlen ▸ hle)) (length_part (hlen' ▸ hle))
          (agreesOn_part hfield hagree)
      obtain ⟨hinspects, hconstraints⟩ := fields_treatAlike halike
      exact ⟨hinspects, hconstraints⟩
  | oneOf size d offset width signed variants ih =>
    obtain ⟨-, hvariants⟩ := isWellFormed_oneOf_iff.mp hwf
    have hlen : bytes.length = size.toNat := hlen
    have hlen' : bytes'.length = size.toNat := hlen'
    -- the same variant is selected, since the tag is inspected
    have htag : tagOf bytes' offset width = tagOf bytes offset width := by
      rw [tagOf, tagOf, part_congr]
      intro i hle hlt
      rw [IntWidth.toNat_toUInt64] at hlt
      exact hagree i (by simp [inspects, hle, hlt])
    have hagree : ∀ i, variantInspects variants width (tagOf bytes offset width) bytes i = true →
        bytes'[i]? = bytes[i]? := fun i hi => hagree i (by simp [inspects, hi])
    have halike : ∀ variant ∈ variants, variant.payload.AgreesOn bytes bytes' →
        variant.payload.TreatsAlike bytes bytes' := by
      intro variant hvariant
      obtain ⟨hsize, hwf⟩ := hvariants variant hvariant
      exact ih variant hvariant hwf (hsize ▸ hlen) (hsize ▸ hlen')
    obtain ⟨hinspects, hconstraints⟩ := variants_treatAlike halike hagree
    constructor
    · funext i
      rw [inspects, inspects, htag, hinspects]
    · rw [constraints, constraints, htag, hconstraints]
  | passthrough d inner ih =>
    obtain ⟨hinspects, hconstraints⟩ := ih hwf hlen hlen' hagree
    exact ⟨hinspects, hconstraints⟩

/-- It makes no difference of which of the two strings the inspected bytes are taken. -/
theorem AgreesOn.symm (hwf : p.isWellFormed) (hlen : bytes.length = p.size.toNat)
    (hlen' : bytes'.length = p.size.toNat) (hagree : p.AgreesOn bytes bytes') :
    p.AgreesOn bytes' bytes := by
  intro i hi
  rw [(treatsAlike_of_agreesOn hwf hlen hlen' hagree).inspects_eq] at hi
  exact (hagree i hi).symm

/-! ### Reports -/

/-- A check reports the same of bytes that agree wherever the check of the first looks: nothing of
both, or one violation of both. -/
theorem findViolation_congr_of_agreesOn (hwf : p.isWellFormed) (hlen : bytes.length = p.size.toNat)
    (hlen' : bytes'.length = p.size.toNat)
    (hagree : ∀ i, p.inspects bytes i = true → bytes'[i]? = bytes[i]?) :
    ∃ outcome, p.findViolation bytes = .ok outcome ∧ p.findViolation bytes' = .ok outcome := by
  obtain ⟨-, hconstraints⟩ := treatsAlike_of_agreesOn hwf hlen hlen' hagree
  refine ⟨_, findViolation_eq_firstFailure hwf hlen, ?_⟩
  rw [findViolation_eq_firstFailure hwf hlen', hconstraints]

/-- A flag and a link, with padding behind both. -/
def paddedLink : Predicate Empty :=
  .allOf 8 "padded link" [⟨0, .intRanges .one false [⟨0, 1⟩] "bool", "flag"⟩,
    ⟨4, .passthrough "next" link, "next"⟩] none

theorem findViolation_congr_of_agreesOn_paddedLink :
    ∃ v, paddedLink.findViolation [2, 10, 11, 12, 0, 13, 14, 15] = .ok (some v) ∧
      paddedLink.findViolation [2, 20, 21, 22, 0, 23, 24, 25] = .ok (some v) := by
  have hwf : paddedLink.isWellFormed := rfl
  -- only the flag and the tag of the link are inspected, since there is no pointer
  have hagree : ∀ i, paddedLink.inspects [2, 10, 11, 12, 0, 13, 14, 15] i = true →
      ([2, 20, 21, 22, 0, 23, 24, 25] : Bytes)[i]? =
        ([2, 10, 11, 12, 0, 13, 14, 15] : Bytes)[i]? := by
    have hbelow : ∀ i < 8, paddedLink.inspects [2, 10, 11, 12, 0, 13, 14, 15] i = true →
        ([2, 20, 21, 22, 0, 23, 24, 25] : Bytes)[i]? =
          ([2, 10, 11, 12, 0, 13, 14, 15] : Bytes)[i]? := by decide
    intro i hi
    by_cases hlt : i < 8
    · exact hbelow i hlt hi
    · rw [List.getElem?_eq_none (by simpa using hlt), List.getElem?_eq_none (by simpa using hlt)]
  have hreport : paddedLink.findViolation [2, 10, 11, 12, 0, 13, 14, 15] =
      .ok (some (.ofLeaf (.intRanges .one false [⟨0, 1⟩] "bool" : Predicate Empty) [2]
        .invalidBitPattern)) := rfl
  obtain ⟨outcome, houtcome, hother⟩ := findViolation_congr_of_agreesOn hwf rfl rfl hagree
  obtain rfl := Except.ok.inj (hreport.symm.trans houtcome)
  exact ⟨_, hreport, hother⟩

end Predicate

end BitValidity
