import BitValidity.Proofs.Predicate.Acceptance

/-!
# The first constraint that fails

A check goes down into the parts of a predicate and stops at the first that fails. What it reports
of a part is moved to where the part lies in the whole, and what it reports of an invariant becomes
a violation of the invariant. On the other hand there is the list of the constraints that the
predicate puts on the bytes, each with its place in the whole. The check of a well-formed predicate
reports the first of the list that fails (`findViolation_eq_firstFailure`), so it always has an
outcome, and what there is to report of a constraint is the bytes that it is about
(`isLocatedIn_of_mem_constraints`).
-/

namespace BitValidity

variable {κ : Type}

/-! ### Constraints that fail -/

namespace Constraint

variable {c : Constraint κ} {cs : List (Constraint κ)}

@[simp] lemma violation?_relocate (c : Constraint κ) (offset : UInt64) :
    (c.relocate offset).violation? = c.violation?.map (·.relocate offset) := by
  rcases c with ⟨start, inInvariant, _ | own⟩
  · rfl
  · cases inInvariant <;>
      simp [violation?, relocate, Violation.relocate, UInt64.add_assoc, UInt64.add_comm offset]

@[simp] lemma violation?_markInvariant (c : Constraint κ) :
    c.markInvariant.violation? = c.violation?.map (·.asInvariant) := by
  simp [violation?, markInvariant, Violation.asInvariant, Function.comp_def]

@[simp] lemma violation?_eq_none_iff : c.violation? = none ↔ c.failure? = none := by
  simp [violation?]

/-- What is reported of the first constraint that fails. -/
def firstFailure (cs : List (Constraint κ)) : Option Violation := cs.findSome? (·.violation?)

@[simp] lemma firstFailure_nil : firstFailure ([] : List (Constraint κ)) = none := rfl

@[simp] lemma firstFailure_append (cs cs' : List (Constraint κ)) :
    firstFailure (cs ++ cs') = (firstFailure cs).or (firstFailure cs') :=
  List.findSome?_append

@[simp] lemma firstFailure_map_relocate (cs : List (Constraint κ)) (offset : UInt64) :
    firstFailure (cs.map (·.relocate offset)) = (firstFailure cs).map (·.relocate offset) := by
  simp [firstFailure, List.findSome?_map, List.map_findSome?, Function.comp_def]

@[simp] lemma firstFailure_map_markInvariant (cs : List (Constraint κ)) :
    firstFailure (cs.map (·.markInvariant)) = (firstFailure cs).map (·.asInvariant) := by
  simp [firstFailure, List.findSome?_map, List.map_findSome?, Function.comp_def]

lemma firstFailure_eq_none_iff : firstFailure cs = none ↔ ∀ c ∈ cs, c.failure? = none := by
  simp [firstFailure]

/-- Constraints that hold are passed over. -/
lemma firstFailure_of_failure {before after : List (Constraint κ)} {own : Violation}
    (hbefore : ∀ passed ∈ before, passed.failure? = none) (hown : c.failure? = some own) :
    firstFailure (before ++ c :: after) = some { own with
      offset := c.offset + own.offset
      kind := if c.inInvariant then .invariant else own.kind } := by
  rw [firstFailure_append, firstFailure_eq_none_iff.mpr hbefore, Option.none_or, firstFailure,
    List.findSome?_cons_of_isSome] <;> simp [violation?, hown]

end Constraint

/-! ### Checks -/

namespace Predicate

open Constraint

variable [Check κ]

omit [Check κ] in
@[simp] lemma firstFailure_constraint (holds : Bool) (v : Violation) :
    firstFailure (constraint holds v : List (Constraint κ)) = if holds then none else some v := by
  cases holds <;> simp [firstFailure, constraint, violation?]

lemma findFieldViolation_eq_firstFailure {fields : List (FieldCheck (Predicate κ))} {bytes : Bytes}
    (h : ∀ field ∈ fields, field.offset.toNat + field.predicate.size.toNat ≤ bytes.length ∧
      field.predicate.findViolation (part bytes field.offset field.predicate.size) =
        .ok (firstFailure (field.predicate.constraints
          (part bytes field.offset field.predicate.size)))) :
    findFieldViolation fields bytes = .ok (firstFailure (fieldConstraints fields bytes)) := by
  induction fields with
  | nil => rfl
  | cons field rest ih =>
    obtain ⟨⟨hle, hfield⟩, hrest⟩ := List.forall_mem_cons.mp h
    rw [findFieldViolation, Bytes.slice_eq_ok hle, ok_bind, hfield, ok_bind, fieldConstraints,
      firstFailure_append, firstFailure_map_relocate, ih hrest]
    cases firstFailure (field.predicate.constraints _) <;> rfl

lemma findVariantViolation_eq_firstFailure {variants : List (VariantCheck (Predicate κ))}
    {width : IntWidth} {tag : UInt64} {unknown : Violation} {bytes : Bytes}
    (h : ∀ variant ∈ variants, variant.payload.findViolation bytes =
      .ok (firstFailure (variant.payload.constraints bytes))) :
    findVariantViolation variants width tag unknown bytes =
      .ok (firstFailure (variantConstraints variants width tag unknown bytes)) := by
  induction variants with
  | nil => simp [findVariantViolation, variantConstraints]
  | cons variant rest ih =>
    obtain ⟨hvariant, hrest⟩ := List.forall_mem_cons.mp h
    rw [findVariantViolation, variantConstraints]
    split
    · exact hvariant
    · exact ih hrest

/-- A check reports the first constraint that the bytes fail. -/
theorem findViolation_eq_firstFailure {p : Predicate κ} (hwf : p.isWellFormed) {bytes : Bytes}
    (hlen : bytes.length = p.size.toNat) :
    p.findViolation bytes = .ok (firstFailure (p.constraints bytes)) := by
  induction p using Predicate.induct generalizing bytes with
  | allValid size d => simp [findViolation, constraints, hlen]
  | noneValid size d => simp [findViolation, constraints, hlen]
  | nonZero size d pointer =>
    have hzero : (bytes.all (· == 0)) = !(LittleEndian.decode bytes != 0) := by
      rw [Bool.eq_iff_iff]
      simp [LittleEndian.decode_eq_zero_iff]
    rw [findViolation, if_neg (not_not.mpr hlen), constraints, firstFailure_constraint, hzero]
    cases LittleEndian.decode bytes != 0 <;> rfl
  | intRanges width signed ranges d =>
    have hload : loadUnsigned bytes 0 width.toUInt64 = .ok (tagOf bytes 0 width) :=
      loadUnsigned_eq_ok 0 width (by simp [hlen, Predicate.size])
    rw [findViolation, if_neg (not_not.mpr hlen), hload, ok_bind, constraints,
      firstFailure_constraint]
    split <;> rfl
  | custom size d check =>
    rw [findViolation, if_neg (not_not.mpr hlen), constraints, firstFailure_constraint]
    split <;> rfl
  | allOf size d fields invariant ihfields ihinvariant =>
    obtain ⟨hfields, hinvariant⟩ := isWellFormed_allOf_iff.mp hwf
    have hlen : bytes.length = size.toNat := hlen
    have hfields : findFieldViolation fields bytes =
        .ok (firstFailure (fieldConstraints fields bytes)) := by
      apply findFieldViolation_eq_firstFailure
      intro field hfield
      obtain ⟨hle, hwf⟩ := hfields field hfield
      have hle := hlen ▸ hle
      exact ⟨hle, ihfields field hfield hwf (length_part hle)⟩
    cases invariant with
    | none => rw [findViolation, if_neg (not_not.mpr hlen), hfields, constraints]
    | some invariant =>
      obtain ⟨hsize, hwf⟩ := hinvariant invariant rfl
      rw [findViolation, if_neg (not_not.mpr hlen), hfields, ok_bind, constraints,
        firstFailure_append, firstFailure_map_markInvariant,
        ihinvariant invariant rfl hwf (hsize ▸ hlen)]
      cases firstFailure (fieldConstraints fields bytes) <;> rfl
  | oneOf size d offset width signed variants ih =>
    obtain ⟨hle, hvariants⟩ := isWellFormed_oneOf_iff.mp hwf
    have hlen : bytes.length = size.toNat := hlen
    rw [findViolation_oneOf hlen hle, constraints]
    apply findVariantViolation_eq_firstFailure
    intro variant hvariant
    obtain ⟨hsize, hwf⟩ := hvariants variant hvariant
    exact ih variant hvariant hwf (hsize ▸ hlen)
  | passthrough d inner ih =>
    rw [findViolation, if_neg (not_not.mpr hlen), constraints]
    exact ih hwf hlen

/-- A check of a well-formed predicate breaches no precondition. -/
theorem exists_findViolation {p : Predicate κ} (hwf : p.isWellFormed) {bytes : Bytes}
    (hlen : bytes.length = p.size.toNat) : ∃ outcome, p.findViolation bytes = .ok outcome :=
  ⟨_, findViolation_eq_firstFailure hwf hlen⟩

end Predicate

/-! ### Where constraints lie -/

/-- What is reported of the constraint lies inside the bytes and shows what is stored there. No sum
of offsets wraps on the way. -/
structure Constraint.IsLocatedIn (c : Constraint κ) (bytes : Bytes) : Prop where
  /-- Only a mark makes a failure one of an invariant. -/
  kind_ne : ∀ own ∈ c.failure?, own.kind ≠ .invariant
  inside : ∀ own ∈ c.failure?,
    c.offset.toNat + own.offset.toNat + own.length.toNat ≤ bytes.length
  bits_eq : ∀ own ∈ c.failure?, own.bits =
    .ofMemory ((bytes.drop (c.offset.toNat + own.offset.toNat)).take own.length.toNat)

namespace Constraint.IsLocatedIn

variable {c : Constraint κ} {bytes : Bytes}

lemma toNat_add (h : c.IsLocatedIn bytes) (hword : bytes.length < 2 ^ 64) {own : Violation}
    (hown : own ∈ c.failure?) :
    (c.offset + own.offset).toNat = c.offset.toNat + own.offset.toNat := by
  have := h.inside own hown
  exact toNat_add_of_lt (by omega)

lemma markInvariant (h : c.IsLocatedIn bytes) : c.markInvariant.IsLocatedIn bytes :=
  ⟨h.kind_ne, h.inside, h.bits_eq⟩

/-- What lies inside a part lies inside the whole, as far behind the start of the part. -/
lemma relocate {offset size : UInt64} (h : c.IsLocatedIn (Predicate.part bytes offset size))
    (hle : offset.toNat + size.toNat ≤ bytes.length) (hword : bytes.length < 2 ^ 64) :
    (c.relocate offset).IsLocatedIn bytes := by
  have hinside : ∀ own ∈ c.failure?,
      c.offset.toNat + own.offset.toNat + own.length.toNat ≤ size.toNat := by
    intro own hown
    simpa [Predicate.length_part hle] using h.inside own hown
  have hoffset : ∀ own ∈ c.failure?,
      (c.relocate offset).offset.toNat = c.offset.toNat + offset.toNat := by
    intro own hown
    have := hinside own hown
    exact toNat_add_of_lt (by omega)
  constructor
  · exact h.kind_ne
  · intro own hown
    have := hinside own hown
    rw [hoffset own hown]
    omega
  · intro own hown
    have := hinside own hown
    rw [h.bits_eq own hown, hoffset own hown, Predicate.part, List.drop_take, List.take_take,
      List.drop_drop]
    congr 3 <;> omega

end Constraint.IsLocatedIn

namespace Predicate

variable [Check κ] {bytes : Bytes} {c : Constraint κ}

omit [Check κ] in
lemma isLocatedIn_of_mem_constraint {holds : Bool} {v : Violation} (hkind : v.kind ≠ .invariant)
    (hinside : v.offset.toNat + v.length.toNat ≤ bytes.length)
    (hbits : v.bits = .ofMemory ((bytes.drop v.offset.toNat).take v.length.toNat))
    (hc : c ∈ constraint holds v) : c.IsLocatedIn bytes := by
  obtain rfl := List.mem_singleton.mp hc
  cases holds
  · constructor <;> simpa
  · constructor <;> simp

omit [Check κ] in
/-- A leaf is about the whole of the bytes. -/
lemma isLocatedIn_of_mem_leaf {leaf : Predicate κ} {holds : Bool} {kind : ViolationKind}
    (hlen : bytes.length = leaf.size.toNat) (hkind : kind ≠ .invariant)
    (hc : c ∈ constraint holds (.ofLeaf leaf bytes kind)) : c.IsLocatedIn bytes := by
  refine isLocatedIn_of_mem_constraint hkind ?_ ?_ hc
  · simp [Violation.ofLeaf, hlen]
  · simp [Violation.ofLeaf, ← hlen]

omit [Check κ] in
/-- The bits of a tag that no variant has are those of the bytes that it was loaded from. -/
lemma isLocatedIn_of_mem_tag {d : String} {offset : UInt64} {width : IntWidth} {holds : Bool}
    {known : List UInt64} (hle : offset.toNat + width.bytes ≤ bytes.length)
    (hc : c ∈ constraint holds (.ofTag d offset width (tagOf bytes offset width) known)) :
    c.IsLocatedIn bytes := by
  refine isLocatedIn_of_mem_constraint (by simp [Violation.ofTag]) ?_ ?_ hc
  · simpa [Violation.ofTag] using hle
  · exact ofUnsigned_tagOf hle

lemma mem_fieldConstraints_iff {fields : List (FieldCheck (Predicate κ))} :
    c ∈ fieldConstraints fields bytes ↔ ∃ field ∈ fields,
      ∃ own ∈ field.predicate.constraints (part bytes field.offset field.predicate.size),
        own.relocate field.offset = c := by
  induction fields with
  | nil => simp [fieldConstraints]
  | cons field rest ih => simp [fieldConstraints, ih]

lemma mem_payload_or_unknown {variants : List (VariantCheck (Predicate κ))} {width : IntWidth}
    {tag : UInt64} {unknown : Violation}
    (hc : c ∈ variantConstraints variants width tag unknown bytes) :
    (∃ variant ∈ variants, c ∈ variant.payload.constraints bytes) ∨
      c ∈ constraint false unknown := by
  induction variants with
  | nil => exact .inr hc
  | cons variant rest ih =>
    rw [variantConstraints] at hc
    split at hc
    · exact .inl ⟨variant, List.mem_cons_self, hc⟩
    · refine (ih hc).imp_left ?_
      rintro ⟨other, hmem, hc⟩
      exact ⟨other, List.mem_cons_of_mem _ hmem, hc⟩

/-- Every constraint that a well-formed predicate puts on bytes is about bytes among them. -/
theorem isLocatedIn_of_mem_constraints {p : Predicate κ} (hwf : p.isWellFormed)
    (hlen : bytes.length = p.size.toNat) (hc : c ∈ p.constraints bytes) :
    c.IsLocatedIn bytes := by
  induction p using Predicate.induct generalizing bytes c with
  | allValid size d => exact isLocatedIn_of_mem_leaf hlen (by decide) hc
  | noneValid size d => exact isLocatedIn_of_mem_leaf hlen (by decide) hc
  | nonZero size d pointer =>
    exact isLocatedIn_of_mem_leaf hlen (by cases pointer <;> decide) hc
  | intRanges width signed ranges d => exact isLocatedIn_of_mem_leaf hlen (by decide) hc
  | custom size d check => exact isLocatedIn_of_mem_leaf hlen (by decide) hc
  | allOf size d fields invariant ihfields ihinvariant =>
    obtain ⟨hfields, hinvariant⟩ := isWellFormed_allOf_iff.mp hwf
    have hlen : bytes.length = size.toNat := hlen
    have hfields : ∀ c ∈ fieldConstraints fields bytes, c.IsLocatedIn bytes := by
      intro c hc
      obtain ⟨field, hfield, own, hown, rfl⟩ := mem_fieldConstraints_iff.mp hc
      obtain ⟨hle, hwf⟩ := hfields field hfield
      have hle := hlen ▸ hle
      exact (ihfields field hfield hwf (length_part hle) hown).relocate hle
        (hlen ▸ UInt64.toNat_lt _)
    cases invariant with
    | none => exact hfields c hc
    | some invariant =>
      obtain ⟨hsize, hwf⟩ := hinvariant invariant rfl
      rcases List.mem_append.mp hc with hc | hc
      · exact hfields c hc
      · obtain ⟨own, hown, rfl⟩ := List.mem_map.mp hc
        exact (ihinvariant invariant rfl hwf (hsize ▸ hlen) hown).markInvariant
  | oneOf size d offset width signed variants ih =>
    obtain ⟨hle, hvariants⟩ := isWellFormed_oneOf_iff.mp hwf
    have hlen : bytes.length = size.toNat := hlen
    rcases mem_payload_or_unknown hc with ⟨variant, hvariant, hc⟩ | hc
    · obtain ⟨hsize, hwf⟩ := hvariants variant hvariant
      exact ih variant hvariant hwf (hsize ▸ hlen) hc
    · exact isLocatedIn_of_mem_tag (hlen ▸ hle) hc
  | passthrough d inner ih => exact ih hwf hlen hc

/-! ### Reports -/

/-- A check of a well-formed predicate reports nothing exactly if all constraints hold. Of the first
that fails it reports what there is to say of the constraint alone, but where it lies in the whole,
and as a violation of an invariant if it is part of one. -/
theorem reports_first_failing_constraint {p : Predicate κ} (hwf : p.isWellFormed)
    (hlen : bytes.length = p.size.toNat) :
    (p.findViolation bytes = .ok none ↔ ∀ c ∈ p.constraints bytes, c.failure? = none) ∧
      ∀ before c after own, p.constraints bytes = before ++ c :: after →
        (∀ passed ∈ before, passed.failure? = none) → c.failure? = some own →
        ∃ v, p.findViolation bytes = .ok (some v) ∧
          v.offset.toNat = c.offset.toNat + own.offset.toNat ∧
          (v.kind = .invariant ↔ c.inInvariant = true) ∧
          (c.inInvariant = false → v.kind = own.kind) ∧
          v = { own with offset := v.offset, kind := v.kind } := by
  rw [findViolation_eq_firstFailure hwf hlen]
  constructor
  · rw [Except.ok.injEq, Constraint.firstFailure_eq_none_iff]
  · intro before c after own hconstraints hbefore hown
    have hlocated : c.IsLocatedIn bytes := by
      refine isLocatedIn_of_mem_constraints hwf hlen ?_
      rw [hconstraints]
      exact List.mem_append_right _ List.mem_cons_self
    have hword := hlen ▸ p.size.toNat_lt
    rw [hconstraints, Constraint.firstFailure_of_failure hbefore hown]
    refine ⟨_, rfl, hlocated.toNat_add hword hown, ?_, ?_, rfl⟩
    · cases c.inInvariant <;> simp [hlocated.kind_ne own hown]
    · intro hplain
      simp [hplain]

/-- A pointer that may be missing, behind its tag. -/
def link : Predicate Empty :=
  .oneOf 3 "link" 0 .one false [⟨0, .allValid 3 "none", "none"⟩,
    ⟨1, .allOf 3 "some" [⟨1, .nonZero 2 "pointer" true, "to"⟩] none, "some"⟩]

/-- Behind a flag there is a link, under another name. An invariant is about what is left. -/
def frame : Predicate Empty :=
  .allOf 6 "frame" [⟨0, .intRanges .one false [⟨0, 1⟩] "bool", "flag"⟩,
      ⟨1, .passthrough "next" link, "next"⟩]
    (some (.allOf 6 "checked frame" [⟨4, .nonZero 2 "sum" false, "sum"⟩] none))

theorem reports_first_failing_constraint_frame :
    ∃ v, frame.findViolation [1, 1, 5, 0, 0, 0] = .ok (some v) ∧
      v.offset.toNat = 4 ∧ v.kind = .invariant := by
  have hwf : frame.isWellFormed := rfl
  have hlen : ([1, 1, 5, 0, 0, 0] : Bytes).length = frame.size.toNat := rfl
  -- the flag and the pointer hold
  have hconstraints : frame.constraints [1, 1, 5, 0, 0, 0] =
      [⟨0, false, none⟩, ⟨2, false, none⟩] ++ ⟨4, true, some (.ofLeaf
        (.nonZero 2 "sum" false : Predicate Empty) [0, 0] .invalidBitPattern)⟩ :: [] := rfl
  obtain ⟨-, hfirst⟩ := reports_first_failing_constraint hwf hlen
  obtain ⟨v, hv, hoffset, hkind, -⟩ := hfirst _ _ _ _ hconstraints (by simp) rfl
  exact ⟨v, hv, hoffset, hkind.mpr rfl⟩

/-- A check of a well-formed predicate has an outcome, and a violation that it reports lies inside
the bytes and shows those that are stored there. -/
theorem violation_points_at_bytes {p : Predicate κ} (hwf : p.isWellFormed)
    (hlen : bytes.length = p.size.toNat) :
    ∃ outcome, p.findViolation bytes = .ok outcome ∧ ∀ v ∈ outcome,
      v.offset.toNat + v.length.toNat ≤ p.size.toNat ∧
        v.bits.bytes = (bytes.drop v.offset.toNat).take v.length.toNat := by
  refine ⟨_, findViolation_eq_firstFailure hwf hlen, ?_⟩
  intro v hv
  obtain ⟨c, hc, hv⟩ := List.exists_of_findSome?_eq_some hv
  obtain ⟨own, hown, rfl⟩ := Option.map_eq_some_iff.mp hv
  have hlocated := isLocatedIn_of_mem_constraints hwf hlen hc
  have hoffset := hlocated.toNat_add (hlen ▸ p.size.toNat_lt) hown
  constructor
  · rw [hoffset, ← hlen]
    exact hlocated.inside own hown
  · rw [hoffset, hlocated.bits_eq own hown]
    rfl

theorem violation_points_at_bytes_frame :
    ∃ v, frame.findViolation [1, 9, 5, 0, 0, 7] = .ok (some v) ∧
      v.offset.toNat + v.length.toNat ≤ 6 ∧
      v.bits.bytes =
        (([1, 9, 5, 0, 0, 7] : Bytes).drop v.offset.toNat).take v.length.toNat := by
  have hwf : frame.isWellFormed := rfl
  have hlen : ([1, 9, 5, 0, 0, 7] : Bytes).length = frame.size.toNat := rfl
  have hreport : frame.findViolation [1, 9, 5, 0, 0, 7] =
      .ok (some ⟨.invalidDiscriminant, 1, 1, ⟨[9]⟩, .ofValues [0, 1] 1, "link"⟩) := rfl
  obtain ⟨outcome, houtcome, hpoints⟩ := violation_points_at_bytes hwf hlen
  obtain rfl := Except.ok.inj (hreport.symm.trans houtcome)
  exact ⟨_, hreport, hpoints _ rfl⟩

end Predicate

end BitValidity
