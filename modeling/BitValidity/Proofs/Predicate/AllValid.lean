import BitValidity.Predicate.Extremes
import BitValidity.Proofs.Predicate.Acceptance
import BitValidity.Proofs.Word

/-!
# Predicates that accept everything

`admitsAll` looks at the shape of a predicate and of its integer leaves at the ends of their ranges,
without the bytes above the width. A signed comparison does not disregard those bytes, so a range
that is taken to cover its domain can hold nothing at all. What `admitsAll` says is right exactly
when the ranges of every signed leaf cover the domain (`admitsAll_correct_iff`), and they do when
their ends are integers of the width (`acceptsAll_of_admitsAll`).
-/

namespace BitValidity

variable {κ : Type}

/-! ### Ranges -/

namespace IntRange

/-- The integers that lie in one of the ranges, as the ends of these are compared. -/
def covered (width : IntWidth) (signed : Bool) (ranges : List IntRange) : Set ℤ :=
  { x | ∃ r ∈ ranges, x ∈ Set.Icc (width.integerOf signed r.first) (width.integerOf signed r.last) }

lemma covered_cons {width : IntWidth} {signed : Bool} (r : IntRange) (ranges : List IntRange) :
    covered width signed (r :: ranges) =
      Set.Icc (width.integerOf signed r.first) (width.integerOf signed r.last) ∪
        covered width signed ranges := by
  ext x
  simp [covered]

lemma coversDomain_iff {r : IntRange} {width : IntWidth} {signed : Bool} :
    r.coversDomain width signed = true ↔
      r.first.toNat % 256 ^ width.bytes = (if signed then 2 ^ (8 * width.bytes - 1) else 0) ∧
      r.last.toNat % 256 ^ width.bytes =
        (if signed then 2 ^ (8 * width.bytes - 1) else 256 ^ width.bytes) - 1 := by
  simp only [coversDomain, Bool.and_eq_true, beq_iff_eq, ← UInt64.toNat_inj,
    toNat_and_byteMask]
  cases signed <;> cases width <;> rfl

/-- A range that seems to cover the domain does, if its ends are integers of the width or are
compared without a sign. -/
lemma domain_subset_of_coversDomain {r : IntRange} {width : IntWidth} {signed : Bool}
    (h : r.coversDomain width signed = true) (hfits : signed = true → r.fits width = true) :
    width.domain signed ⊆
      Set.Icc (width.integerOf signed r.first) (width.integerOf signed r.last) := by
  obtain ⟨hfirst, hlast⟩ := coversDomain_iff.mp h
  intro x hx
  cases signed with
  | true =>
    obtain ⟨hf, hl⟩ : r.first.toNat < 256 ^ width.bytes ∧ r.last.toNat < 256 ^ width.bytes := by
      simpa [fits, shiftLeft_bytes] using hfits rfl
    rw [Nat.mod_eq_of_lt hf] at hfirst
    rw [Nat.mod_eq_of_lt hl] at hlast
    simp only [integerOf_of_lt hf, integerOf_of_lt hl, hfirst, hlast, IntWidth.domain, if_true,
      Set.mem_Icc, Set.mem_Ico] at hx ⊢
    cases width <;> simp only [IntWidth.bytes, Int.bmod_def] at hx ⊢ <;> norm_num at hx ⊢ <;> omega
  | false =>
    simp only [Bool.false_eq_true, if_false] at hfirst hlast
    have hpos : 0 < 256 ^ width.bytes := by positivity
    simp only [IntWidth.domain, IntWidth.integerOf, Bool.false_eq_true, if_false, Set.mem_Ico,
      Set.mem_Icc, hfirst, hlast] at hx ⊢
    push_cast [Nat.cast_sub (Nat.succ_le_of_lt hpos)]
    omega

end IntRange

namespace Predicate

/-! ### Leaves -/

mutual

/-- The leaves of a predicate, those of invariants and of all variants included. -/
def leaves : Predicate κ → List (Predicate κ)
  | allOf _ _ fields none => leavesOfFields fields
  | allOf _ _ fields (some invariant) => leavesOfFields fields ++ invariant.leaves
  | oneOf _ _ _ _ _ variants => leavesOfVariants variants
  | passthrough _ inner => inner.leaves
  | leaf => [leaf]

def leavesOfFields : List (FieldCheck (Predicate κ)) → List (Predicate κ)
  | [] => []
  | field :: rest => field.predicate.leaves ++ leavesOfFields rest

def leavesOfVariants : List (VariantCheck (Predicate κ)) → List (Predicate κ)
  | [] => []
  | variant :: rest => variant.payload.leaves ++ leavesOfVariants rest

end

@[simp] lemma leavesOfFields_eq (fields : List (FieldCheck (Predicate κ))) :
    leavesOfFields fields = fields.flatMap (·.predicate.leaves) := by
  induction fields with
  | nil => rfl
  | cons field rest ih => simp [leavesOfFields, ih]

@[simp] lemma leavesOfVariants_eq (variants : List (VariantCheck (Predicate κ))) :
    leavesOfVariants variants = variants.flatMap (·.payload.leaves) := by
  induction variants with
  | nil => rfl
  | cons variant rest ih => simp [leavesOfVariants, ih]

lemma mem_leaves_allOf {size : UInt64} {d : String} {fields : List (FieldCheck (Predicate κ))}
    {invariant : Option (Predicate κ)} {leaf : Predicate κ} :
    leaf ∈ (allOf size d fields invariant).leaves ↔
      (∃ field ∈ fields, leaf ∈ field.predicate.leaves) ∨ ∃ p ∈ invariant, leaf ∈ p.leaves := by
  cases invariant <;> simp [leaves]

/-- A condition on every leaf is one on the list of leaves. -/
lemma allLeaves_eq (condition : Predicate κ → Bool) (p : Predicate κ) :
    p.allLeaves condition = p.leaves.all condition := by
  induction p using Predicate.induct with
  | allOf size d fields invariant ihfields ihinvariant =>
    have hfields : fieldsLeaves condition fields = (leavesOfFields fields).all condition := by
      induction fields with
      | nil => rfl
      | cons field rest ih =>
        obtain ⟨hfield, hrest⟩ := List.forall_mem_cons.mp ihfields
        rw [fieldsLeaves, leavesOfFields, List.all_append, hfield, ih hrest]
    cases invariant with
    | none => exact hfields
    | some invariant =>
      rw [allLeaves, leaves, List.all_append, hfields, ihinvariant invariant rfl]
  | oneOf size d offset width signed variants ih =>
    show variantsLeaves condition variants = (leavesOfVariants variants).all condition
    induction variants with
    | nil => rfl
    | cons variant rest ihrest =>
      obtain ⟨hvariant, hrest⟩ := List.forall_mem_cons.mp ih
      rw [variantsLeaves, leavesOfVariants, List.all_append, hvariant, ihrest hrest]
  | passthrough d inner ih => exact ih
  | _ => simp [allLeaves, leaves]

/-! ### Sound predicates -/

lemma isSound_iff {p : Predicate κ} :
    p.isSound = true ↔ p.isWellFormed = true ∧ p.rangesFit = true := by
  simp [isSound]

lemma isSound_intRanges_iff {width : IntWidth} {signed : Bool} {ranges : List IntRange}
    {d : String} :
    (intRanges width signed ranges d : Predicate κ).isSound = true ↔
      ∀ r ∈ ranges, r.fits width = true := by
  simp [isSound, isWellFormed, rangesFit, allLeaves]

lemma isSound_allOf_iff {size : UInt64} {d : String} {fields : List (FieldCheck (Predicate κ))}
    {invariant : Option (Predicate κ)} :
    (allOf size d fields invariant).isSound = true ↔
      (∀ field ∈ fields, field.offset.toNat + field.predicate.size.toNat ≤ size.toNat ∧
        field.predicate.isSound = true) ∧
      ∀ p ∈ invariant, p.size = size ∧ p.isSound = true := by
  simp only [isSound_iff, isWellFormed_allOf_iff, rangesFit, allLeaves_eq, List.all_eq_true,
    mem_leaves_allOf]
  grind

lemma isSound_oneOf_iff {size : UInt64} {d : String} {offset : UInt64} {width : IntWidth}
    {signed : Bool} {variants : List (VariantCheck (Predicate κ))} :
    (oneOf size d offset width signed variants).isSound = true ↔
      offset.toNat + width.bytes ≤ size.toNat ∧
        ∀ variant ∈ variants, variant.payload.size = size ∧ variant.payload.isSound = true := by
  simp only [isSound_iff, isWellFormed_oneOf_iff, rangesFit, allLeaves_eq, List.all_eq_true, leaves,
    leavesOfVariants_eq, List.mem_flatMap]
  grind

/-! ### Signed leaves -/

/-- The ranges of every signed leaf hold all integers of its width, as a check compares them. -/
def SignedLeavesCover (p : Predicate κ) : Prop :=
  ∀ width ranges d, intRanges width true ranges d ∈ p.leaves →
    width.domain true ⊆ IntRange.covered width true ranges

lemma signedLeavesCover_allOf {size : UInt64} {d : String}
    {fields : List (FieldCheck (Predicate κ))} :
    (allOf size d fields none).SignedLeavesCover ↔
      ∀ field ∈ fields, field.predicate.SignedLeavesCover := by
  simp only [SignedLeavesCover, mem_leaves_allOf, Option.mem_def, reduceCtorEq, false_and,
    exists_false, or_false]
  constructor
  · intro h field hfield width ranges d hleaf
    exact h width ranges d ⟨field, hfield, hleaf⟩
  · rintro h width ranges d ⟨field, hfield, hleaf⟩
    exact h field hfield width ranges d hleaf

/-- Ranges of integers of the width that seem to cover the domain do. -/
lemma SignedLeavesCover.of_rangesFit {p : Predicate κ} (hfit : p.rangesFit = true)
    (h : p.admitsAll = true) : p.SignedLeavesCover := by
  induction p using Predicate.induct with
  | intRanges width signed ranges d =>
    simp only [admitsAll, List.any_eq_true, rangesFit, allLeaves, List.all_eq_true] at h hfit
    obtain ⟨r, hr, hcovers⟩ := h
    intro width' ranges' d' hleaf x hx
    simp only [leaves, List.mem_singleton, intRanges.injEq] at hleaf
    obtain ⟨rfl, rfl, rfl, rfl⟩ := hleaf
    exact ⟨r, hr, IntRange.domain_subset_of_coversDomain hcovers (fun _ => hfit r hr) hx⟩
  | allOf size d fields invariant ihfields ihinvariant =>
    cases invariant with
    | none =>
      simp only [admitsAll, fieldsAdmitAll_eq, List.all_eq_true] at h
      simp only [rangesFit, allLeaves_eq, List.all_eq_true, mem_leaves_allOf] at hfit ihfields
      apply signedLeavesCover_allOf.mpr
      intro field hfield
      apply ihfields field hfield _ (h field hfield)
      intro leaf hleaf
      exact hfit leaf (.inl ⟨field, hfield, hleaf⟩)
    | some invariant => simp [admitsAll] at h
  | passthrough d inner ih => exact ih hfit h
  | allValid size d => simp [SignedLeavesCover, leaves]
  | noneValid size d => simp [admitsAll] at h
  | nonZero size d pointer => simp [admitsAll] at h
  | custom size d check => simp [admitsAll] at h
  | oneOf size d offset width signed variants ih => simp [admitsAll] at h

/-! ### Acceptance of everything -/

variable [Check κ]

/-- Every byte string of the size of the predicate is a value. -/
def AcceptsAll (p : Predicate κ) : Prop :=
  ∀ bytes : Bytes, bytes.length = p.size.toNat → p.Accepts bytes

/-- An integer leaf accepts the bytes of the integers that its ranges hold. -/
lemma accepts_intRanges_iff_covered {width : IntWidth} {signed : Bool} {ranges : List IntRange}
    {d : String} {bytes : Bytes} (hlen : bytes.length = width.bytes) :
    (intRanges width signed ranges d : Predicate κ).Accepts bytes ↔
      width.integerOf signed (UInt64.ofNat (LittleEndian.decode bytes)) ∈
        IntRange.covered width signed ranges := by
  simp only [accepts_intRanges_iff, hlen, true_and, IntRange.contains_iff, IntRange.covered,
    Set.mem_ofPred_eq]

/-- An integer leaf accepts everything when its ranges hold every integer of its width. -/
lemma acceptsAll_intRanges_iff {width : IntWidth} {signed : Bool} {ranges : List IntRange}
    {d : String} :
    (intRanges width signed ranges d : Predicate κ).AcceptsAll ↔
      width.domain signed ⊆ IntRange.covered width signed ranges := by
  simp only [AcceptsAll, Predicate.size, IntWidth.toNat_toUInt64]
  constructor
  · intro h x hx
    obtain ⟨bytes, hlen, rfl⟩ := exists_stored_integerOf_eq hx
    exact (accepts_intRanges_iff_covered hlen).mp (h bytes hlen)
  · intro h bytes hlen
    have hvalue : (UInt64.ofNat (LittleEndian.decode bytes)).toNat < 256 ^ width.bytes :=
      (toNat_ofNat_decode hlen).trans_lt (decode_lt_of_length hlen)
    exact (accepts_intRanges_iff_covered hlen).mpr (h (integerOf_mem_domain hvalue))

/-- Any bytes can be those of a part of some whole. -/
lemma exists_part_eq {part : Bytes} {offset size : UInt64} {total : ℕ}
    (hlen : part.length = size.toNat) (hle : offset.toNat + size.toNat ≤ total) :
    ∃ bytes : Bytes, bytes.length = total ∧ Predicate.part bytes offset size = part := by
  refine ⟨List.replicate offset.toNat 0 ++ part ++
    List.replicate (total - offset.toNat - size.toNat) 0, by simp; omega, ?_⟩
  simp [Predicate.part, ← hlen, List.append_assoc]

/-- An aggregate without an invariant accepts everything when all its fields do. -/
lemma acceptsAll_allOf_iff {size : UInt64} {d : String} {fields : List (FieldCheck (Predicate κ))}
    (hle : ∀ field ∈ fields, field.offset.toNat + field.predicate.size.toNat ≤ size.toNat) :
    (allOf size d fields none).AcceptsAll ↔ ∀ field ∈ fields, field.predicate.AcceptsAll := by
  constructor
  · intro h field hfield part hpart
    obtain ⟨bytes, hlen, rfl⟩ := exists_part_eq hpart (hle field hfield)
    exact ((accepts_allOf_iff.mp (h bytes hlen)).2.1 field hfield).2
  · intro h bytes (hlen : bytes.length = size.toNat)
    refine accepts_allOf_iff.mpr ⟨hlen, ?_, by simp⟩
    intro field hfield
    have hle := hlen ▸ hle field hfield
    exact ⟨hle, h field hfield _ (length_part hle)⟩

lemma acceptsAll_passthrough_iff {d : String} {inner : Predicate κ} :
    (passthrough d inner).AcceptsAll ↔ inner.AcceptsAll := by
  simp only [AcceptsAll, accepts_passthrough_iff, Predicate.size]

/-- A predicate that is taken to accept everything does so exactly when its signed leaves do. -/
lemma acceptsAll_iff_signedLeavesCover {p : Predicate κ} (hwf : p.isWellFormed = true)
    (h : p.admitsAll = true) : p.AcceptsAll ↔ p.SignedLeavesCover := by
  induction p using Predicate.induct with
  | allValid size d =>
    apply iff_of_true
    · intro bytes hlen
      exact accepts_allValid_iff.mpr hlen
    · simp [SignedLeavesCover, leaves]
  | intRanges width signed ranges d =>
    rw [acceptsAll_intRanges_iff]
    cases signed with
    | true =>
      simp only [SignedLeavesCover, leaves, List.mem_singleton, intRanges.injEq, true_and]
      constructor
      · rintro hcover _ _ _ ⟨rfl, rfl, rfl⟩
        exact hcover
      · intro hcover
        exact hcover width ranges d ⟨rfl, rfl, rfl⟩
    | false =>
      simp only [admitsAll, List.any_eq_true] at h
      obtain ⟨r, hr, hcovers⟩ := h
      apply iff_of_true
      · intro x hx
        exact ⟨r, hr, IntRange.domain_subset_of_coversDomain hcovers (by simp) hx⟩
      · simp [SignedLeavesCover, leaves]
  | allOf size d fields invariant ihfields ihinvariant =>
    cases invariant with
    | none =>
      obtain ⟨hfields, -⟩ := isWellFormed_allOf_iff.mp hwf
      simp only [admitsAll, fieldsAdmitAll_eq, List.all_eq_true] at h
      rw [acceptsAll_allOf_iff fun field hfield => (hfields field hfield).1,
        signedLeavesCover_allOf]
      apply forall₂_congr
      intro field hfield
      exact ihfields field hfield (hfields field hfield).2 (h field hfield)
    | some invariant => simp [admitsAll] at h
  | passthrough d inner ih => exact acceptsAll_passthrough_iff.trans (ih hwf h)
  | noneValid size d => simp [admitsAll] at h
  | nonZero size d pointer => simp [admitsAll] at h
  | custom size d check => simp [admitsAll] at h
  | oneOf size d offset width signed variants ih => simp [admitsAll] at h

/-- With ranges of integers of their widths, a predicate that is taken to accept everything does. -/
theorem acceptsAll_of_admitsAll {p : Predicate κ} (hsound : p.isSound = true)
    (h : p.admitsAll = true) : p.AcceptsAll := by
  obtain ⟨hwf, hfit⟩ := isSound_iff.mp hsound
  exact (acceptsAll_iff_signedLeavesCover hwf h).mpr (.of_rangesFit hfit h)

/-- That a predicate accepts everything by its shape is right exactly when the ranges of its signed
leaves, compared as a check compares them, hold every integer of their widths. -/
theorem admitsAll_correct_iff {p : Predicate κ} (hwf : p.isWellFormed = true)
    (h : p.admitsAll = true) :
    (∀ bytes : Bytes, bytes.length = p.size.toNat → p.findViolation bytes = .ok none) ↔
      ∀ width ranges d, intRanges width true ranges d ∈ p.leaves →
        width.domain true ⊆ IntRange.covered width true ranges :=
  acceptsAll_iff_signedLeavesCover hwf h

/-- The bytes from least to greatest, of which the least is given with ones above its width. -/
def wideEnd : Predicate Empty := intRanges .one true [⟨0xff80, 0x7f⟩] "any byte"

theorem admitsAll_correct_iff_wideEnd :
    wideEnd.isWellFormed = true ∧ wideEnd.admitsAll = true ∧
      ((∀ bytes : Bytes, bytes.length = wideEnd.size.toNat →
          wideEnd.findViolation bytes = .ok none) ↔
        ∀ width ranges d, intRanges width true ranges d ∈ wideEnd.leaves →
          width.domain true ⊆ IntRange.covered width true ranges) :=
  ⟨by decide, by decide, admitsAll_correct_iff (by decide) (by decide)⟩

/-- It is taken to accept every byte and accepts none. -/
theorem admitsAll_wideEnd_incorrect :
    wideEnd.isWellFormed = true ∧ wideEnd.admitsAll = true ∧
      wideEnd.findViolation [0] ≠ .ok none ∧ ∀ bytes : Bytes, ¬ wideEnd.Accepts bytes := by
  have hrejects : ∀ bytes : Bytes, ¬ wideEnd.Accepts bytes := by
    intro bytes hbytes
    obtain ⟨-, r, hr, hcontains⟩ := accepts_intRanges_iff.mp hbytes
    obtain rfl : r = ⟨0xff80, 0x7f⟩ := by simpa using hr
    have hends := Set.nonempty_Icc.mp ⟨_, IntRange.contains_iff.mp hcontains⟩
    exact absurd hends (by decide)
  exact ⟨by decide, by decide, hrejects [0], hrejects⟩

end Predicate

end BitValidity
