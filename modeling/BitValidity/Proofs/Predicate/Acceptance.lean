import BitValidity.Predicate.Constraint
import BitValidity.Predicate.WellFormed
import BitValidity.Proofs.Outcome
import BitValidity.Proofs.Word

/-!
# What a predicate accepts

Each kind of predicate accepts the bytes that its parts accept: `accepts_allOf_iff` and its
companions say so without a word on the order in which the parts are checked.
-/

namespace BitValidity

variable {κ : Type}

/-- A caller need not supply any checks. -/
instance : Check Empty where
  accepts := nofun

/-! ### Parts of the bytes -/

lemma Bytes.slice_eq_ok {bytes : Bytes} {offset size : UInt64}
    (h : offset.toNat + size.toNat ≤ bytes.length) :
    Bytes.slice bytes offset size = .ok (Predicate.part bytes offset size) :=
  Bytes.slice_eq_ok_iff.mpr ⟨h, rfl⟩

@[simp] lemma Predicate.length_part {bytes : Bytes} {offset size : UInt64}
    (h : offset.toNat + size.toNat ≤ bytes.length) :
    (Predicate.part bytes offset size).length = size.toNat :=
  Bytes.length_of_slice (Bytes.slice_eq_ok h)

/-- Storage of a size that is a word is part of itself. -/
lemma Predicate.part_zero_self {bytes : Bytes} {size : UInt64} (h : bytes.length = size.toNat) :
    Predicate.part bytes 0 size = bytes := by
  simp [part, ← h]

lemma Predicate.getElem?_part {bytes : Bytes} {offset size : UInt64} {i : ℕ} :
    (Predicate.part bytes offset size)[i]? =
      if i < size.toNat then bytes[offset.toNat + i]? else none := by
  simp only [part, List.getElem?_take, List.getElem?_drop]

/-- A part depends on the bytes in it alone. -/
lemma Predicate.part_congr {bytes bytes' : Bytes} {offset size : UInt64}
    (h : ∀ i, offset.toNat ≤ i → i < offset.toNat + size.toNat → bytes'[i]? = bytes[i]?) :
    Predicate.part bytes' offset size = Predicate.part bytes offset size := by
  apply List.ext_getElem?
  intro i
  rw [getElem?_part, getElem?_part]
  split
  · exact h _ (by omega) (by omega)
  · rfl

/-- Loading an integer that lies inside its bytes gives the integer. -/
lemma loadUnsigned_eq_ok {bytes : Bytes} (offset : UInt64) (width : IntWidth)
    (h : offset.toNat + width.bytes ≤ bytes.length) :
    loadUnsigned bytes offset width.toUInt64 = .ok (Predicate.tagOf bytes offset width) := by
  have hsum := toNat_add_le offset width.toUInt64
  have hslice : offset.toNat + width.toUInt64.toNat ≤ bytes.length := by simpa using h
  rw [loadUnsigned, if_neg (by omega), if_neg (by simp), Bytes.slice_eq_ok hslice]
  rfl

/-- An integer that is loaded lies inside its bytes. -/
lemma of_loadUnsigned {bytes : Bytes} {offset : UInt64} {width : IntWidth} {value : UInt64}
    (h : loadUnsigned bytes offset width.toUInt64 = .ok value) :
    offset.toNat + width.bytes ≤ bytes.length ∧ value = Predicate.tagOf bytes offset width := by
  rw [loadUnsigned] at h
  split at h
  · cases h
  · split at h
    · cases h
    · obtain ⟨part, hpart, rfl⟩ := map_eq_ok_iff.mp h
      obtain ⟨hle, rfl⟩ := Bytes.slice_eq_ok_iff.mp hpart
      exact ⟨by rwa [IntWidth.toNat_toUInt64] at hle, rfl⟩

namespace Predicate

/-! ### Tags in the bytes -/

section

variable {bytes : Bytes} {offset : UInt64} {width : IntWidth}

lemma length_part_of_width (h : offset.toNat + width.bytes ≤ bytes.length) :
    (part bytes offset width.toUInt64).length = width.bytes := by
  rw [length_part (by simpa using h), IntWidth.toNat_toUInt64]

lemma tagOf_lt (h : offset.toNat + width.bytes ≤ bytes.length) :
    (tagOf bytes offset width).toNat < 256 ^ width.bytes :=
  (toNat_ofNat_decode (length_part_of_width h)).trans_lt
    (decode_lt_of_length (length_part_of_width h))

/-- The pattern of a tag is that of the bytes in which it is stored. -/
lemma ofUnsigned_tagOf (h : offset.toNat + width.bytes ≤ bytes.length) :
    BitPattern.ofUnsigned (tagOf bytes offset width) width.bytes =
      .ofMemory (part bytes offset width.toUInt64) :=
  ofUnsigned_decode (length_part_of_width h)

end

variable [Check κ]

/-! ### Acceptance, kind by kind -/

lemma accepts_allValid_iff {size : UInt64} {d : String} {bytes : Bytes} :
    (allValid size d : Predicate κ).Accepts bytes ↔ bytes.length = size.toNat := by
  by_cases hlen : bytes.length = size.toNat <;>
    simp [Accepts, findViolation, Predicate.size, hlen]

lemma not_accepts_noneValid {size : UInt64} {d : String} {bytes : Bytes} :
    ¬ (noneValid size d : Predicate κ).Accepts bytes := by
  simp only [Accepts, findViolation]
  split <;> simp

lemma accepts_nonZero_iff {size : UInt64} {d : String} {pointer : Bool} {bytes : Bytes} :
    (nonZero size d pointer : Predicate κ).Accepts bytes ↔
      bytes.length = size.toNat ∧ ∃ b ∈ bytes, b ≠ 0 := by
  by_cases hlen : bytes.length = size.toNat
  · simp only [Accepts, findViolation, Predicate.size, hlen, ne_eq, not_true_eq_false, if_false,
      true_and]
    split
    · rename_i hzero
      simpa using hzero
    · rename_i hzero
      simpa using hzero
  · apply iff_of_false
    · intro h
      exact hlen h.length_eq
    · intro h
      exact hlen h.1

/-- Bytes are not all zero when they denote another integer. -/
lemma accepts_nonZero_iff_decode_ne_zero {size : UInt64} {d : String} {pointer : Bool}
    {bytes : Bytes} :
    (nonZero size d pointer : Predicate κ).Accepts bytes ↔
      bytes.length = size.toNat ∧ LittleEndian.decode bytes ≠ 0 := by
  rw [accepts_nonZero_iff, ne_eq, LittleEndian.decode_eq_zero_iff]
  push Not
  rfl

lemma accepts_intRanges_iff {width : IntWidth} {signed : Bool} {ranges : List IntRange}
    {d : String} {bytes : Bytes} :
    (intRanges width signed ranges d : Predicate κ).Accepts bytes ↔
      bytes.length = width.bytes ∧
        ∃ r ∈ ranges, r.contains width signed (UInt64.ofNat (LittleEndian.decode bytes)) := by
  by_cases hlen : bytes.length = width.bytes
  · have hsize : bytes.length = width.toUInt64.toNat := by simpa using hlen
    have hload : loadUnsigned bytes 0 width.toUInt64 =
        .ok (UInt64.ofNat (LittleEndian.decode bytes)) := by
      rw [loadUnsigned_eq_ok 0 width (by simp [hlen]), tagOf, part_zero_self hsize]
    simp only [Accepts, findViolation, Predicate.size, hsize, ne_eq, not_true_eq_false, if_false,
      hload, bind_eq_ok_iff, Except.ok.injEq, exists_eq_left', IntWidth.toNat_toUInt64, true_and]
    split <;> simp_all
  · apply iff_of_false
    · intro h
      apply hlen
      simpa [Predicate.size] using h.length_eq
    · intro h
      exact hlen h.1

lemma accepts_passthrough_iff {d : String} {inner : Predicate κ} {bytes : Bytes} :
    (passthrough d inner).Accepts bytes ↔ inner.Accepts bytes := by
  by_cases hlen : bytes.length = inner.size.toNat
  · simp [Accepts, findViolation, Predicate.size, hlen]
  · apply iff_of_false
    · intro h
      exact hlen h.length_eq
    · intro h
      exact hlen h.length_eq

end Predicate

/-! ### Aggregates -/

variable [Check κ]

/-- The field lies inside the bytes, and its predicate accepts the part of them that it is about. -/
def FieldCheck.HoldsOn (field : FieldCheck (Predicate κ)) (bytes : Bytes) : Prop :=
  field.offset.toNat + field.predicate.size.toNat ≤ bytes.length ∧
    field.predicate.Accepts (Predicate.part bytes field.offset field.predicate.size)

namespace Predicate

lemma findFieldViolation_eq_none_iff {fields : List (FieldCheck (Predicate κ))} {bytes : Bytes} :
    findFieldViolation fields bytes = .ok none ↔ ∀ field ∈ fields, field.HoldsOn bytes := by
  induction fields with
  | nil => simp [findFieldViolation]
  | cons field rest ih =>
    simp only [findFieldViolation, bind_eq_ok_iff, List.forall_mem_cons, Bytes.slice_eq_ok_iff]
    constructor
    · rintro ⟨_, ⟨hle, rfl⟩, _ | v, hv, h⟩
      · exact ⟨⟨hle, hv⟩, ih.mp h⟩
      · simp at h
    · rintro ⟨⟨hle, hv⟩, h⟩
      exact ⟨_, ⟨hle, rfl⟩, none, hv, ih.mpr h⟩

lemma accepts_allOf_iff {size : UInt64} {d : String} {fields : List (FieldCheck (Predicate κ))}
    {invariant : Option (Predicate κ)} {bytes : Bytes} :
    (allOf size d fields invariant).Accepts bytes ↔
      bytes.length = size.toNat ∧ (∀ field ∈ fields, field.HoldsOn bytes) ∧
        ∀ p ∈ invariant, p.Accepts bytes := by
  by_cases hlen : bytes.length = size.toNat
  · cases invariant with
    | none =>
      simp [Accepts, findViolation, Predicate.size, hlen, ← findFieldViolation_eq_none_iff]
    | some invariant =>
      simp only [Accepts, findViolation, Predicate.size, hlen, ne_eq, not_true_eq_false, if_false,
        bind_eq_ok_iff, ← findFieldViolation_eq_none_iff, Option.mem_some_iff, forall_eq', true_and]
      constructor
      · rintro ⟨_ | v, hfields, h⟩
        · obtain ⟨_ | v, hv, h⟩ := bind_eq_ok_iff.mp h
          · exact ⟨hfields, hv⟩
          · simp at h
        · simp at h
      · rintro ⟨hfields, hinvariant⟩
        exact ⟨none, hfields, bind_eq_ok_iff.mpr ⟨none, hinvariant, rfl⟩⟩
  · apply iff_of_false
    · intro h
      exact hlen h.length_eq
    · intro h
      exact hlen h.1

/-! ### Tagged choices -/

lemma findViolation_oneOf {size : UInt64} {d : String} {offset : UInt64} {width : IntWidth}
    {signed : Bool} {variants : List (VariantCheck (Predicate κ))} {bytes : Bytes}
    (hlen : bytes.length = size.toNat) (htag : offset.toNat + width.bytes ≤ size.toNat) :
    (oneOf size d offset width signed variants).findViolation bytes =
      findVariantViolation variants width (tagOf bytes offset width)
        (.ofTag d offset width (tagOf bytes offset width) (variants.map (·.tag))) bytes := by
  have hload : loadUnsigned bytes offset width.toUInt64 = .ok (tagOf bytes offset width) :=
    loadUnsigned_eq_ok offset width (hlen ▸ htag)
  have hsize : ¬ bytes.length ≠ (oneOf size d offset width signed variants).size.toNat :=
    not_not.mpr hlen
  rw [findViolation, if_neg hsize, hload, ok_bind]

section

variable {variants : List (VariantCheck (Predicate κ))} {width : IntWidth} {tag : UInt64}
  {unknown : Violation} {bytes : Bytes}

/-- Where no two variants have the same tag, a variant that has the tag is the first that has it. -/
lemma findVariantViolation_of_mem {variant : VariantCheck (Predicate κ)}
    (hnodup : (variants.map (·.tag &&& byteMask width.bytes)).Nodup) (hmem : variant ∈ variants)
    (htag : variant.tag &&& byteMask width.bytes = tag) :
    findVariantViolation variants width tag unknown bytes =
      variant.payload.findViolation bytes := by
  induction variants with
  | nil => cases hmem
  | cons first rest ih =>
    obtain ⟨hfirst, hrest⟩ := List.nodup_cons.mp hnodup
    rw [findVariantViolation]
    rcases List.mem_cons.mp hmem with rfl | hmem
    · rw [if_pos htag]
    · have hne : first.tag &&& byteMask width.bytes ≠ tag := by
        intro heq
        exact hfirst (List.mem_map.mpr ⟨variant, hmem, htag.trans heq.symm⟩)
      rw [if_neg hne, ih hrest hmem]

lemma findVariantViolation_of_forall_ne
    (h : ∀ variant ∈ variants, variant.tag &&& byteMask width.bytes ≠ tag) :
    findVariantViolation variants width tag unknown bytes = .ok (some unknown) := by
  induction variants with
  | nil => rfl
  | cons first rest ih =>
    obtain ⟨hfirst, hrest⟩ := List.forall_mem_cons.mp h
    rw [findVariantViolation, if_neg hfirst, ih hrest]

lemma exists_accepts_of_findVariantViolation
    (h : findVariantViolation variants width tag unknown bytes = .ok none) :
    ∃ variant ∈ variants, variant.payload.Accepts bytes := by
  induction variants with
  | nil => cases h
  | cons first rest ih =>
    rw [findVariantViolation] at h
    split at h
    · exact ⟨first, List.mem_cons_self, h⟩
    · obtain ⟨variant, hmem, haccepts⟩ := ih h
      exact ⟨variant, List.mem_cons_of_mem _ hmem, haccepts⟩

end

/-- Bytes that pass a tagged choice pass one of its variants. -/
lemma exists_accepts_of_oneOf {size : UInt64} {d : String} {offset : UInt64} {width : IntWidth}
    {signed : Bool} {variants : List (VariantCheck (Predicate κ))} {bytes : Bytes}
    (h : (oneOf size d offset width signed variants).Accepts bytes) :
    ∃ variant ∈ variants, variant.payload.Accepts bytes := by
  have hlen := h.length_eq
  rw [Accepts, findViolation, if_neg (not_not.mpr hlen)] at h
  obtain ⟨tag, -, h⟩ := bind_eq_ok_iff.mp h
  exact exists_accepts_of_findVariantViolation h

/-! ### Well-formed predicates -/

omit [Check κ] in
lemma isWellFormed_allOf_iff {size : UInt64} {d : String}
    {fields : List (FieldCheck (Predicate κ))} {invariant : Option (Predicate κ)} :
    (allOf size d fields invariant).isWellFormed ↔
      (∀ field ∈ fields, field.offset.toNat + field.predicate.size.toNat ≤ size.toNat ∧
        field.predicate.isWellFormed) ∧
      ∀ p ∈ invariant, p.size = size ∧ p.isWellFormed := by
  cases invariant <;> simp [isWellFormed, and_assoc]

omit [Check κ] in
lemma isWellFormed_oneOf_iff {size : UInt64} {d : String} {offset : UInt64} {width : IntWidth}
    {signed : Bool} {variants : List (VariantCheck (Predicate κ))} :
    (oneOf size d offset width signed variants).isWellFormed ↔
      offset.toNat + width.bytes ≤ size.toNat ∧
        ∀ variant ∈ variants, variant.payload.size = size ∧ variant.payload.isWellFormed := by
  simp [isWellFormed]

end Predicate

end BitValidity
