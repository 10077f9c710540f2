import BitValidity.Proofs.Layout.Discriminants
import BitValidity.Proofs.Layout.Meaning

/-!
# What derived tagged unions accept

A check of a tagged union goes to the first variant with the tag that is stored. As no two variants
have the same tag this is the only one, and a value is a tag of one variant with valid fields of
that variant (`valid_iff_variant_valid`). A variant has a tag when its discriminant, as an unbounded
integer, agrees with the bytes of the tag modulo the integers of their width.
-/

namespace BitValidity

variable {κ : Type} {r : Registry κ}

namespace TaggedUnion

/-! ### Tags -/

/-- The values of the discriminants, one for each variant. -/
def discriminants (u : TaggedUnion) : List ℤ :=
  Discriminant.values (u.variants.map (·.discriminant?))

/-- The bytes in which the tag is stored. -/
def tagBytes (u : TaggedUnion) (bytes : Bytes) : Bytes :=
  Predicate.part bytes u.tag.offset u.tag.width.toUInt64

/-- The bytes have the tag of the variant at an index. -/
def HasTag (u : TaggedUnion) (bytes : Bytes) (i : ℕ) : Prop :=
  ∃ value, u.discriminants[i]? = some value ∧
    (LittleEndian.decode (u.tagBytes bytes) : ℤ) = value % 2 ^ (8 * u.tag.width.toNat)

variable {u : TaggedUnion}

@[simp] lemma length_discriminants : u.discriminants.length = u.variants.length := by
  simp [discriminants]

/-- The predicate of a variant holds when its fields are valid. -/
lemma accepts_payload_iff [Check κ] (hr : r.Consistent) {size : UInt64} {bytes : Bytes}
    {variant : Variant} {fields : List (PlacedField κ)}
    (hfacts : ∀ p ∈ fields, r.fact? p.field.type = some p.fact)
    (hinside : ∀ p ∈ fields, p.offset.toNat + p.fact.size.toNat ≤ size.toNat)
    (hlen : bytes.length = size.toNat) :
    (u.payload size variant fields).Accepts bytes ↔ ∀ p ∈ fields, p.IsValidIn bytes := by
  rw [payload, accepts_allOf_check_iff hr hfacts hinside hlen]
  simp

variable {placed : List (List (PlacedField κ))} {width : IntWidth} {tags : List UInt64}
  {payload alignment size : UInt64} {bytes : Bytes}

namespace Derived

/-- The tags hold the low bytes of the discriminants, and no two are the same. -/
lemma tags_spec (h : u.Derived r placed width tags payload alignment size) :
    tags = u.discriminants.map (Discriminant.lowBytes width) ∧ tags.Nodup :=
  ((resolveDiscriminants_eq_ok_iff (Tag.checkedWidth_eq_ok_iff.mpr h.width_eq)).mp h.tags_eq).2

/-- A tag has no bytes above the width. -/
lemma and_byteMask_of_mem (h : u.Derived r placed width tags payload alignment size) {tag : UInt64}
    (htag : tag ∈ tags) : tag &&& byteMask width.bytes = tag :=
  and_byteMask_of_lt (lt_of_resolveDiscriminants (Tag.checkedWidth_eq_ok_iff.mpr h.width_eq)
    h.tags_eq tag htag)

lemma tagOf_eq (h : u.Derived r placed width tags payload alignment size) (bytes : Bytes) :
    Predicate.tagOf bytes u.tag.offset width =
      UInt64.ofNat (LittleEndian.decode (u.tagBytes bytes)) := by
  rw [Predicate.tagOf, tagBytes, h.tagWidth_eq]

lemma length_tagBytes (h : u.Derived r placed width tags payload alignment size)
    (htag : u.tag.offset.toNat + u.tag.width.toNat ≤ bytes.length) :
    (u.tagBytes bytes).length = width.bytes := by
  rw [tagBytes, Predicate.length_part (by simpa using htag), UInt32.toNat_toUInt64, h.width_eq]

lemma decode_tagBytes_lt (h : u.Derived r placed width tags payload alignment size)
    (htag : u.tag.offset.toNat + u.tag.width.toNat ≤ bytes.length) :
    LittleEndian.decode (u.tagBytes bytes) < 256 ^ width.bytes :=
  decode_lt_of_length (h.length_tagBytes htag)

/-- The integers of the width, as the description has it and as words of the width have it. -/
lemma two_pow_eq (h : u.Derived r placed width tags payload alignment size) :
    (2 : ℤ) ^ (8 * u.tag.width.toNat) = 256 ^ width.bytes := by
  rw [h.width_eq, pow_mul]
  rfl

lemma hasTag_iff (h : u.Derived r placed width tags payload alignment size)
    (htag : u.tag.offset.toNat + u.tag.width.toNat ≤ bytes.length) {i : ℕ} :
    u.HasTag bytes i ↔ tags[i]? = some (Predicate.tagOf bytes u.tag.offset width) := by
  rw [HasTag, h.tags_spec.1, h.tagOf_eq, List.getElem?_map, Option.map_eq_some_iff, h.two_pow_eq]
  simp only [Discriminant.lowBytes_eq_iff (h.decode_tagBytes_lt htag)]

lemma ofUnsigned_tagOf (h : u.Derived r placed width tags payload alignment size)
    (htag : u.tag.offset.toNat + u.tag.width.toNat ≤ bytes.length) :
    BitPattern.ofUnsigned (Predicate.tagOf bytes u.tag.offset width) width.bytes =
      .ofMemory (u.tagBytes bytes) := by
  rw [h.tagOf_eq, ofUnsigned_decode (h.length_tagBytes htag)]

lemma ofValues_tags (h : u.Derived r placed width tags payload alignment size) :
    BitRanges.ofValues tags width.bytes = ⟨u.discriminants.map fun value => .single
      ⟨LittleEndian.encode u.tag.width.toNat (value % 2 ^ (8 * u.tag.width.toNat)).toNat⟩⟩ := by
  rw [BitRanges.ofValues, h.tags_spec.1, List.map_map, h.two_pow_eq, h.width_eq]
  simp only [Function.comp_def, BitPattern.ofUnsigned, Discriminant.toNat_lowBytes]

/-! ### Checks of variants -/

lemma length_eq (h : u.Derived r placed width tags payload alignment size) :
    tags.length = u.variants.length ∧ placed.length = u.variants.length := by
  refine ⟨?_, h.variants.length_eq.symm⟩
  rw [h.tags_spec.1, List.length_map, length_discriminants]

lemma map_tag_variantChecks (h : u.Derived r placed width tags payload alignment size) :
    (u.variantChecks size tags placed).map (·.tag) = tags := by
  obtain ⟨htags, hplaced⟩ := h.length_eq
  rw [variantChecks, List.map_map]
  exact List.map_fst_zip (by simp [htags, hplaced])

lemma masked_variantChecks (h : u.Derived r placed width tags payload alignment size) :
    (u.variantChecks size tags placed).map (·.tag &&& byteMask width.bytes) = tags := by
  calc (u.variantChecks size tags placed).map (·.tag &&& byteMask width.bytes)
      = ((u.variantChecks size tags placed).map (·.tag)).map (· &&& byteMask width.bytes) := by
        rw [List.map_map]
        rfl
    _ = tags.map (· &&& byteMask width.bytes) := by rw [h.map_tag_variantChecks]
    _ = tags.map id := List.map_congr_left fun tag htag => h.and_byteMask_of_mem htag
    _ = tags := List.map_id tags

/-- The variant at an index is checked by its fields. -/
lemma mem_variantChecks (h : u.Derived r placed width tags payload alignment size) {i : ℕ}
    {tag : UInt64} (hi : tags[i]? = some tag) : ∃ variant fields,
      u.variants[i]? = some variant ∧ placed[i]? = some fields ∧
      ⟨tag, u.payload size variant fields, variant.name⟩ ∈ u.variantChecks size tags placed := by
  obtain ⟨htags, hplaced⟩ := h.length_eq
  obtain ⟨hlt, -⟩ := List.getElem?_eq_some_iff.mp hi
  have hvariant := List.getElem?_eq_getElem (htags ▸ hlt)
  have hfields := List.getElem?_eq_getElem (hplaced.symm ▸ htags ▸ hlt)
  refine ⟨_, _, hvariant, hfields, List.mem_map.mpr ⟨(tag, _, _), ?_, rfl⟩⟩
  exact List.mem_of_getElem? (List.getElem?_zip_eq_some.mpr
    ⟨hi, List.getElem?_zip_eq_some.mpr ⟨hvariant, hfields⟩⟩)

/-! ### Checks of bytes -/

/-- No other variant has the tag. -/
lemma hasTag_unique (h : u.Derived r placed width tags payload alignment size)
    (htag : u.tag.offset.toNat + u.tag.width.toNat ≤ bytes.length) {i j : ℕ}
    (hi : u.HasTag bytes i) : u.HasTag bytes j ↔ j = i := by
  constructor
  · intro hj
    rw [h.hasTag_iff htag] at hi hj
    obtain ⟨hlt, -⟩ := List.getElem?_eq_some_iff.mp hj
    exact (List.getElem?_inj hlt h.tags_spec.2).mp (hj.trans hi.symm)
  · rintro rfl
    exact hi

/-- The bytes have the tag of a variant when one of the checks is for it. -/
lemma exists_hasTag_iff (h : u.Derived r placed width tags payload alignment size)
    (htag : u.tag.offset.toNat + u.tag.width.toNat ≤ bytes.length) :
    (∃ i, u.HasTag bytes i) ↔ ∃ check ∈ u.variantChecks size tags placed,
      check.tag &&& byteMask width.bytes = Predicate.tagOf bytes u.tag.offset width := by
  simp only [h.hasTag_iff htag, ← List.mem_iff_getElem?]
  rw [← List.mem_map, h.masked_variantChecks]

variable [Check κ]

/-- Bytes with the tag of a variant are a value when the fields of the variant are valid. -/
lemma accepts_iff_of_hasTag (hr : r.Consistent)
    (h : u.Derived r placed width tags payload alignment size)
    (hcontained : u.IsContained size placed) (hlen : bytes.length = size.toNat) {i : ℕ}
    (hi : u.HasTag bytes i) : ∃ fields, placed[i]? = some fields ∧
      ((Predicate.oneOf size u.name u.tag.offset width u.tag.signed
          (u.variantChecks size tags placed)).Accepts bytes ↔
        ∀ p ∈ fields, p.IsValidIn bytes) := by
  have htag : u.tag.offset.toNat + u.tag.width.toNat ≤ bytes.length := hlen ▸ hcontained.tag
  rw [h.hasTag_iff htag] at hi
  obtain ⟨variant, fields, hvariant, hfields, hmem⟩ := h.mem_variantChecks hi
  have hmask := h.and_byteMask_of_mem (List.mem_of_getElem? hi)
  have hinside := (hcontained.fields fields (List.mem_of_getElem? hfields)).inside
  obtain ⟨_, -, hplaced, -⟩ := exists_mem_left h.variants (List.mem_of_getElem? hfields)
  refine ⟨fields, hfields, ?_⟩
  rw [Predicate.Accepts, Predicate.findViolation_oneOf hlen (h.width_eq ▸ hcontained.tag),
    Predicate.findVariantViolation_of_mem (h.masked_variantChecks.symm ▸ h.tags_spec.2) hmem hmask]
  exact accepts_payload_iff hr (fun p hp => hplaced.fact_eq hp) hinside hlen

/-- Bytes with a tag that no variant has are reported with what they have and what the variants
have. -/
lemma findViolation_of_unknown (h : u.Derived r placed width tags payload alignment size)
    (htag : u.tag.offset.toNat + u.tag.width.toNat ≤ size.toNat) (hlen : bytes.length = size.toNat)
    (hunknown : ∀ i, ¬ u.HasTag bytes i) :
    (Predicate.oneOf size u.name u.tag.offset width u.tag.signed
      (u.variantChecks size tags placed)).findViolation bytes =
      .ok (some {
        kind := .invalidDiscriminant
        offset := u.tag.offset
        length := u.tag.width.toUInt64
        bits := .ofMemory (u.tagBytes bytes)
        valid := ⟨u.discriminants.map fun value => .single
          ⟨LittleEndian.encode u.tag.width.toNat
            (value % 2 ^ (8 * u.tag.width.toNat)).toNat⟩⟩
        description := u.name }) := by
  have hne : ∀ variant ∈ u.variantChecks size tags placed,
      variant.tag &&& byteMask width.bytes ≠ Predicate.tagOf bytes u.tag.offset width := by
    intro variant hvariant heq
    obtain ⟨i, hi⟩ := (h.exists_hasTag_iff (hlen ▸ htag)).mpr ⟨variant, hvariant, heq⟩
    exact hunknown i hi
  rw [Predicate.findViolation_oneOf hlen (h.width_eq ▸ htag),
    Predicate.findVariantViolation_of_forall_ne hne, h.map_tag_variantChecks, Violation.ofTag,
    h.ofUnsigned_tagOf (hlen ▸ htag), h.ofValues_tags, h.tagWidth_eq]

end Derived

end TaggedUnion

/-- Whatever was registered before, the bytes of a tagged union are a value exactly when they have
the tag of one variant and of no other, and the bytes where each field of that variant is placed are
a value of its type. A tag that no variant has is reported with its bytes and with the tags of all
variants, in their order. -/
theorem valid_iff_variant_valid [Check κ] [DecidableEq κ] (hr : r.Reachable)
    (hfacts : r.FactsWellFormed) {u : TaggedUnion} {placed : List (List (PlacedField κ))}
    {fact : LayoutFact κ} (hfits : u.fits r = true) (h : u.layout r = .ok (placed, fact))
    {bytes : Bytes} (hlen : bytes.length = fact.size.toNat) :
    u.tag.offset.toNat + u.tag.width.toNat ≤ bytes.length ∧
    (∃ alignment, u.payloadAlignment r = .ok alignment ∧
      List.Forall₂ (fun variant fields =>
        Placed r variant.fields (roundUp u.tagStop alignment) fields) u.variants placed) ∧
    (∀ fields ∈ placed, ∀ p ∈ fields, r.fact? p.field.type = some p.fact ∧
      p.offset.toNat + p.fact.size.toNat ≤ bytes.length) ∧
    (fact.validity.findViolation bytes = .ok none ↔ ∃ i fields,
      (∀ j, u.HasTag bytes j ↔ j = i) ∧ placed[i]? = some fields ∧
      ∀ p ∈ fields,
        p.fact.validity.findViolation (Predicate.part bytes p.offset p.fact.size) = .ok none) ∧
    ((∀ i, ¬ u.HasTag bytes i) → fact.validity.findViolation bytes = .ok (some {
      kind := .invalidDiscriminant
      offset := u.tag.offset
      length := u.tag.width.toUInt64
      bits := .ofMemory (u.tagBytes bytes)
      valid := ⟨u.discriminants.map fun value => .single
        ⟨LittleEndian.encode u.tag.width.toNat (value % 2 ^ (8 * u.tag.width.toNat)).toNat⟩⟩
      description := u.name })) ∧
    ∃ outcome, fact.validity.findViolation bytes = .ok outcome := by
  have hr := Registry.ReachableBy.consistent hr
  have hwf := u.good_of_layout Predicate.layoutClosed_isWellFormed hr hfacts hfits h
  obtain ⟨width, tags, payload, alignment, size, hderived, rfl⟩ := TaggedUnion.derived_of_layout h
  have hcontained := hderived.isContained_of_fits hr hfits
  have htag : u.tag.offset.toNat + u.tag.width.toNat ≤ bytes.length := hlen ▸ hcontained.tag
  have hunknown := hderived.findViolation_of_unknown hcontained.tag hlen
  have hplaced := hderived.variants.imp fun _ _ hvariant => hvariant.1
  refine ⟨htag, ⟨payload, hderived.payload_eq, hplaced⟩, ?_, ?_, hunknown,
    Predicate.exists_findViolation hwf hlen⟩
  · intro fields hfields p hp
    obtain ⟨variant, -, hplaced, -⟩ := exists_mem_left hderived.variants hfields
    exact ⟨hplaced.fact_eq hp, hlen ▸ (hcontained.fields fields hfields).inside p hp⟩
  · constructor
    · intro hvalid
      by_cases hsome : ∃ i, u.HasTag bytes i
      · obtain ⟨i, hi⟩ := hsome
        obtain ⟨fields, hfields, haccepts⟩ := hderived.accepts_iff_of_hasTag hr hcontained hlen hi
        exact ⟨i, fields, fun j => hderived.hasTag_unique htag hi, hfields, haccepts.mp hvalid⟩
      · cases hvalid.symm.trans (hunknown (not_exists.mp hsome))
    · rintro ⟨i, fields, hunique, hfields, hvalid⟩
      obtain ⟨fields', hfields', haccepts⟩ :=
        hderived.accepts_iff_of_hasTag hr hcontained hlen ((hunique i).mpr rfl)
      obtain rfl : fields = fields' := Option.some.inj (hfields.symm.trans hfields')
      exact haccepts.mpr hvalid

/-- Nothing, or a flag. The tag of nothing is that of minus one. -/
def optionalFlag : TaggedUnion :=
  ⟨"optional", ⟨1, true, 0⟩, [⟨"nothing", some (-1), []⟩, ⟨"flag", none, [⟨"flag", ⟨1⟩, none⟩]⟩],
    none, none⟩

def optionalFlagFields : List (List (PlacedField Empty)) :=
  [[], [⟨⟨"flag", ⟨1⟩, none⟩, Registry.flagFact, 1⟩]]

def optionalFlagFact : LayoutFact Empty :=
  ⟨⟨2, 1⟩, "optional", .oneOf 2 "optional" 0 .one true
    [⟨255, .allOf 2 "optional::nothing" [] none, "nothing"⟩,
      ⟨0, .allOf 2 "optional::flag" [⟨1, Registry.flagFact.validity, "flag"⟩] none, "flag"⟩]⟩

lemma layout_optionalFlag : optionalFlag.layout Registry.flagRegistry =
    .ok (optionalFlagFields, optionalFlagFact) := by
  rw [Registry.flagRegistry_eq]
  cbv

theorem valid_iff_variant_valid_optionalFlag :
    Registry.flagRegistry.Reachable ∧ Registry.flagRegistry.FactsWellFormed ∧
      optionalFlag.fits Registry.flagRegistry = true ∧
      optionalFlag.layout Registry.flagRegistry = .ok (optionalFlagFields, optionalFlagFact) ∧
      ([255, 7] : Bytes).length = optionalFlagFact.size.toNat ∧
      (optionalFlagFact.validity.findViolation [255, 7] = .ok none ↔ ∃ i fields,
        (∀ j, optionalFlag.HasTag [255, 7] j ↔ j = i) ∧ optionalFlagFields[i]? = some fields ∧
        ∀ p ∈ fields, p.fact.validity.findViolation
          (Predicate.part [255, 7] p.offset p.fact.size) = .ok none) := by
  have hr := Registry.reachable_flagRegistry
  have hfits : optionalFlag.fits Registry.flagRegistry = true := by
    rw [Registry.flagRegistry_eq]
    cbv
  have hlen : ([255, 7] : Bytes).length = optionalFlagFact.size.toNat := rfl
  have h := valid_iff_variant_valid hr.reachable hr.factsWellFormed hfits layout_optionalFlag hlen
  exact ⟨hr.reachable, hr.factsWellFormed, hfits, layout_optionalFlag, hlen, h.2.2.2.1⟩

end BitValidity
