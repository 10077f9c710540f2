import BitValidity.Proofs.Layout.Variants

/-!
# The order of variants

The variants of a tagged union are placed one after the other, and a check goes to the first of them
that has the tag. Where every discriminant is given neither depends on the order: all variants begin
at the same offset, the whole takes its alignment and its size from all of their fields, and no two
of them have the same tag. The order can only be seen in a report of an unknown tag, which lists the
tags of the variants (`variant_order_does_not_matter`).
-/

namespace BitValidity

variable {κ : Type} {r : Registry κ}

/-! ### Tagged choices in another order -/

namespace Predicate

variable [Check κ] {variants variants' : List (VariantCheck (Predicate κ))} {width : IntWidth}
  {bytes : Bytes}

/-- A variant that has the tag is the one that is checked, wherever it is in the list. -/
lemma findVariantViolation_perm {tag : UInt64} {unknown unknown' : Violation}
    (hperm : variants'.Perm variants)
    (hnodup : (variants.map (·.tag &&& byteMask width.bytes)).Nodup)
    {variant : VariantCheck (Predicate κ)} (hmem : variant ∈ variants)
    (htag : variant.tag &&& byteMask width.bytes = tag) :
    findVariantViolation variants' width tag unknown' bytes =
      findVariantViolation variants width tag unknown bytes := by
  have hnodup' : (variants'.map (·.tag &&& byteMask width.bytes)).Nodup :=
    (hperm.map _).nodup_iff.mpr hnodup
  rw [findVariantViolation_of_mem hnodup hmem htag,
    findVariantViolation_of_mem hnodup' (hperm.mem_iff.mpr hmem) htag]

/-- Two choices between the same variants report the same, unless they report a tag that no variant
has. -/
lemma findViolation_oneOf_perm (size : UInt64) (d : String) (offset : UInt64) (signed : Bool)
    (hperm : variants'.Perm variants)
    (hnodup : (variants.map (·.tag &&& byteMask width.bytes)).Nodup) (bytes : Bytes) :
    let tag := tagOf bytes offset width
    (oneOf size d offset width signed variants').findViolation bytes =
        (oneOf size d offset width signed variants).findViolation bytes ∨
      offset.toNat + width.bytes ≤ bytes.length ∧
        (∀ variant ∈ variants, variant.tag &&& byteMask width.bytes ≠ tag) ∧
        (oneOf size d offset width signed variants).findViolation bytes =
          .ok (some (.ofTag d offset width tag (variants.map (·.tag)))) ∧
        (oneOf size d offset width signed variants').findViolation bytes =
          .ok (some (.ofTag d offset width tag (variants'.map (·.tag)))) := by
  intro tag
  by_cases hlen : bytes.length = size.toNat
  case neg =>
    left
    rw [findViolation, findViolation]
    exact (if_pos hlen).trans (if_pos hlen).symm
  have hsize (variants : List (VariantCheck (Predicate κ))) :
      ¬ bytes.length ≠ (oneOf size d offset width signed variants).size.toNat := not_not.mpr hlen
  rw [findViolation, findViolation, if_neg (hsize variants), if_neg (hsize variants')]
  cases hload : loadUnsigned bytes offset width.toUInt64 with
  | error breach => exact .inl rfl
  | ok value =>
    obtain ⟨hle, rfl⟩ := of_loadUnsigned hload
    rw [ok_bind, ok_bind]
    by_cases hknown : ∃ variant ∈ variants, variant.tag &&& byteMask width.bytes = tag
    · obtain ⟨variant, hmem, htag⟩ := hknown
      exact .inl (findVariantViolation_perm hperm hnodup hmem htag)
    · have hne : ∀ variant ∈ variants, variant.tag &&& byteMask width.bytes ≠ tag :=
        fun variant hmem htag => hknown ⟨variant, hmem, htag⟩
      have hne' : ∀ variant ∈ variants', variant.tag &&& byteMask width.bytes ≠ tag :=
        fun variant hmem => hne variant (hperm.mem_iff.mp hmem)
      exact .inr ⟨hle, hne, findVariantViolation_of_forall_ne hne,
        findVariantViolation_of_forall_ne hne'⟩

end Predicate

namespace TaggedUnion

/-! ### Tagged unions in another order -/

/-- Tagged unions that differ in the order of their variants only, all of which have
discriminants. -/
structure IsReordering (u u' : TaggedUnion) : Prop where
  eq : u' = { u with variants := u'.variants }
  perm : u'.variants.Perm u.variants
  given : ∀ variant ∈ u.variants, variant.discriminant?.isSome = true

variable {u u' : TaggedUnion} {placed placed' : List (List (PlacedField κ))} {width : IntWidth}
  {tags tags' : List UInt64} {payload alignment size : UInt64}

lemma discriminants_of_given (hgiven : ∀ variant ∈ u.variants, variant.discriminant?.isSome = true) :
    u.discriminants = u.variants.map fun v => (v.discriminant?.map (·.toInt)).getD 0 := by
  rw [discriminants, Discriminant.values_of_given (List.forall_mem_map.mpr hgiven), List.map_map]
  rfl

namespace IsReordering

lemma symm (h : u.IsReordering u') : u'.IsReordering u where
  eq := by
    rw [h.eq]
  perm := h.perm.symm
  given variant hvariant := h.given variant (h.perm.mem_iff.mp hvariant)

lemma discriminants_perm (h : u.IsReordering u') : u'.discriminants.Perm u.discriminants := by
  rw [discriminants_of_given h.given, discriminants_of_given h.symm.given]
  exact h.perm.map _

lemma exists_tags (h : u.IsReordering u') (hwidth : u.tag.checkedWidth u.name = .ok width)
    (htags : resolveDiscriminants u.name u.tag (u.variants.map (·.discriminant?)) = .ok tags) :
    ∃ tags', resolveDiscriminants u.name u.tag (u'.variants.map (·.discriminant?)) = .ok tags' := by
  obtain ⟨hrange, rfl, hnodup⟩ := (resolveDiscriminants_eq_ok_iff hwidth).mp htags
  have hperm := h.discriminants_perm
  refine ⟨_, (resolveDiscriminants_eq_ok_iff hwidth).mpr ⟨?_, rfl, ?_⟩⟩
  · exact fun value hvalue => hrange value (hperm.mem_iff.mp hvalue)
  · exact (hperm.map _).nodup_iff.mpr hnodup

/-- The strictest alignment is that of the same fields. -/
lemma payloadAlignment_eq (h : u.IsReordering u') (hpayload : u.payloadAlignment r = .ok payload) :
    u'.payloadAlignment r = .ok payload := by
  obtain ⟨facts, hfacts, rfl⟩ := payloadAlignment_eq_ok_iff.mp hpayload
  obtain ⟨facts', hfacts', hperm⟩ := List.perm_comp_forall₂ (h.perm.flatMap_right _) hfacts
  exact payloadAlignment_eq_ok_iff.mpr ⟨facts', hfacts',
    (foldl_max_perm (fun fact : LayoutFact κ => fact.alignment) hperm 1).symm⟩

/-- What the layout in one order is made of makes up one in the other. -/
lemma exists_derived (h : u.IsReordering u')
    (hderived : u.Derived r placed width tags payload alignment size) :
    ∃ placed' tags', u'.Derived r placed' width tags' payload alignment size := by
  obtain ⟨tags', htags'⟩ :=
    h.exists_tags (Tag.checkedWidth_eq_ok_iff.mpr hderived.width_eq) hderived.tags_eq
  obtain ⟨placed', hplaced', hperm⟩ :=
    List.perm_comp_forall₂ h.perm (mapM_eq_ok_iff.mp hderived.placed_eq)
  have hpayload := h.payloadAlignment_eq hderived.payload_eq
  have hsize' := (resolveSize_perm hperm.flatten).mpr hderived.size_eq
  rw [h.eq] at hpayload ⊢
  exact ⟨placed', tags', hderived.width_eq, htags', hpayload, mapM_eq_ok_iff.mpr hplaced',
    hderived.alignment_eq, hsize'⟩

end IsReordering

/-! ### Checks of variants -/

/-- What is checked of a value that has the tag of a variant, which has a discriminant. -/
structure IsCheckOf (r : Registry κ) (u : TaggedUnion) (width : IntWidth) (start size : UInt64)
    (variant : Variant) (check : VariantCheck (Predicate κ)) : Prop where
  tag_eq : check.tag =
    Discriminant.lowBytes width ((variant.discriminant?.map (·.toInt)).getD 0)
  payload_eq : ∃ fields, u.placeVariant r start variant = .ok fields ∧
    check.payload = u.payload size variant fields
  name_eq : check.name = variant.name

/-- A variant determines what is checked of its values. -/
lemma rightUnique_isCheckOf (r : Registry κ) (u : TaggedUnion) (width : IntWidth)
    (start size : UInt64) : Relator.RightUnique (u.IsCheckOf r width start size) := by
  rintro variant ⟨tag, payload, name⟩ ⟨tag', payload', name'⟩ ⟨rfl, ⟨fields, hfields, rfl⟩, rfl⟩
    ⟨rfl, ⟨fields', hfields', rfl⟩, rfl⟩
  obtain rfl := Except.ok.inj (hfields.symm.trans hfields')
  rfl

lemma Derived.forall₂_isCheckOf (h : u.Derived r placed width tags payload alignment size)
    (hgiven : ∀ variant ∈ u.variants, variant.discriminant?.isSome = true) :
    List.Forall₂ (u.IsCheckOf r width (roundUp u.tagStop payload) size) u.variants
      (u.variantChecks size tags placed) := by
  rw [variantChecks, h.tags_spec.1, discriminants_of_given hgiven, List.map_map]
  have hplaced := mapM_eq_ok_iff.mp h.placed_eq
  clear h
  generalize u.variants = variants at hplaced ⊢
  induction hplaced with
  | nil => exact .nil
  | cons hfields hrest ih => exact .cons ⟨rfl, ⟨_, hfields, rfl⟩, rfl⟩ ih

lemma IsReordering.variantChecks_perm (h : u.IsReordering u')
    (hderived : u.Derived r placed width tags payload alignment size)
    (hderived' : u'.Derived r placed' width tags' payload alignment size) :
    (u'.variantChecks size tags' placed').Perm (u.variantChecks size tags placed) := by
  have hstart : roundUp u'.tagStop payload = roundUp u.tagStop payload := by
    rw [h.eq]
    rfl
  have hchecks' : List.Forall₂ (u.IsCheckOf r width (roundUp u.tagStop payload) size) u'.variants
      (u'.variantChecks size tags' placed') := by
    refine (hderived'.forall₂_isCheckOf h.symm.given).imp ?_
    intro variant check hcheck
    rw [hstart, h.eq] at hcheck
    exact ⟨hcheck.tag_eq, hcheck.payload_eq, hcheck.name_eq⟩
  exact List.rel_perm_imp (rightUnique_isCheckOf r u width _ size) hchecks'
    (hderived.forall₂_isCheckOf h.given) h.perm

/-! ### Layouts -/

variable [Check κ]

/-- The facts of a tagged union with its variants in two orders. -/
structure SameUpToTagOrder (u : TaggedUnion) (fact fact' : LayoutFact κ) : Prop where
  size_eq : fact'.size = fact.size
  alignment_eq : fact'.alignment = fact.alignment
  accepts_iff : ∀ bytes,
    fact'.validity.findViolation bytes = .ok none ↔ fact.validity.findViolation bytes = .ok none
  /-- Of an unknown tag the tags of the variants may be listed in another order. -/
  report : ∀ bytes, fact'.validity.findViolation bytes = fact.validity.findViolation bytes ∨
    (∀ i, ¬ u.HasTag bytes i) ∧ ∃ v ranges, v.kind = .invalidDiscriminant ∧
      ranges.Perm v.valid.ranges ∧ fact.validity.findViolation bytes = .ok (some v) ∧
      fact'.validity.findViolation bytes = .ok (some { v with valid := ⟨ranges⟩ })

lemma Derived.sameUpToTagOrder (hderived : u.Derived r placed width tags payload alignment size)
    {checks : List (VariantCheck (Predicate κ))}
    (hperm : checks.Perm (u.variantChecks size tags placed)) :
    u.SameUpToTagOrder
      ⟨⟨size, alignment⟩, u.name, .oneOf size u.name u.tag.offset width u.tag.signed
        (u.variantChecks size tags placed)⟩
      ⟨⟨size, alignment⟩, u.name, .oneOf size u.name u.tag.offset width u.tag.signed checks⟩ := by
  have hnodup := hderived.masked_variantChecks.symm ▸ hderived.tags_spec.2
  have hreport := Predicate.findViolation_oneOf_perm size u.name u.tag.offset u.tag.signed hperm
    hnodup
  constructor
  case size_eq => rfl
  case alignment_eq => rfl
  case accepts_iff =>
    intro bytes
    rcases hreport bytes with hsame | ⟨-, -, hunknown, hunknown'⟩
    · rw [hsame]
    · simp [hunknown, hunknown']
  case report =>
    intro bytes
    refine (hreport bytes).imp_right ?_
    rintro ⟨hle, hne, hunknown, hunknown'⟩
    have htag : u.tag.offset.toNat + u.tag.width.toNat ≤ bytes.length := hderived.width_eq ▸ hle
    refine ⟨?_, _, _, rfl, (hperm.map _).map _, hunknown, hunknown'⟩
    intro i hi
    obtain ⟨check, hcheck, heq⟩ := (hderived.exists_hasTag_iff htag).mp ⟨i, hi⟩
    exact hne check hcheck heq

/-- A layout in one order is one in the other. -/
lemma IsReordering.exists_layout (h : u.IsReordering u') {fact : LayoutFact κ}
    (hlayout : u.layout r = .ok (placed, fact)) :
    ∃ placed' fact', u'.layout r = .ok (placed', fact') ∧ u.SameUpToTagOrder fact fact' := by
  obtain ⟨width, tags, payload, alignment, size, htag, hne, hderived, rfl⟩ :=
    layout_eq_ok_iff.mp hlayout
  obtain ⟨placed', tags', hderived'⟩ := h.exists_derived hderived
  have hsame := hderived.sameUpToTagOrder (h.variantChecks_perm hderived hderived')
  refine ⟨placed', _, layout_eq_ok_iff.mpr
    ⟨width, tags', payload, alignment, size, ?_, hne, hderived', rfl⟩, ?_⟩
  · rw [h.eq]
    exact htag
  · rw [h.eq] at hsame ⊢
    exact hsame

/-- Whatever is registered: where every variant of a tagged union has a discriminant, its variants
can be described in any order. There is a layout in one order when there is one in the other, with
the same size and alignment, and the same is reported of any bytes. Only where the tag is none of a
variant may the tags of the variants be listed in different orders. -/
theorem variant_order_does_not_matter (r : Registry κ)
    (hgiven : ∀ variant ∈ u.variants, variant.discriminant?.isSome = true)
    {variants' : List Variant} (hperm : variants'.Perm u.variants) :
    let u' := { u with variants := variants' }
    ((∃ fact, u'.layoutFact r = .ok fact) ↔ ∃ fact, u.layoutFact r = .ok fact) ∧
    ∀ fact fact', u.layoutFact r = .ok fact → u'.layoutFact r = .ok fact' →
      u.SameUpToTagOrder fact fact' := by
  intro u'
  have h : u.IsReordering u' := ⟨rfl, hperm, hgiven⟩
  simp only [layoutFact, map_eq_ok_iff, Prod.exists]
  refine ⟨⟨?_, ?_⟩, ?_⟩
  · rintro ⟨_, placed', fact', hlayout', rfl⟩
    obtain ⟨placed, fact, hlayout, -⟩ := h.symm.exists_layout hlayout'
    exact ⟨_, placed, fact, hlayout, rfl⟩
  · rintro ⟨_, placed, fact, hlayout, rfl⟩
    obtain ⟨placed', fact', hlayout', -⟩ := h.exists_layout hlayout
    exact ⟨_, placed', fact', hlayout', rfl⟩
  · rintro _ _ ⟨placed, fact, hlayout, rfl⟩ ⟨placed', fact', hlayout', rfl⟩
    obtain ⟨reordered, _, hreordered, hsame⟩ := h.exists_layout hlayout
    obtain ⟨-, rfl⟩ := Prod.mk.inj (Except.ok.inj (hreordered.symm.trans hlayout'))
    exact hsame

end TaggedUnion

/-- A word, a flag or nothing, with the greatest discriminant first. -/
def numberedParts : TaggedUnion :=
  ⟨"parts", .standard, [⟨"word", some 7, [⟨"word", ⟨0⟩, none⟩]⟩,
    ⟨"flag", some 2, [⟨"flag", ⟨1⟩, none⟩]⟩, ⟨"nothing", some 0, []⟩], none, none⟩

/-- The same, with the word last. -/
def partsInOrder : List Variant :=
  [⟨"flag", some 2, [⟨"flag", ⟨1⟩, none⟩]⟩, ⟨"nothing", some 0, []⟩,
    ⟨"word", some 7, [⟨"word", ⟨0⟩, none⟩]⟩]

theorem variant_order_does_not_matter_parts :
    partsInOrder.Perm numberedParts.variants ∧
      ∃ fact fact', numberedParts.layoutFact Registry.flagRegistry = .ok fact ∧
        { numberedParts with variants := partsInOrder }.layoutFact Registry.flagRegistry =
          .ok fact' ∧
        numberedParts.SameUpToTagOrder fact fact' := by
  have hgiven : ∀ variant ∈ numberedParts.variants, variant.discriminant?.isSome = true := by
    simp [numberedParts]
  have hperm : partsInOrder.Perm numberedParts.variants :=
    @List.perm_append_comm _ (partsInOrder.take 2) (partsInOrder.drop 2)
  have hlayout : ∃ fact, numberedParts.layoutFact Registry.flagRegistry = .ok fact := by
    rw [Registry.flagRegistry_eq]
    exact ⟨_, by cbv⟩
  obtain ⟨hexists, hsame⟩ :=
    TaggedUnion.variant_order_does_not_matter Registry.flagRegistry hgiven hperm
  obtain ⟨fact, hfact⟩ := hlayout
  obtain ⟨fact', hfact'⟩ := hexists.mpr ⟨fact, hfact⟩
  exact ⟨hperm, fact, fact', hfact, hfact', hsame fact fact' hfact hfact'⟩

end BitValidity
