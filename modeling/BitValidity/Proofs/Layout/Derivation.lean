import BitValidity.Proofs.Layout.Discriminants
import BitValidity.Proofs.Layout.Placement
import BitValidity.Registry.Definition

/-!
# Derived layouts

What it takes for the layout of a composite to be derived, and what the layout then is. Each of
these lemmas turns a chain of steps that can fail into the facts that are established on the way;
only the placement of the fields mentions the registry, so a layout that is derived stays derivable
when more facts become known.
-/

namespace BitValidity

variable {κ : Type} {r : Registry κ}

/-! ### Alignment and size of the whole -/

lemma resolveAlignment_eq_ok_iff {owner : String} {requested? : Option UInt64}
    {natural alignment : UInt64} (hnatural : 0 < natural.toNat) :
    resolveAlignment owner requested? natural = .ok alignment ↔
      isPowerOfTwo (requested?.getD 1) = true ∧ alignment = max natural (requested?.getD 1) := by
  cases requested? with
  | none =>
    have hmax : max natural 1 = natural := by
      rw [← UInt64.toNat_inj, toNat_max]
      exact max_eq_left hnatural
    simp only [resolveAlignment, Except.ok.injEq, Option.getD_none, hmax]
    constructor
    · rintro rfl
      exact ⟨rfl, rfl⟩
    · rintro ⟨-, rfl⟩
      rfl
  | some requested =>
    simp only [resolveAlignment, Option.getD_some]
    by_cases hpow : isPowerOfTwo requested = true
    · simp [hpow, eq_comm]
    · simp [hpow]

/-- A computed size is what is required, rounded up; a declared one holds it and every field, and is
a multiple. -/
lemma resolveSize_eq_ok_iff {owner : String} {declared? : Option UInt64}
    {required alignment size : UInt64} {fields : List (PlacedField κ)} :
    resolveSize owner declared? required alignment fields = .ok size ↔
      alignment ≠ 0 ∧ (declared? = none ∧ size = roundUp required alignment ∨
        declared? = some size ∧ (∀ p ∈ fields, p.stop.toNat ≤ size.toNat) ∧
          required.toNat ≤ size.toNat ∧ alignment.toNat ∣ size.toNat) := by
  cases declared? with
  | none =>
    simp only [resolveSize, bind_eq_ok_iff, pure_eq_ok_iff, liftM_breach_eq_ok_iff,
      divisor_eq_ok_iff, and_assoc, exists_and_left, exists_eq_left', eq_comm (a := size)]
    simp
  | some declared =>
    have hmod : declared % alignment = 0 ↔ alignment.toNat ∣ declared.toNat := by
      rw [← UInt64.toNat_inj, UInt64.toNat_mod, Nat.dvd_iff_mod_eq_zero]
      rfl
    have hlt : declared < required ↔ ¬ required.toNat ≤ declared.toNat := by
      rw [UInt64.lt_iff_toNat_lt, not_le]
    have hfind : fields.find? (declared < ·.stop) = none ↔
        ∀ p ∈ fields, p.stop.toNat ≤ declared.toNat := by
      simp [UInt64.lt_iff_toNat_lt]
    simp only [resolveSize, reduceCtorEq, false_and, false_or, Option.some.injEq]
    split
    · rename_i p hp
      apply iff_of_false
      · intro h
        cases h
      · rintro ⟨-, rfl, hstop, -⟩
        cases (hfind.mpr hstop).symm.trans hp
    · rename_i hnone
      simp only [bind_eq_ok_iff, liftM_breach_eq_ok_iff, divisor_eq_ok_iff, and_assoc,
        exists_and_left, exists_eq_left', ne_eq, hlt, hmod, ← not_and_or]
      refine and_congr_right fun _ => ?_
      split
      · rename_i hdeclared
        apply iff_of_false
        · intro h
          cases h
        · rintro ⟨rfl, -, hrest⟩
          exact hdeclared hrest
      · rename_i hdeclared
        rw [pure_eq_ok_iff]
        constructor
        · rintro rfl
          exact ⟨rfl, hfind.mp hnone, not_not.mp hdeclared⟩
        · rintro ⟨rfl, -⟩
          rfl

/-- A size is found for the fields in any order. -/
lemma resolveSize_perm {owner : String} {declared? : Option UInt64} {alignment size least : UInt64}
    {fields fields' : List (PlacedField κ)} (hperm : fields'.Perm fields) :
    resolveSize owner declared? (lastStop least fields') alignment fields' = .ok size ↔
      resolveSize owner declared? (lastStop least fields) alignment fields = .ok size := by
  simp only [resolveSize_eq_ok_iff, lastStop_perm hperm, hperm.mem_iff]

/-- The size is a multiple of the alignment, whether it is declared or computed. -/
lemma dvd_of_resolveSize {owner : String} {declared? : Option UInt64}
    {required alignment size : UInt64} {fields : List (PlacedField κ)}
    (h : resolveSize owner declared? required alignment fields = .ok size) :
    alignment.toNat ∣ size.toNat := by
  obtain ⟨-, ⟨-, rfl⟩ | ⟨-, -, -, hdvd⟩⟩ := resolveSize_eq_ok_iff.mp h
  · exact dvd_roundUp required alignment
  · exact hdvd

/-- The size holds what is required exactly when a size that is computed does not wrap. -/
lemma le_iff_sizeFits {owner : String} {declared? : Option UInt64}
    {required alignment size : UInt64} {fields : List (PlacedField κ)}
    (halignment : isPowerOfTwo alignment = true)
    (h : resolveSize owner declared? required alignment fields = .ok size) :
    required.toNat ≤ size.toNat ↔ sizeFits declared? required alignment = true := by
  have hroom := add_le_of_dvd halignment (dvd_of_resolveSize h)
  obtain ⟨-, ⟨rfl, rfl⟩ | ⟨rfl, -, hle, -⟩⟩ := resolveSize_eq_ok_iff.mp h
  · simp only [sizeFits, Option.isSome_none, Bool.false_or, roundUpFits_iff]
    constructor
    · intro hle
      omega
    · intro hfits
      exact le_roundUp (toNat_pos_of_isPowerOfTwo halignment) hfits
  · exact iff_of_true hle (by simp [sizeFits])

/-! ### Aggregates -/

namespace Aggregate

variable {a : Aggregate κ} {layout : AggregateLayout κ}

theorem sequentialLayout_eq_ok_iff :
    a.sequentialLayout r = .ok layout ↔ ∃ fields alignment size,
      Placed r a.fields 0 fields ∧
      checkOverlap a.name (fields.map (·.extent)) = .ok () ∧
      resolveAlignment a.name a.alignment? (strictestAlignment 1 fields) = .ok alignment ∧
      resolveSize a.name a.size? (lastStop 0 fields) alignment fields = .ok size ∧
      a.checkInvariant size = .ok () ∧
      layout = ⟨fields, ⟨⟨size, alignment⟩, a.name,
        .allOf size a.name (fields.map (·.check)) a.invariant?⟩⟩ := by
  simp only [sequentialLayout, bind_eq_ok_iff, pure_eq_ok_iff, liftM_error_eq_ok_iff,
    placeFields_eq_ok_iff]
  constructor
  · rintro ⟨fields, hplaced, ⟨⟩, hoverlap, alignment, halignment, size, hsize, ⟨⟩, hinvariant, rfl⟩
    exact ⟨fields, alignment, size, hplaced, hoverlap, halignment, hsize, hinvariant, rfl⟩
  · rintro ⟨fields, alignment, size, hplaced, hoverlap, halignment, hsize, hinvariant, rfl⟩
    exact ⟨fields, hplaced, (), hoverlap, alignment, halignment, size, hsize, (), hinvariant, rfl⟩

lemma checkInvariant_eq_ok_iff {size : UInt64} :
    a.checkInvariant size = .ok () ↔ ∀ p ∈ a.invariant?, p.size = size := by
  simp only [checkInvariant]
  cases a.invariant? <;> simp

/-- A field of a transparent aggregate is at its start, and takes no room if it is empty. -/
structure IsTransparentField (r : Registry κ) (field : Field) (p : PlacedField κ) : Prop where
  field_eq : p.field = field
  fact_eq : r.fact? field.type = some p.fact
  offset_eq : p.offset = 0
  atStart : field.offset?.getD 0 = 0
  unaligned : ¬ (p.fact.size = 0 ∧ p.fact.alignment ≠ 1)

theorem placeTransparent_eq_ok_iff {owner : String} {fields : List Field}
    {placed : List (PlacedField κ)} :
    placeTransparent r owner fields = .ok placed ↔
      List.Forall₂ (IsTransparentField r) fields placed := by
  induction fields generalizing placed with
  | nil => simp [placeTransparent, eq_comm]
  | cons field rest ih =>
    simp only [placeTransparent, bind_eq_ok_iff, Registry.fieldFact_eq_ok_iff]
    constructor
    · rintro ⟨fact, hfact, h⟩
      split at h
      · cases h
      · split at h
        · cases h
        · rename_i hstart hmarker
          obtain ⟨placed, hrest, h⟩ := bind_eq_ok_iff.mp h
          cases h
          exact .cons ⟨rfl, hfact, rfl, not_not.mp hstart, hmarker⟩ (ih.mp hrest)
    · rintro (_ | ⟨⟨rfl, hfact, hoffset, hstart, hmarker⟩, hrest⟩)
      rename_i p placed
      refine ⟨p.fact, hfact, ?_⟩
      rw [if_neg (not_not.mpr hstart), if_neg hmarker, ih.mpr hrest, ok_bind, ← hoffset]
      rfl

/-- The field whose layout a transparent aggregate has is the only one that is not empty. -/
lemma innerField_eq_ok_iff {owner : String} {fields : List (PlacedField κ)}
    {inner : PlacedField κ} :
    innerField owner fields = .ok inner ↔ fields.filter (·.fact.size != 0) = [inner] := by
  simp only [innerField]
  split <;> simp_all

lemma transparentFields_eq_ok_iff {fields : List (PlacedField κ)} {inner : PlacedField κ} :
    a.transparentFields r = .ok (fields, inner) ↔
      a.alignment? = none ∧ a.invariant? = none ∧
      List.Forall₂ (IsTransparentField r) a.fields fields ∧
      fields.filter (·.fact.size != 0) = [inner] ∧ a.checkTransparentSize inner = .ok () := by
  simp only [transparentFields]
  split
  · simp_all
  · simp_all
  · rename_i halignment hinvariant
    simp only [bind_eq_ok_iff, pure_eq_ok_iff, placeTransparent_eq_ok_iff, innerField_eq_ok_iff,
      Prod.mk.injEq, halignment, hinvariant, true_and]
    constructor
    · rintro ⟨_, hfields, _, hinner, ⟨⟩, hsize, rfl, rfl⟩
      exact ⟨hfields, hinner, hsize⟩
    · rintro ⟨hfields, hinner, hsize⟩
      exact ⟨_, hfields, _, hinner, (), hsize, rfl, rfl⟩

variable [Check κ]

/-- A transparent aggregate has the storage of its inner field, and its validity too unless an empty
field has no value. -/
theorem transparentLayout_eq_ok_iff :
    a.transparentLayout r = .ok layout ↔ ∃ fields inner markers,
      a.transparentFields r = .ok (fields, inner) ∧
      List.Forall₂ (fun p marker => p.fact.hasEmptyValue = .ok marker)
        (fields.filter (·.fact.size == 0)) markers ∧
      layout = ⟨fields, ⟨inner.fact.toStorage, a.name,
        if markers.all id then .passthrough a.name inner.fact.validity
        else .noneValid inner.fact.size a.name⟩⟩ := by
  simp only [transparentLayout, bind_eq_ok_iff, pure_eq_ok_iff, liftM_error_eq_ok_iff,
    mapM_eq_ok_iff, liftM_breach_eq_ok_iff, Prod.exists, eq_comm (a := layout)]
  simp only [exists_and_left]

/-- An aggregate is laid out in one of two ways. One that is packed never is. -/
theorem layout_eq_ok_iff :
    a.layout r = .ok layout ↔
      (a.representation = .sequential ∧ a.sequentialLayout r = .ok layout) ∨
      (a.representation = .transparent ∧ a.transparentLayout r = .ok layout) := by
  rw [Aggregate.layout]
  cases a.representation <;> simp

/-- A layout that is derived stays derivable when more facts become known. -/
theorem layout_mono {r' : Registry κ} (hle : ∀ type fact, r.fact? type = some fact →
    r'.fact? type = some fact) (h : a.layout r = .ok layout) : a.layout r' = .ok layout := by
  rw [layout_eq_ok_iff] at h ⊢
  rcases h with ⟨hrep, h⟩ | ⟨hrep, h⟩
  · left
    rw [sequentialLayout_eq_ok_iff] at h ⊢
    obtain ⟨fields, alignment, size, hplaced, hrest⟩ := h
    exact ⟨hrep, fields, alignment, size, hplaced.mono hle, hrest⟩
  · right
    rw [transparentLayout_eq_ok_iff] at h ⊢
    obtain ⟨fields, inner, markers, hfields, hrest⟩ := h
    rw [transparentFields_eq_ok_iff] at hfields
    obtain ⟨halignment, hinvariant, hfields, hinner⟩ := hfields
    have hfields' : List.Forall₂ (IsTransparentField r') a.fields fields := by
      apply hfields.imp
      intro field p hp
      exact { hp with fact_eq := hle _ _ hp.fact_eq }
    exact ⟨hrep, fields, inner, markers,
      transparentFields_eq_ok_iff.mpr ⟨halignment, hinvariant, hfields', hinner⟩, hrest⟩

end Aggregate

/-! ### Tagged unions -/

namespace TaggedUnion

variable {u : TaggedUnion}

/-- The bytes of the tag. -/
def tagExtent (u : TaggedUnion) : Extent := ⟨u.tag.offset, u.tag.width.toUInt64, "tag"⟩

/-- The strictest alignment is that of the facts of all fields. -/
lemma payloadAlignment_eq_ok_iff {payload : UInt64} :
    u.payloadAlignment r = .ok payload ↔ ∃ facts,
      List.Forall₂ (fun field fact => r.fact? field.type = some fact)
        (u.variants.flatMap (·.fields)) facts ∧
      payload = facts.foldl (fun a fact => max a fact.alignment) 1 := by
  simp only [payloadAlignment, bind_eq_ok_iff, pure_eq_ok_iff, mapM_eq_ok_iff,
    Registry.fieldFact_eq_ok_iff, eq_comm (a := payload)]

lemma placeVariant_eq_ok_iff {start : UInt64} {variant : Variant} {fields : List (PlacedField κ)} :
    u.placeVariant r start variant = .ok fields ↔
      Placed r variant.fields start fields ∧
        checkOverlap (u.variantName variant) (fields.map (·.extent) ++ [u.tagExtent]) = .ok () := by
  simp only [placeVariant, bind_eq_ok_iff, pure_eq_ok_iff, liftM_error_eq_ok_iff,
    placeFields_eq_ok_iff]
  constructor
  · rintro ⟨_, hplaced, ⟨⟩, hoverlap, rfl⟩
    exact ⟨hplaced, hoverlap⟩
  · rintro ⟨hplaced, hoverlap⟩
    exact ⟨_, hplaced, (), hoverlap, rfl⟩

/-- What the layout of a tagged union is made of. -/
structure Derived (r : Registry κ) (u : TaggedUnion) (placed : List (List (PlacedField κ)))
    (width : IntWidth) (tags : List UInt64) (payload alignment size : UInt64) : Prop where
  width_eq : u.tag.width.toNat = width.bytes
  tags_eq : resolveDiscriminants u.name u.tag (u.variants.map (·.discriminant?)) = .ok tags
  payload_eq : u.payloadAlignment r = .ok payload
  placed_eq : u.variants.mapM (u.placeVariant r (roundUp u.tagStop payload)) = .ok placed
  alignment_eq :
    resolveAlignment u.name u.alignment? (max width.toUInt64 payload) = .ok alignment
  size_eq : resolveSize u.name u.size? (lastStop u.tagStop placed.flatten) alignment
    placed.flatten = .ok size

theorem layout_eq_ok_iff {placed : List (List (PlacedField κ))} {fact : LayoutFact κ} :
    u.layout r = .ok (placed, fact) ↔ ∃ width tags payload alignment size,
      u.checkTagOffset = .ok () ∧ payload ≠ 0 ∧
      u.Derived r placed width tags payload alignment size ∧
      fact = ⟨⟨size, alignment⟩, u.name, .oneOf size u.name u.tag.offset width u.tag.signed
        (u.variantChecks size tags placed)⟩ := by
  simp only [layout, bind_eq_ok_iff, pure_eq_ok_iff, liftM_error_eq_ok_iff, liftM_breach_eq_ok_iff,
    divisor_eq_ok_iff, Prod.mk.injEq, Tag.checkedWidth_eq_ok_iff]
  constructor
  · rintro ⟨width, hwidth, tags, htags, ⟨⟩, htag, payload, hpayload, _, ⟨hne, rfl⟩, placed, hplaced,
      alignment, halignment, size, hsize, rfl, rfl⟩
    exact ⟨width, tags, payload, alignment, size, htag, hne,
      ⟨hwidth, htags, hpayload, hplaced, halignment, hsize⟩, rfl⟩
  · rintro ⟨width, tags, payload, alignment, size, htag, hne, h, rfl⟩
    exact ⟨width, h.width_eq, tags, h.tags_eq, (), htag, payload, h.payload_eq, payload,
      ⟨hne, rfl⟩, placed, h.placed_eq, alignment, h.alignment_eq, size, h.size_eq, rfl, rfl⟩

theorem derived_of_layout {placed : List (List (PlacedField κ))} {fact : LayoutFact κ}
    (h : u.layout r = .ok (placed, fact)) : ∃ width tags payload alignment size,
      u.Derived r placed width tags payload alignment size ∧
      fact = ⟨⟨size, alignment⟩, u.name, .oneOf size u.name u.tag.offset width u.tag.signed
        (u.variantChecks size tags placed)⟩ := by
  obtain ⟨width, tags, payload, alignment, size, -, -, hderived, hfact⟩ := layout_eq_ok_iff.mp h
  exact ⟨width, tags, payload, alignment, size, hderived, hfact⟩

namespace Derived

variable {placed : List (List (PlacedField κ))} {width : IntWidth} {tags : List UInt64}
  {payload alignment size : UInt64}

/-- The fields of each variant are placed from the same offset on. -/
lemma variants (h : u.Derived r placed width tags payload alignment size) :
    List.Forall₂ (fun variant fields =>
      Placed r variant.fields (roundUp u.tagStop payload) fields ∧
        checkOverlap (u.variantName variant) (fields.map (·.extent) ++ [u.tagExtent]) = .ok ())
      u.variants placed :=
  (mapM_eq_ok_iff.mp h.placed_eq).imp fun _ _ => placeVariant_eq_ok_iff.mp

/-- What the layout is made of does not change when more facts become known. -/
lemma mono {r' : Registry κ} (hle : ∀ type fact, r.fact? type = some fact →
    r'.fact? type = some fact) (h : u.Derived r placed width tags payload alignment size) :
    u.Derived r' placed width tags payload alignment size where
  width_eq := h.width_eq
  tags_eq := h.tags_eq
  payload_eq := by
    obtain ⟨facts, hfacts, hpayload⟩ := payloadAlignment_eq_ok_iff.mp h.payload_eq
    exact payloadAlignment_eq_ok_iff.mpr ⟨facts, hfacts.imp fun _ _ => hle _ _, hpayload⟩
  placed_eq := by
    refine mapM_eq_ok_iff.mpr (h.variants.imp ?_)
    rintro variant fields ⟨hplaced, hoverlap⟩
    exact placeVariant_eq_ok_iff.mpr ⟨hplaced.mono hle, hoverlap⟩
  alignment_eq := h.alignment_eq
  size_eq := h.size_eq

lemma tagWidth_eq (h : u.Derived r placed width tags payload alignment size) :
    u.tag.width.toUInt64 = width.toUInt64 := by
  rw [← UInt64.toNat_inj, UInt32.toNat_toUInt64, h.width_eq, IntWidth.toNat_toUInt64]

end Derived

/-- A layout that is derived stays derivable when more facts become known. -/
theorem layout_mono {r' : Registry κ} {placed : List (List (PlacedField κ))} {fact : LayoutFact κ}
    (hle : ∀ type fact, r.fact? type = some fact → r'.fact? type = some fact)
    (h : u.layout r = .ok (placed, fact)) : u.layout r' = .ok (placed, fact) := by
  rw [layout_eq_ok_iff] at h ⊢
  obtain ⟨width, tags, payload, alignment, size, htag, hne, hderived, hfact⟩ := h
  exact ⟨width, tags, payload, alignment, size, htag, hne, hderived.mono hle, hfact⟩

end TaggedUnion

/-! ### Enumerations -/

/-- The fact of an enumeration, whatever the checks that a caller supplies. -/
theorem Enumeration.layoutFact_eq_ok_iff {e : Enumeration} {fact : LayoutFact κ} :
    e.layoutFact = .ok fact ↔ ∃ width tags,
      e.tag.offset = 0 ∧ e.tag.checkedWidth e.name = .ok width ∧
      resolveDiscriminants e.name e.tag e.discriminants = .ok tags ∧
      fact = ⟨⟨width.toUInt64, width.toUInt64⟩, e.name,
        .intRanges width e.tag.signed (IntRange.gather width e.tag.signed tags) e.name⟩ := by
  simp only [layoutFact]
  split
  · simp_all
  · rename_i hoffset
    simp only [bind_eq_ok_iff, pure_eq_ok_iff, not_not.mp hoffset, true_and, eq_comm (a := fact)]
    constructor
    · rintro ⟨width, hwidth, tags, htags, h⟩
      exact ⟨width, tags, hwidth, htags, h⟩
    · rintro ⟨width, tags, hwidth, htags, h⟩
      exact ⟨width, hwidth, tags, htags, h⟩

/-! ### Descriptions -/

namespace Description

variable [Check κ] {draft : DraftFact κ}

lemma fact_aggregate_eq_ok_iff {a : Aggregate κ} :
    (aggregate a).fact r = .ok draft ↔ ∃ layout, a.layout r = .ok layout ∧
      layout.fact.draft = draft := by
  simp [fact, Aggregate.layoutFact]

lemma fact_taggedUnion_eq_ok_iff {u : TaggedUnion} :
    (taggedUnion u).fact r = .ok draft ↔ ∃ fact placed, u.layout r = .ok (placed, fact) ∧
      fact.draft = draft := by
  simp [fact, TaggedUnion.layoutFact]

lemma fact_enumeration_eq_ok_iff {e : Enumeration} :
    (enumeration e).fact r = .ok draft ↔ ∃ fact : LayoutFact κ, e.layoutFact = .ok fact ∧
      fact.draft = draft := by
  simp [fact]

/-- A fact that is derived stays derivable when more facts become known, and is the same. -/
theorem fact_mono {r' : Registry κ} {description : Description κ}
    (hle : ∀ type fact, r.fact? type = some fact → r'.fact? type = some fact)
    (h : description.fact r = .ok draft) : description.fact r' = .ok draft := by
  cases description with
  | leaf leaf => exact h
  | aggregate a =>
    obtain ⟨layout, hlayout, hdraft⟩ := fact_aggregate_eq_ok_iff.mp h
    exact fact_aggregate_eq_ok_iff.mpr ⟨layout, a.layout_mono hle hlayout, hdraft⟩
  | taggedUnion u =>
    obtain ⟨fact, placed, hlayout, hdraft⟩ := fact_taggedUnion_eq_ok_iff.mp h
    exact fact_taggedUnion_eq_ok_iff.mpr ⟨fact, placed, u.layout_mono hle hlayout, hdraft⟩
  | enumeration e => exact h

end Description

end BitValidity
