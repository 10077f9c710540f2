import BitValidity.Proofs.Layout.Derivation
import BitValidity.Proofs.Predicate.Acceptance
import BitValidity.Proofs.Registry.Consistency

/-!
# Fields inside their type

The fields of a derived layout should lie inside the type, where they are aligned and apart from
each other, and so should the tag of a tagged union. All tests for this are made in words that wrap,
and a sum that wraps goes unnoticed: a field can be accepted that ends past all words. The fields
are where they should be exactly when no sum wraps in the placement.
-/

namespace BitValidity

variable {κ : Type} {r : Registry κ}

/-! ### Containment -/

/-- In unbounded arithmetic the fields end inside as many bytes, each is where it is aligned, and no
two of them share a byte. -/
structure Contained (total : UInt64) (placed : List (PlacedField κ)) : Prop where
  inside : ∀ p ∈ placed, p.offset.toNat + p.fact.size.toNat ≤ total.toNat
  aligned : ∀ p ∈ placed, p.fact.alignment.toNat ∣ p.offset.toNat
  disjoint : (placed.map (·.extent)).Pairwise Extent.Disjoint

lemma lastStop_le_iff {least : UInt64} {fields : List (PlacedField κ)} {total : ℕ} :
    (lastStop least fields).toNat ≤ total ↔
      least.toNat ≤ total ∧ ∀ p ∈ fields, p.stop.toNat ≤ total := by
  constructor
  · intro h
    refine ⟨(le_foldl_max_init _ _ _).trans h, ?_⟩
    intro p hp
    exact (le_foldl_max PlacedField.stop hp least).trans h
  · rintro ⟨hleast, hfields⟩
    exact foldl_max_induction PlacedField.stop (P := (·.toNat ≤ total)) hleast hfields

lemma PlacedField.toNat_stop {p : PlacedField κ}
    (h : p.offset.toNat + p.fact.size.toNat < 2 ^ 64) :
    p.stop.toNat = p.offset.toNat + p.fact.size.toNat :=
  toNat_add_of_lt h

/-- Where no sum wraps, fields that end in time end so in unbounded arithmetic. -/
lemma Placed.inside_of_fieldsFit {fields : List Field} {cursor : UInt64}
    {placed : List (PlacedField κ)} {total : ℕ} (h : Placed r fields cursor placed)
    (hfits : fieldsFit r fields cursor = true) (hstop : ∀ p ∈ placed, p.stop.toNat ≤ total) :
    ∀ p ∈ placed, p.offset.toNat + p.fact.size.toNat ≤ total := by
  intro p hp
  rw [← PlacedField.toNat_stop (h.sumFits_of_fieldsFit hfits p hp)]
  exact hstop p hp

/-! ### Aggregates -/

namespace Aggregate

variable {a : Aggregate κ} {layout : AggregateLayout κ}

lemma isPowerOfTwo_strictestAlignment (hr : r.Consistent) {fields : List Field} {cursor : UInt64}
    {placed : List (PlacedField κ)} (h : Placed r fields cursor placed) :
    isPowerOfTwo (strictestAlignment 1 placed) = true := by
  apply foldl_max_induction _ (P := (isPowerOfTwo · = true)) rfl
  intro p hp
  exact hr.aligned _ _ (h.fact_eq hp)

/-- The fields of an aggregate are inside it exactly when no sum wraps. -/
lemma contained_iff_of_sequentialLayout (hr : r.Consistent) (hrep : a.representation = .sequential)
    (h : a.sequentialLayout r = .ok layout) :
    Contained layout.fact.size layout.fields ↔ a.fits r = true := by
  obtain ⟨fields, alignment, size, hplaced, hoverlap, halignment, hsize, -, rfl⟩ :=
    sequentialLayout_eq_ok_iff.mp h
  have hnatural := isPowerOfTwo_strictestAlignment hr hplaced
  obtain ⟨hrequested, rfl⟩ :=
    (resolveAlignment_eq_ok_iff (toNat_pos_of_isPowerOfTwo hnatural)).mp halignment
  have hpow := isPowerOfTwo_max hnatural hrequested
  have hroom := add_le_of_dvd hpow (dvd_of_resolveSize hsize)
  have hfits : a.fits r = true ↔ fieldsFit r a.fields 0 = true ∧
      (lastStop 0 fields).toNat ≤ size.toNat := by
    rw [le_iff_sizeFits hpow hsize, fits, hrep]
    simp [placeFields_eq_ok_iff.mpr hplaced]
  rw [hfits, lastStop_le_iff]
  constructor
  · intro hcontained
    have hinside : ∀ p ∈ fields, p.offset.toNat + p.fact.size.toNat ≤ size.toNat :=
      hcontained.inside
    refine ⟨?_, Nat.zero_le _, ?_⟩
    · apply hplaced.fieldsFit_of_le (Nat.zero_le size.toNat) _ size.toNat_lt
      intro p hp
      refine ⟨hinside p hp, ?_⟩
      have hle := le_foldl_max (fun p : PlacedField κ => p.fact.alignment) hp 1
      rw [toNat_max] at hroom
      simp only [strictestAlignment] at hroom hle
      omega
    · intro p hp
      rw [PlacedField.toNat_stop ((hinside p hp).trans_lt size.toNat_lt)]
      exact hinside p hp
  · rintro ⟨hfields, -, hstop⟩
    have hnowrap := hplaced.sumFits_of_fieldsFit hfields
    exact {
      inside := hplaced.inside_of_fieldsFit hfields hstop
      aligned := fun p hp => hplaced.dvd_offset hp
      disjoint := (checkOverlap_eq_ok_iff (List.forall_mem_map.mpr hnowrap)).mp hoverlap }

end Aggregate

/-! ### Tagged unions -/

namespace TaggedUnion

/-- In unbounded arithmetic the tag ends inside the union, and the fields of each variant are inside
it and share no byte with the tag. -/
structure IsContained (u : TaggedUnion) (total : UInt64) (placed : List (List (PlacedField κ))) :
    Prop where
  tag : u.tag.offset.toNat + u.tag.width.toNat ≤ total.toNat
  fields : ∀ fields ∈ placed, Contained total fields
  disjoint : ∀ fields ∈ placed, ∀ p ∈ fields, p.extent.Disjoint u.tagExtent

variable {u : TaggedUnion} {placed : List (List (PlacedField κ))}

/-- The payload is aligned as every field of a variant is. -/
lemma payloadAlignment_spec (hr : r.Consistent) {alignment : UInt64}
    (h : u.payloadAlignment r = .ok alignment) :
    isPowerOfTwo alignment = true ∧ ∀ variant ∈ u.variants, ∀ start fields,
      Placed r variant.fields start fields → ∀ p ∈ fields,
        p.fact.alignment.toNat ≤ alignment.toNat := by
  obtain ⟨facts, hfacts, rfl⟩ := payloadAlignment_eq_ok_iff.mp h
  constructor
  · apply foldl_max_induction _ (P := (isPowerOfTwo · = true)) rfl
    intro fact hfact
    obtain ⟨field, -, hfield⟩ := exists_mem_left hfacts hfact
    exact hr.aligned _ _ hfield
  · intro variant hvariant start fields hplaced p hp
    have hfield := List.mem_flatMap.mpr ⟨variant, hvariant, hplaced.field_mem hp⟩
    obtain ⟨fact, hfact, heq⟩ := exists_mem_right hfacts hfield
    obtain rfl : fact = p.fact := Option.some.inj (heq.symm.trans (hplaced.fact_eq hp))
    exact le_foldl_max (fun fact : LayoutFact κ => fact.alignment) hfact 1

lemma toNat_tagStop (h : u.tag.offset.toNat + u.tag.width.toNat < 2 ^ 64) :
    u.tagStop.toNat = u.tag.offset.toNat + u.tag.width.toNat := by
  rw [tagStop, UInt64.toNat_add, UInt32.toNat_toUInt64, Nat.mod_eq_of_lt h]

namespace Derived

variable {width : IntWidth} {tags : List UInt64} {payload alignment size : UInt64}

lemma alignment_spec (hr : r.Consistent)
    (h : u.Derived r placed width tags payload alignment size) :
    isPowerOfTwo alignment = true ∧
      alignment = max (max width.toUInt64 payload) (u.alignment?.getD 1) := by
  have hnatural := isPowerOfTwo_max (isPowerOfTwo_toUInt64 width)
    (payloadAlignment_spec hr h.payload_eq).1
  obtain ⟨hrequested, rfl⟩ :=
    (resolveAlignment_eq_ok_iff (toNat_pos_of_isPowerOfTwo hnatural)).mp h.alignment_eq
  exact ⟨isPowerOfTwo_max hnatural hrequested, rfl⟩

/-- The size is a multiple of the alignment of the payload. -/
lemma payload_dvd (hr : r.Consistent)
    (h : u.Derived r placed width tags payload alignment size) : payload.toNat ∣ size.toNat := by
  obtain ⟨hpow, hmax⟩ := h.alignment_spec hr
  have hle : payload ≤ alignment := by
    rw [UInt64.le_iff_toNat_le, hmax, toNat_max, toNat_max]
    omega
  exact (toNat_dvd_of_le (payloadAlignment_spec hr h.payload_eq).1 hpow hle).trans
    (dvd_of_resolveSize h.size_eq)

/-- The sums that must not wrap, in the order of the placement. -/
lemma fits_iff (hr : r.Consistent) (h : u.Derived r placed width tags payload alignment size) :
    u.fits r = true ↔
      u.tag.offset.toNat + u.tag.width.toNat < 2 ^ 64 ∧
      u.tagStop.toNat + payload.toNat ≤ 2 ^ 64 ∧
      (∀ variant ∈ u.variants,
        fieldsFit r variant.fields (roundUp u.tagStop payload) = true) ∧
      u.tagStop.toNat ≤ size.toNat ∧ ∀ p ∈ placed.flatten, p.stop.toNat ≤ size.toNat := by
  obtain ⟨hpow, rfl⟩ := h.alignment_spec hr
  rw [← lastStop_le_iff, le_iff_sizeFits hpow h.size_eq]
  simp [fits, variantsFit, h.payload_eq, h.placed_eq, h.tagWidth_eq, h.width_eq, and_assoc]

lemma fits_of_isContained (hr : r.Consistent)
    (h : u.Derived r placed width tags payload alignment size)
    (hcontained : u.IsContained size placed) : u.fits r = true := by
  obtain ⟨hpow, hstrict⟩ := payloadAlignment_spec hr h.payload_eq
  have hdvd := h.payload_dvd hr
  have hroom := add_le_of_dvd hpow hdvd
  have hlt := hcontained.tag.trans_lt size.toNat_lt
  have htagStop : u.tagStop.toNat ≤ size.toNat := toNat_tagStop hlt ▸ hcontained.tag
  have hstartFits : u.tagStop.toNat + payload.toNat ≤ 2 ^ 64 := by omega
  refine (h.fits_iff hr).mpr ⟨hlt, hstartFits, ?_, htagStop, ?_⟩
  · intro variant hvariant
    obtain ⟨fields, hmem, hplaced, -⟩ := exists_mem_right h.variants hvariant
    have hstart := roundUp_le (toNat_pos_of_isPowerOfTwo hpow) hstartFits htagStop hdvd
    apply hplaced.fieldsFit_of_le hstart _ size.toNat_lt
    intro p hp
    refine ⟨(hcontained.fields fields hmem).inside p hp, ?_⟩
    have := hstrict variant hvariant _ fields hplaced p hp
    omega
  · intro p hp
    obtain ⟨fields, hmem, hp⟩ := List.mem_flatten.mp hp
    have hinside := (hcontained.fields fields hmem).inside p hp
    rwa [PlacedField.toNat_stop (hinside.trans_lt size.toNat_lt)]

lemma isContained_of_fits (hr : r.Consistent)
    (h : u.Derived r placed width tags payload alignment size) (hfits : u.fits r = true) :
    u.IsContained size placed := by
  obtain ⟨hlt, -, hfieldsFit, htagStop, hstop⟩ := (h.fits_iff hr).mp hfits
  have hcontained : ∀ fields ∈ placed, Contained size fields ∧
      ∀ p ∈ fields, p.extent.Disjoint u.tagExtent := by
    intro fields hmem
    obtain ⟨variant, hvariant, hplaced, hoverlap⟩ := exists_mem_left h.variants hmem
    have hfits := hfieldsFit variant hvariant
    have hpairwise := (checkOverlap_eq_ok_iff (List.forall_mem_append.mpr
      ⟨List.forall_mem_map.mpr (hplaced.sumFits_of_fieldsFit hfits),
        by simpa [tagExtent] using hlt⟩)).mp hoverlap
    obtain ⟨hdisjoint, -, htag⟩ := List.pairwise_append.mp hpairwise
    have hinside := hplaced.inside_of_fieldsFit hfits fun p hp =>
      hstop p (List.mem_flatten.mpr ⟨fields, hmem, hp⟩)
    refine ⟨⟨hinside, fun p hp => hplaced.dvd_offset hp, hdisjoint⟩, ?_⟩
    intro p hp
    exact htag _ (List.mem_map_of_mem hp) _ (List.mem_singleton_self _)
  constructor
  · rwa [← toNat_tagStop hlt]
  · intro fields hmem
    exact (hcontained fields hmem).1
  · intro fields hmem
    exact (hcontained fields hmem).2

end Derived

end TaggedUnion

/-! ### Layouts in reachable registries -/

/-- Whatever was registered before, the fields of a layout that is derived, and the tag of a tagged
union, are inside the type, aligned and apart exactly when no sum wraps in the placement. -/
theorem contained_iff_fits [Check κ] [DecidableEq κ] (hr : r.Reachable) :
    (∀ (a : Aggregate κ) (layout : AggregateLayout κ), a.representation = .sequential →
      a.layout r = .ok layout →
      (Contained layout.fact.size layout.fields ↔ a.fits r = true)) ∧
    (∀ (u : TaggedUnion) (placed : List (List (PlacedField κ))) (fact : LayoutFact κ),
      u.layout r = .ok (placed, fact) →
      (u.IsContained fact.size placed ↔ u.fits r = true)) := by
  have hconsistent := Registry.ReachableBy.consistent hr
  constructor
  · intro a layout hrep h
    rw [Aggregate.layout, hrep] at h
    exact a.contained_iff_of_sequentialLayout hconsistent hrep h
  · intro u placed fact h
    obtain ⟨width, tags, payload, alignment, size, hderived, rfl⟩ := TaggedUnion.derived_of_layout h
    exact ⟨hderived.fits_of_isContained hconsistent, hderived.isContained_of_fits hconsistent⟩

/-- A registry that knows a word, of which every bit pattern is a value. -/
def wordRegistry : Registry Empty :=
  ((Registry.empty .standard).after (.declareType "word")).after
    (.register ⟨0⟩ ⟨⟨8, 8⟩, "word", some (.allValid 8 "word")⟩)

lemma reachable_wordRegistry : wordRegistry.Reachable :=
  ⟨.standard, .step (.step .refl trivial) trivial⟩

/-- A word at the last offset where it is aligned, in a type of two words. -/
def farField : Aggregate Empty :=
  ⟨"far", .sequential, [⟨"a", ⟨0⟩, some (-8)⟩], none, some 16, none⟩

/-- The layout that is derived for it. The end of the field wraps to zero. -/
def farLayout : AggregateLayout Empty :=
  ⟨[⟨⟨"a", ⟨0⟩, some (-8)⟩, ⟨⟨8, 8⟩, "word", .allValid 8 "word"⟩, -8⟩],
    ⟨⟨16, 8⟩, "far", .allOf 16 "far" [⟨-8, .allValid 8 "word", "a"⟩] none⟩⟩

lemma layout_farField : farField.layout wordRegistry = .ok farLayout := by
  refine Aggregate.sequentialLayout_eq_ok_iff.mpr
    ⟨farLayout.fields, 8, 16, .cons rfl ⟨by decide, rfl, by decide⟩ (.nil _), ?_, rfl, rfl, rfl,
      rfl⟩
  simp only [checkOverlap, Extent.sort, farLayout, List.map_cons, List.map_nil]
  rw [List.filter_cons_of_pos (by decide), List.filter_nil, List.mergeSort_singleton]
  rfl

theorem contained_iff_fits_farField :
    wordRegistry.Reachable ∧ farField.layout wordRegistry = .ok farLayout ∧
      (Contained farLayout.fact.size farLayout.fields ↔ farField.fits wordRegistry = true) :=
  ⟨reachable_wordRegistry, layout_farField,
    (contained_iff_fits reachable_wordRegistry).1 farField farLayout rfl layout_farField⟩

/-- The field ends past all words, and still a layout is derived. -/
theorem not_contained_farField :
    wordRegistry.Reachable ∧ farField.layout wordRegistry = .ok farLayout ∧
      ¬ Contained farLayout.fact.size farLayout.fields := by
  refine ⟨reachable_wordRegistry, layout_farField, ?_⟩
  intro h
  have hinside := h.inside _ (List.mem_singleton_self _)
  exact absurd hinside (by decide)

end BitValidity
