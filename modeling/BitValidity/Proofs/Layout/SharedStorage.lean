import BitValidity.Proofs.Layout.Sequence

/-!
# The storage that variants share

A tagged union places the fields of each variant in one go, from the first offset behind the tag
where the strictest field of any variant is aligned, and rounds up once at the end. The same comes
of it when the fields of each variant are an aggregate of their own, rounded up by itself, and all
of these begin at that offset: the offset is a multiple of every alignment that an aggregate is
rounded up to, so that counting from it is counting from zero (`placed_like_aggregates`).
-/

namespace BitValidity

variable {κ : Type} {r : Registry κ}

/-! ### Shifted fields -/

/-- A field is as far behind the same field of another placement. -/
structure PlacedField.IsBehind (distance : ℕ) (p q : PlacedField κ) : Prop where
  field_eq : p.field = q.field
  fact_eq : p.fact = q.fact
  offset_eq : p.offset.toNat = distance + q.offset.toNat

lemma PlacedField.IsBehind.disjoint {distance : ℕ} {p q p' q' : PlacedField κ}
    (h : p.IsBehind distance q) (h' : p'.IsBehind distance q')
    (hdisjoint : p.extent.Disjoint p'.extent) : q.extent.Disjoint q'.extent := by
  rintro i ⟨⟨hle, hlt⟩, ⟨hle', hlt'⟩⟩
  simp only [extent] at hle hlt hle' hlt'
  refine hdisjoint (distance + i) ⟨⟨?_, ?_⟩, ⟨?_, ?_⟩⟩ <;>
    simp only [extent, h.offset_eq, h.fact_eq, h'.offset_eq, h'.fact_eq] <;> omega

/-- Fields without offsets can be placed as well from a cursor that is closer to the start by a
multiple of their alignments. They are then closer to the start by as much. -/
lemma Placed.exists_isBehind {fields : List Field} {cursor cursor' : UInt64} {distance : ℕ}
    {placed : List (PlacedField κ)} (h : Placed r fields cursor placed)
    (hfits : fieldsFit r fields cursor = true) (hnone : ∀ field ∈ fields, field.offset? = none)
    (hdvd : ∀ p ∈ placed, p.fact.alignment.toNat ∣ distance)
    (hcursor : cursor.toNat = distance + cursor'.toNat) :
    ∃ placed', Placed r fields cursor' placed' ∧ fieldsFit r fields cursor' = true ∧
      List.Forall₂ (PlacedField.IsBehind distance) placed placed' := by
  induction h generalizing cursor' with
  | nil cursor => exact ⟨[], .nil cursor', rfl, .nil⟩
  | @cons field fact offset cursor rest placed hfact hoffset hrest ih =>
    obtain ⟨hfield, hnone⟩ := List.forall_mem_cons.mp hnone
    obtain ⟨halignment, hdvd⟩ := List.forall_mem_cons.mp hdvd
    obtain ⟨hround, hsum, hrestFits⟩ := (fieldsFit_cons_iff hfact hoffset).mp hfits
    rw [hfield, Option.isSome_none] at hround
    have hround := hround.resolve_left nofun
    have hpos := hoffset.pos
    have hround' : cursor'.toNat + fact.alignment.toNat ≤ 2 ^ 64 := by omega
    have hbehind : offset.toNat = distance + (roundUp cursor' fact.alignment).toNat := by
      rw [← hoffset.getD_eq, hfield, Option.getD_none, toNat_roundUp hpos hround,
        toNat_roundUp hpos hround', hcursor, leastMultiple_add hpos halignment]
    have hsum' : (roundUp cursor' fact.alignment).toNat + fact.size.toNat < 2 ^ 64 := by omega
    have hstop : (offset + fact.size).toNat =
        distance + (roundUp cursor' fact.alignment + fact.size).toNat := by
      rw [toNat_add_of_lt hsum, toNat_add_of_lt hsum', hbehind, Nat.add_assoc]
    obtain ⟨placed', hplaced', hfits', hrest'⟩ := ih hrestFits hnone hdvd hstop
    have hoffset' : field.IsAt fact.alignment cursor' (roundUp cursor' fact.alignment) :=
      ⟨hoffset.1, by rw [hfield]⟩
    exact ⟨_, .cons hfact hoffset' hplaced',
      (fieldsFit_cons_iff hfact hoffset').mpr ⟨.inr hround', hsum', hfits'⟩,
      .cons ⟨rfl, rfl, hbehind⟩ hrest'⟩

/-! ### Variants -/

/-- The aggregate of the fields of a variant alone. -/
def Variant.aggregate (variant : Variant) : Aggregate κ :=
  ⟨variant.name, .sequential, variant.fields, none, none, none⟩

namespace Variant

variable [Check κ] {variant : Variant} {start strict total : UInt64} {placed : List (PlacedField κ)}

/-- The aggregate of the fields of a variant has a layout if they can be placed from zero on without
an overlap, and the end of the last one can be rounded up. -/
lemma exists_layout (hr : r.Consistent) (hplaced : Placed r variant.fields 0 placed)
    (hfits : fieldsFit r variant.fields 0 = true)
    (hdisjoint : (placed.map (·.extent)).Pairwise Extent.Disjoint)
    (hround : (lastStop 0 placed).toNat + (strictestAlignment 1 placed).toNat ≤ 2 ^ 64) :
    ∃ layout : AggregateLayout κ,
      variant.aggregate.sumsFit r = true ∧ variant.aggregate.layout r = .ok layout ∧
        layout.fields = placed ∧ layout.fact.alignment = strictestAlignment 1 placed := by
  have hnowrap := hplaced.sumFits_of_fieldsFit hfits
  have hoverlap : checkOverlap variant.name (placed.map (·.extent)) = .ok () :=
    (checkOverlap_eq_ok_iff (List.forall_mem_map.mpr hnowrap)).mpr hdisjoint
  have hne := ne_zero_of_isPowerOfTwo (Aggregate.isPowerOfTwo_strictestAlignment hr hplaced)
  have hlayout : variant.aggregate.sequentialLayout r = .ok _ :=
    Aggregate.sequentialLayout_eq_ok_iff.mpr ⟨placed, strictestAlignment 1 placed, _, hplaced,
      hoverlap, rfl, resolveSize_eq_ok_iff.mpr ⟨hne, .inl ⟨rfl, rfl⟩⟩, rfl, rfl⟩
  have hplace : placeFields r variant.name variant.fields 0 = .ok placed :=
    placeFields_eq_ok_iff.mpr hplaced
  refine ⟨_, ?_, hlayout, rfl, rfl⟩
  simp only [Aggregate.sumsFit, aggregate, hplace, hfits, hoverlap, resolveAlignment, sizeFits,
    Option.isSome_none, Bool.false_or, Bool.true_and, roundUpFits_iff]
  exact hround

/-- Where fields are placed from a multiple of their alignments on, the aggregate of them has a
layout. They are as far apart in it, and all of it lies before any multiple that the fields lie
before. -/
lemma exists_layout_isBehind (hr : r.Consistent) (hplaced : Placed r variant.fields start placed)
    (hfits : fieldsFit r variant.fields start = true)
    (hnone : ∀ field ∈ variant.fields, field.offset? = none)
    (hdisjoint : (placed.map (·.extent)).Pairwise Extent.Disjoint)
    (hstrict : isPowerOfTwo strict = true)
    (hle : ∀ p ∈ placed, p.fact.alignment.toNat ≤ strict.toNat)
    (hstart : strict.toNat ∣ start.toNat) (htotal : strict.toNat ∣ total.toNat)
    (hstartTotal : start.toNat ≤ total.toNat)
    (hinside : ∀ p ∈ placed, p.offset.toNat + p.fact.size.toNat ≤ total.toNat) :
    ∃ layout : AggregateLayout κ, (variant.aggregate.sumsFit r = true ∧
        variant.aggregate.layout r = .ok layout) ∧
      List.Forall₂ (PlacedField.IsBehind start.toNat) placed layout.fields ∧
      (∀ p ∈ layout.fields, p.offset.toNat + p.fact.size.toNat ≤ layout.fact.size.toNat) ∧
      start.toNat + layout.fact.size.toNat ≤ total.toNat := by
  have hdvd : ∀ p ∈ placed, p.fact.alignment.toNat ∣ start.toNat := by
    intro p hp
    have hle := UInt64.le_iff_toNat_le.mpr (hle p hp)
    exact (toNat_dvd_of_le (hr.aligned _ _ (hplaced.fact_eq hp)) hstrict hle).trans hstart
  have hzero : start.toNat = start.toNat + (0 : UInt64).toNat := rfl
  obtain ⟨fields, hfields, hfieldsFit, hbehind⟩ := hplaced.exists_isBehind hfits hnone hdvd hzero
  have hstop : ∀ q ∈ fields, start.toNat + (q.offset.toNat + q.fact.size.toNat) ≤ total.toNat ∧
      q.fact.alignment.toNat ≤ strict.toNat := by
    intro q hq
    obtain ⟨p, hp, -, hfact, hoffset⟩ := exists_mem_left hbehind hq
    rw [← Nat.add_assoc, ← hoffset, ← hfact]
    exact ⟨hinside p hp, hle p hp⟩
  have hdisjoint' : (fields.map (·.extent)).Pairwise Extent.Disjoint :=
    List.pairwise_map.mpr <| pairwise_of_forall₂ hbehind
      (fun _ _ _ _ hpq hpq' => hpq.disjoint hpq') (List.pairwise_map.mp hdisjoint)
  -- the end is rounded up to an alignment that divides what is left of the whole
  have hnatural := Aggregate.isPowerOfTwo_strictestAlignment hr hfields
  have hnaturalLe : (strictestAlignment 1 fields).toNat ≤ strict.toNat :=
    foldl_max_induction _ (P := (·.toNat ≤ strict.toNat))
      (toNat_pos_of_isPowerOfTwo hstrict) fun q hq => (hstop q hq).2
  have hnaturalDvd := toNat_dvd_of_le hnatural hstrict (UInt64.le_iff_toNat_le.mpr hnaturalLe)
  have hlast : (lastStop 0 fields).toNat ≤ total.toNat - start.toNat := by
    refine lastStop_le_iff.mpr ⟨Nat.zero_le _, fun q hq => ?_⟩
    have hq' := (hstop q hq).1
    rw [PlacedField.toNat_stop (hfields.sumFits_of_fieldsFit hfieldsFit q hq)]
    omega
  have hroom := add_le_of_dvd hstrict htotal
  obtain ⟨layout, hsumsFit, hlayout, rfl, halignment⟩ :=
    exists_layout hr hfields hfieldsFit hdisjoint' (by omega)
  obtain ⟨⟨hall, -⟩, hleast⟩ :=
    (Aggregate.isLaidOut_of_sequentialLayout hr hsumsFit hlayout).omittedSize rfl
  refine ⟨layout, ⟨hsumsFit, hlayout⟩, hbehind, hall, ?_⟩
  have hsize := hleast ⟨fun q hq => Nat.le_sub_of_add_le' (hstop q hq).1,
    halignment ▸ Nat.dvd_sub (hnaturalDvd.trans htotal) (hnaturalDvd.trans hstart)⟩
  omega

end Variant

/-! ### Tagged unions -/

namespace TaggedUnion

variable {u : TaggedUnion}

lemma isGreatest_payloadAlignment {payload : UInt64} (h : u.payloadAlignment r = .ok payload) :
    IsGreatest {n | n = 1 ∨ ∃ variant ∈ u.variants, ∃ field ∈ variant.fields,
      ∃ fact, r.fact? field.type = some fact ∧ fact.alignment.toNat = n} payload.toNat := by
  obtain ⟨facts, hfacts, rfl⟩ := payloadAlignment_eq_ok_iff.mp h
  have hmem (n : ℕ) : n ∈ facts.map (fun fact => fact.alignment.toNat) ↔
      ∃ variant ∈ u.variants, ∃ field ∈ variant.fields,
        ∃ fact, r.fact? field.type = some fact ∧ fact.alignment.toNat = n := by
    constructor
    · intro hn
      obtain ⟨fact, hfact, rfl⟩ := List.mem_map.mp hn
      obtain ⟨field, hfield, heq⟩ := exists_mem_left hfacts hfact
      obtain ⟨variant, hvariant, hfield⟩ := List.mem_flatMap.mp hfield
      exact ⟨variant, hvariant, field, hfield, fact, heq, rfl⟩
    · rintro ⟨variant, hvariant, field, hfield, fact, heq, rfl⟩
      obtain ⟨known, hknown, heq'⟩ :=
        exists_mem_right hfacts (List.mem_flatMap.mpr ⟨variant, hvariant, hfield⟩)
      obtain rfl := Option.some.inj (heq'.symm.trans heq)
      exact List.mem_map_of_mem hknown
  have hgreatest := isGreatest_foldl_max 1 (facts.map fun fact => fact.alignment.toNat)
  simp only [hmem] at hgreatest
  rwa [toNat_foldl_max]

/-- A size that is computed is the least that holds what is required. -/
lemma Derived.size_le {placed : List (List (PlacedField κ))} {width : IntWidth}
    {tags : List UInt64} {payload alignment size : UInt64} {n : ℕ} (hr : r.Consistent)
    (h : u.Derived r placed width tags payload alignment size) (hnone : u.size? = none)
    (hle : (lastStop u.tagStop placed.flatten).toNat ≤ size.toNat)
    (hlast : (lastStop u.tagStop placed.flatten).toNat ≤ n) (hn : alignment.toNat ∣ n) :
    size.toNat ≤ n := by
  obtain ⟨hpow, -⟩ := h.alignment_spec hr
  have hroom := add_le_of_dvd hpow (dvd_of_resolveSize h.size_eq)
  obtain ⟨-, ⟨-, rfl⟩ | ⟨hsome, -⟩⟩ := resolveSize_eq_ok_iff.mp h.size_eq
  · exact roundUp_le (toNat_pos_of_isPowerOfTwo hpow) (by omega) hlast hn
  · cases hnone.symm.trans hsome

/-- Fields that are behind those of aggregates end where the aggregates do, at the latest. -/
lemma lastStop_flatten_le {placed : List (List (PlacedField κ))}
    {layouts : List (AggregateLayout κ)} {least : UInt64} {start n : ℕ} (hleast : least.toNat ≤ n)
    (hfits : ∀ fields ∈ placed, ∀ p ∈ fields, p.offset.toNat + p.fact.size.toNat < 2 ^ 64)
    (hbehind : List.Forall₂ (fun fields layout =>
      List.Forall₂ (PlacedField.IsBehind start) fields layout.fields ∧
        ∀ q ∈ layout.fields, q.offset.toNat + q.fact.size.toNat ≤ layout.fact.size.toNat)
      placed layouts)
    (hle : ∀ layout ∈ layouts, start + layout.fact.size.toNat ≤ n) :
    (lastStop least placed.flatten).toNat ≤ n := by
  refine lastStop_le_iff.mpr ⟨hleast, ?_⟩
  intro p hp
  obtain ⟨fields, hfields, hp⟩ := List.mem_flatten.mp hp
  obtain ⟨layout, hlayout, hbehind, hinside⟩ := exists_mem_right hbehind hfields
  obtain ⟨q, hq, hpq⟩ := exists_mem_right hbehind hp
  have hend := hinside q hq
  have hlayoutEnd := hle layout hlayout
  rw [PlacedField.toNat_stop (hfits fields hfields p hp), hpq.offset_eq, hpq.fact_eq]
  omega

variable [Check κ]

/-- The union is laid out as its tag, followed by aggregates that begin together. -/
structure IsTagAndAggregates (r : Registry κ) (u : TaggedUnion)
    (placed : List (List (PlacedField κ))) (fact : LayoutFact κ) (strictest start : ℕ)
    (layouts : List (AggregateLayout κ)) : Prop where
  isGreatest_strictest : IsGreatest {n | n = 1 ∨ ∃ variant ∈ u.variants, ∃ field ∈ variant.fields,
    ∃ fact, r.fact? field.type = some fact ∧ fact.alignment.toNat = n} strictest
  isLeast_start :
    IsLeast {n | u.tag.offset.toNat + u.tag.width.toNat ≤ n ∧ strictest ∣ n} start
  /-- The fields of each variant have a layout as an aggregate, in which no sum wraps. -/
  aggregates : List.Forall₂ (fun variant layout => variant.aggregate.sumsFit r = true ∧
    variant.aggregate.layout r = .ok layout) u.variants layouts
  fields : List.Forall₂ (fun fields layout =>
    List.Forall₂ (PlacedField.IsBehind start) fields layout.fields) placed layouts
  alignment_eq : fact.alignment.toNat = max u.tag.width.toNat strictest
  isLeast_size : IsLeast {n | u.tag.offset.toNat + u.tag.width.toNat ≤ n ∧
    (∀ layout ∈ layouts, start + layout.fact.size.toNat ≤ n) ∧ fact.alignment.toNat ∣ n}
      fact.size.toNat
  validity_eq : ∃ width tags, fact.validity =
    .oneOf fact.size u.name u.tag.offset width u.tag.signed (u.variantChecks fact.size tags placed)

/-- Whatever was registered before: where no offset, alignment or size is given and no sum wraps, a
tagged union is laid out as its tag, followed by the aggregates of the fields of its variants. These
share the storage from the first offset behind the tag on where all of their fields are aligned. -/
theorem placed_like_aggregates [DecidableEq κ] (hr : r.Reachable)
    (hnone : ∀ variant ∈ u.variants, ∀ field ∈ variant.fields, field.offset? = none)
    (halignment : u.alignment? = none) (hsize : u.size? = none) (hfits : u.fits r = true)
    {placed : List (List (PlacedField κ))} {fact : LayoutFact κ}
    (h : u.layout r = .ok (placed, fact)) :
    ∃ strictest start layouts, u.IsTagAndAggregates r placed fact strictest start layouts := by
  have hr := Registry.ReachableBy.consistent hr
  obtain ⟨width, tags, payload, alignment, size, hderived, rfl⟩ := derived_of_layout h
  obtain ⟨htag, hround, hfieldsFit, htagSize, hstopSize⟩ := (hderived.fits_iff hr).mp hfits
  obtain ⟨hstrict, hstrictLe⟩ := payloadAlignment_spec hr hderived.payload_eq
  have hpos := toNat_pos_of_isPowerOfTwo hstrict
  have htagStop := toNat_tagStop htag
  have hcontained := hderived.isContained_of_fits hr hfits
  have hpayloadSize := hderived.payload_dvd hr
  have hstartSize := roundUp_le hpos hround htagSize hpayloadSize
  -- an aggregate for each variant, from the start of the payload on
  obtain ⟨layouts, hlayouts, hbehind⟩ := exists_forall₂ hderived.variants
    fun variant hvariant fields hfields hplaced =>
      have hinside := hcontained.fields fields hfields
      Variant.exists_layout_isBehind hr hplaced.1 (hfieldsFit variant hvariant) (hnone variant hvariant)
        hinside.disjoint hstrict (hstrictLe variant hvariant _ fields hplaced.1)
        (dvd_roundUp u.tagStop payload) hpayloadSize hstartSize hinside.inside
  refine ⟨payload.toNat, (roundUp u.tagStop payload).toNat, layouts, ?_⟩
  constructor
  case isGreatest_strictest => exact isGreatest_payloadAlignment hderived.payload_eq
  case isLeast_start =>
    rw [toNat_roundUp hpos hround, ← htagStop]
    exact isLeast_leastMultiple hpos _
  case aggregates => exact hlayouts
  case fields => exact hbehind.imp fun _ _ h => h.1
  case alignment_eq =>
    rw [(hderived.alignment_spec hr).2, halignment, Option.getD_none, toNat_max, toNat_max,
      IntWidth.toNat_toUInt64, ← hderived.width_eq]
    exact max_eq_left (hpos.trans_le (le_max_right _ _))
  case isLeast_size =>
    refine ⟨⟨htagStop ▸ htagSize, ?_, dvd_of_resolveSize hderived.size_eq⟩, ?_⟩
    · intro layout hlayout
      obtain ⟨fields, -, -, -, hinside⟩ := exists_mem_left hbehind hlayout
      exact hinside
    · rintro n ⟨htagLe, hle, hn⟩
      have hlast := lastStop_flatten_le (htagStop ▸ htagLe)
        (fun fields hfields p hp =>
          ((hcontained.fields fields hfields).inside p hp).trans_lt size.toNat_lt)
        (hbehind.imp fun _ _ h => ⟨h.1, h.2.1⟩) hle
      exact hderived.size_le hr hsize (lastStop_le_iff.mpr ⟨htagSize, hstopSize⟩) hlast hn
  case validity_eq => exact ⟨width, tags, rfl⟩

end TaggedUnion

/-- Flags, a word behind a flag, or nothing. -/
def sharedWord : TaggedUnion :=
  ⟨"shared", .standard, [⟨"flags", none, [⟨"a", ⟨1⟩, none⟩, ⟨"b", ⟨1⟩, none⟩]⟩,
    ⟨"word", none, [⟨"c", ⟨1⟩, none⟩, ⟨"word", ⟨0⟩, none⟩]⟩, ⟨"nothing", none, []⟩], none, none⟩

def sharedFields : List (List (PlacedField Empty)) :=
  let word : LayoutFact Empty := ⟨⟨8, 8⟩, "word", .allValid 8 "word"⟩
  [[⟨⟨"a", ⟨1⟩, none⟩, Registry.flagFact, 8⟩, ⟨⟨"b", ⟨1⟩, none⟩, Registry.flagFact, 9⟩],
    [⟨⟨"c", ⟨1⟩, none⟩, Registry.flagFact, 8⟩, ⟨⟨"word", ⟨0⟩, none⟩, word, 16⟩], []]

def sharedFact : LayoutFact Empty :=
  ⟨⟨24, 8⟩, "shared",
    .oneOf 24 "shared" 0 .one false (sharedWord.variantChecks 24 [0, 1, 2] sharedFields)⟩

lemma layout_sharedWord :
    sharedWord.layout Registry.flagRegistry = .ok (sharedFields, sharedFact) := by
  rw [Registry.flagRegistry_eq]
  cbv

/-- All variants begin where the word could, also those that have none. -/
theorem placed_like_aggregates_sharedWord :
    Registry.flagRegistry.Reachable ∧ sharedWord.fits Registry.flagRegistry = true ∧
      sharedWord.layout Registry.flagRegistry = .ok (sharedFields, sharedFact) ∧
      ∃ strictest start layouts, sharedWord.IsTagAndAggregates Registry.flagRegistry sharedFields
        sharedFact strictest start layouts := by
  have hr := Registry.reachable_flagRegistry.reachable
  have hnone : ∀ variant ∈ sharedWord.variants, ∀ field ∈ variant.fields, field.offset? = none := by
    simp [sharedWord]
  have hfits : sharedWord.fits Registry.flagRegistry = true := by
    rw [Registry.flagRegistry_eq]
    cbv
  exact ⟨hr, hfits, layout_sharedWord,
    TaggedUnion.placed_like_aggregates hr hnone rfl rfl hfits layout_sharedWord⟩

end BitValidity
