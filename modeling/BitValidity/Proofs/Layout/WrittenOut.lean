import BitValidity.Proofs.Layout.SharedStorage
import BitValidity.Proofs.Registry.Permanence

/-!
# Layouts that are written out

What a description leaves out is computed when its layout is derived: offsets, discriminants, the
alignment and the size of the whole. What it says is tested instead, by other rules: an offset must
be aligned, an alignment must be a power of two, a size must hold every field. Where no sum wraps
these tests accept what is computed. So a description in which the computed layout is written down
is laid out in the same way as the one that leaves it out (`writing_out_changes_nothing`).
-/

namespace BitValidity

variable {κ : Type} {r : Registry κ}

/-! ### Fields -/

/-- The field at an offset, unless it has one. -/
def Field.writtenOut (field : Field) (offset : UInt64) : Field :=
  { field with offset? := some (field.offset?.getD offset) }

/-- The offset that a field is placed at is one that can be given for it. -/
lemma Field.IsAt.writtenOut {field : Field} {alignment cursor offset : UInt64}
    (h : field.IsAt alignment cursor offset) :
    (field.writtenOut offset).IsAt alignment cursor offset := by
  have hdvd := h.dvd
  obtain ⟨hne, hoffset⟩ := h
  refine ⟨hne, ?_, hdvd⟩
  cases hgiven : field.offset? with
  | none => rfl
  | some given =>
    rw [hgiven] at hoffset
    exact hoffset.1

namespace PlacedField

/-- A placed field whose offset is written down. -/
def writtenOut (p : PlacedField κ) : PlacedField κ := { p with field := p.field.writtenOut p.offset }

@[simp] lemma fact_writtenOut (p : PlacedField κ) : p.writtenOut.fact = p.fact := rfl

@[simp] lemma stop_writtenOut (p : PlacedField κ) : p.writtenOut.stop = p.stop := rfl

@[simp] lemma extent_writtenOut (p : PlacedField κ) : p.writtenOut.extent = p.extent := rfl

@[simp] lemma check_writtenOut (p : PlacedField κ) : p.writtenOut.check = p.check := rfl

end PlacedField

/-- The fields with the offsets that they are placed at. -/
def fieldsWrittenOut (fields : List Field) (placed : List (PlacedField κ)) : List Field :=
  List.zipWith Field.writtenOut fields (placed.map (·.offset))

section

variable {fields : List Field} {cursor : UInt64} {placed : List (PlacedField κ)}

lemma Placed.writtenOut (h : Placed r fields cursor placed) :
    Placed r (fieldsWrittenOut fields placed) cursor (placed.map PlacedField.writtenOut) := by
  induction h with
  | nil cursor => exact .nil cursor
  | cons hfact hoffset hrest ih => exact .cons hfact hoffset.writtenOut ih

lemma Placed.map_type_writtenOut (h : Placed r fields cursor placed) :
    (fieldsWrittenOut fields placed).map (·.type) = fields.map (·.type) := by
  induction h with
  | nil cursor => rfl
  | cons hfact hoffset hrest ih => exact congrArg (_ :: ·) ih

end

section

variable (placed : List (PlacedField κ)) (least : UInt64)

@[simp] lemma strictestAlignment_writtenOut :
    strictestAlignment least (placed.map PlacedField.writtenOut) = strictestAlignment least placed := by
  simp [strictestAlignment, List.foldl_map]

@[simp] lemma lastStop_writtenOut :
    lastStop least (placed.map PlacedField.writtenOut) = lastStop least placed := by
  simp [lastStop, List.foldl_map]

@[simp] lemma map_extent_writtenOut :
    (placed.map PlacedField.writtenOut).map (·.extent) = placed.map (·.extent) := by
  simp

@[simp] lemma map_check_writtenOut :
    (placed.map PlacedField.writtenOut).map (·.check) = placed.map (·.check) := by
  simp

end

/-! ### Alignment and size of the whole -/

/-- The alignment that was computed can be requested. -/
lemma resolveAlignment_writtenOut {owner : String} {requested? : Option UInt64}
    {natural alignment : UInt64} (hnatural : isPowerOfTwo natural = true)
    (h : resolveAlignment owner requested? natural = .ok alignment) :
    resolveAlignment owner (some (requested?.getD alignment)) natural = .ok alignment := by
  have hpos := toNat_pos_of_isPowerOfTwo hnatural
  rw [resolveAlignment_eq_ok_iff hpos, Option.getD_some]
  cases requested? with
  | some requested => exact (resolveAlignment_eq_ok_iff hpos).mp h
  | none =>
    obtain rfl : natural = alignment := Except.ok.inj h
    refine ⟨hnatural, UInt64.toNat_inj.mp ?_⟩
    rw [toNat_max, Option.getD_none, max_self]

/-- A size that was computed can be declared, if it holds every field. -/
lemma resolveSize_writtenOut {owner : String} {declared? : Option UInt64}
    {required alignment size : UInt64} {placed : List (PlacedField κ)}
    (h : resolveSize owner declared? required alignment placed = .ok size)
    (hrequired : required.toNat ≤ size.toNat) (hstop : ∀ p ∈ placed, p.stop.toNat ≤ size.toNat) :
    resolveSize owner (some (declared?.getD size)) required alignment
      (placed.map PlacedField.writtenOut) = .ok size := by
  have hdvd := dvd_of_resolveSize h
  obtain ⟨hne, hsize⟩ := resolveSize_eq_ok_iff.mp h
  have hdeclared : declared?.getD size = size := by
    rcases hsize with ⟨rfl, -⟩ | ⟨rfl, -⟩ <;> rfl
  exact resolveSize_eq_ok_iff.mpr ⟨hne, .inr ⟨congrArg some hdeclared,
    List.forall_mem_map.mpr hstop, hrequired, hdvd⟩⟩

/-! ### Aggregates -/

namespace Aggregate

variable {a : Aggregate κ} {layout : AggregateLayout κ}

/-- The aggregate with the offsets, the alignment and the size of a layout, where it leaves them
out. -/
def writtenOut (a : Aggregate κ) (layout : AggregateLayout κ) : Aggregate κ :=
  { a with
    fields := fieldsWrittenOut a.fields layout.fields
    alignment? := some (a.alignment?.getD layout.fact.alignment)
    size? := some (a.size?.getD layout.fact.size) }

lemma sequentialLayout_writtenOut (hr : r.Consistent) (hrep : a.representation = .sequential)
    (h : a.sequentialLayout r = .ok layout) (hfits : a.fits r = true) :
    (a.writtenOut layout).sequentialLayout r =
      .ok ⟨layout.fields.map PlacedField.writtenOut, layout.fact⟩ := by
  have hcontained := (a.contained_iff_of_sequentialLayout hr hrep h).mpr hfits
  obtain ⟨fields, alignment, size, hplaced, hoverlap, halignment, hsize, hinvariant, rfl⟩ :=
    sequentialLayout_eq_ok_iff.mp h
  have hstop : ∀ p ∈ fields, p.stop.toNat ≤ size.toNat := by
    intro p hp
    have hinside := hcontained.inside p hp
    exact (PlacedField.toNat_stop (hinside.trans_lt size.toNat_lt)).trans_le hinside
  have hrequired : (lastStop 0 fields).toNat ≤ size.toNat :=
    lastStop_le_iff.mpr ⟨Nat.zero_le _, hstop⟩
  have halignment' :=
    resolveAlignment_writtenOut (isPowerOfTwo_strictestAlignment hr hplaced) halignment
  have hsize' := resolveSize_writtenOut hsize hrequired hstop
  refine sequentialLayout_eq_ok_iff.mpr ⟨fields.map PlacedField.writtenOut, alignment, size,
    hplaced.writtenOut, ?_, ?_, ?_, hinvariant, ?_⟩
  · rwa [map_extent_writtenOut]
  · rwa [strictestAlignment_writtenOut]
  · rwa [lastStop_writtenOut]
  · rw [map_check_writtenOut]
    rfl

end Aggregate

/-! ### Discriminants -/

namespace Discriminant

/-- The discriminant, or a value if none is given. -/
def writtenOut (given : Option Int64) (value : ℤ) : Option Int64 :=
  some (given.getD (Int64.ofInt value))

/-- Discriminants that were computed can be given. -/
lemma valuesFrom_writtenOut {given : List (Option Int64)} {next : ℤ}
    (hword : ∀ value ∈ valuesFrom next given, -2 ^ 63 ≤ value ∧ value < 2 ^ 63) (next' : ℤ) :
    valuesFrom next' (List.zipWith writtenOut given (valuesFrom next given)) =
      valuesFrom next given := by
  induction given generalizing next next' with
  | nil => rfl
  | cons discriminant rest ih =>
    obtain ⟨⟨hle, hlt⟩, hrest⟩ := List.forall_mem_cons.mp hword
    rw [valuesFrom, List.zipWith_cons_cons, valuesFrom, ih hrest]
    congr 1
    cases discriminant with
    | none => exact Int64.toInt_ofInt_of_le hle hlt
    | some word => rfl

lemma values_writtenOut {width : IntWidth} {signed : Bool} {given : List (Option Int64)}
    (hrange : ∀ value ∈ values given, value ∈ range width signed) :
    values (List.zipWith writtenOut given (values given)) = values given := by
  apply valuesFrom_writtenOut
  intro value hvalue
  obtain ⟨hle, hge⟩ := hrange value hvalue
  exact ⟨(least width signed).le_toInt.trans hle, hge.trans_lt (greatest width signed).toInt_lt⟩

end Discriminant

lemma resolveDiscriminants_writtenOut {owner : String} {tag : Tag} {given : List (Option Int64)}
    {width : IntWidth} {tags : List UInt64} (hwidth : tag.checkedWidth owner = .ok width)
    (h : resolveDiscriminants owner tag given = .ok tags) :
    resolveDiscriminants owner tag
      (List.zipWith Discriminant.writtenOut given (Discriminant.values given)) = .ok tags := by
  rw [resolveDiscriminants_eq_ok_iff hwidth] at h ⊢
  rwa [Discriminant.values_writtenOut h.1]

/-! ### Tagged unions -/

/-- The variant with a value as its discriminant and with the offsets of its fields, where it leaves
them out. -/
def Variant.writtenOut (variant : Variant) (value : ℤ) (placed : List (PlacedField κ)) : Variant :=
  { variant with
    discriminant? := Discriminant.writtenOut variant.discriminant? value
    fields := fieldsWrittenOut variant.fields placed }

namespace TaggedUnion

variable {u : TaggedUnion} {placed : List (List (PlacedField κ))}

/-- The variants, each with the value of its discriminant and its fields at their offsets. -/
def resolvedVariants (u : TaggedUnion) (placed : List (List (PlacedField κ))) :
    List (ℤ × Variant × List (PlacedField κ)) :=
  (Discriminant.values (u.variants.map (·.discriminant?))).zip (u.variants.zip placed)

/-- The tagged union with the discriminants, the offsets, the alignment and the size of a layout,
where it leaves them out. -/
def writtenOut (u : TaggedUnion) (placed : List (List (PlacedField κ))) (storage : Storage) :
    TaggedUnion :=
  { u with
    variants := (u.resolvedVariants placed).map fun (value, variant, fields) =>
      variant.writtenOut value fields
    alignment? := some (u.alignment?.getD storage.alignment)
    size? := some (u.size?.getD storage.size) }

section

variable (hlen : u.variants.length = placed.length)

include hlen

lemma map_value_resolvedVariants : (u.resolvedVariants placed).map (·.1) =
    Discriminant.values (u.variants.map (·.discriminant?)) :=
  List.map_fst_zip (by simp [hlen])

lemma map_snd_resolvedVariants : (u.resolvedVariants placed).map (·.2) = u.variants.zip placed :=
  List.map_snd_zip (by simp [hlen])

lemma map_variant_resolvedVariants : (u.resolvedVariants placed).map (·.2.1) = u.variants := by
  rw [← List.map_fst_zip hlen.le, ← map_snd_resolvedVariants hlen, List.map_map]
  rfl

lemma map_fields_resolvedVariants : (u.resolvedVariants placed).map (·.2.2) = placed := by
  have hmap := congrArg (List.map Prod.snd) (map_snd_resolvedVariants hlen)
  rwa [List.map_map, List.map_snd_zip hlen.ge] at hmap

end

/-- The fields of the variants, with their offsets written down. -/
def placedWrittenOut (placed : List (List (PlacedField κ))) : List (List (PlacedField κ)) :=
  placed.map (·.map PlacedField.writtenOut)

lemma flatten_placedWrittenOut :
    (placedWrittenOut placed).flatten = placed.flatten.map PlacedField.writtenOut :=
  List.map_flatten.symm

section

variable (hlen : u.variants.length = placed.length) (storage : Storage)

include hlen

lemma placedWrittenOut_eq : placedWrittenOut placed =
    (u.resolvedVariants placed).map fun x => x.2.2.map PlacedField.writtenOut := by
  have hmap := congrArg placedWrittenOut (map_fields_resolvedVariants hlen)
  rw [← hmap, placedWrittenOut, List.map_map]
  rfl

lemma discriminants_writtenOut :
    (u.writtenOut placed storage).variants.map (·.discriminant?) =
      List.zipWith Discriminant.writtenOut (u.variants.map (·.discriminant?))
        (Discriminant.values (u.variants.map (·.discriminant?))) := by
  have hgiven := congrArg (List.map (·.discriminant?)) (map_variant_resolvedVariants hlen)
  rw [← map_value_resolvedVariants hlen, ← hgiven, writtenOut, List.map_map, List.map_map,
    List.zipWith_map, List.zipWith_self]
  rfl

lemma map_type_writtenOut
    (hplaced : ∀ x ∈ u.resolvedVariants placed, ∃ start, Placed r x.2.1.fields start x.2.2) :
    ((u.writtenOut placed storage).variants.flatMap (·.fields)).map (·.type) =
      (u.variants.flatMap (·.fields)).map (·.type) := by
  have hvariants := congrArg (List.flatMap (·.fields)) (map_variant_resolvedVariants hlen)
  rw [← hvariants, writtenOut, List.flatMap_map, List.flatMap_map, List.map_flatMap,
    List.map_flatMap]
  refine List.flatMap_congr fun x hx => ?_
  obtain ⟨start, hfields⟩ := hplaced x hx
  exact hfields.map_type_writtenOut

lemma variantChecks_writtenOut (size : UInt64) (tags : List UInt64) :
    (u.writtenOut placed storage).variantChecks size tags (placedWrittenOut placed) =
      u.variantChecks size tags placed := by
  rw [variantChecks, variantChecks, placedWrittenOut_eq hlen, ← map_snd_resolvedVariants hlen,
    writtenOut, List.zip_map', List.zip_map_right, List.zip_map_right, List.map_map, List.map_map]
  refine List.map_congr_left fun x _ => ?_
  simp only [Function.comp_apply, Prod.map, id, payload, map_check_writtenOut]
  rfl

end

namespace Derived

variable {width : IntWidth} {tags : List UInt64} {payload alignment size : UInt64}

lemma placed_of_mem (h : u.Derived r placed width tags payload alignment size)
    {x : ℤ × Variant × List (PlacedField κ)} (hx : x ∈ u.resolvedVariants placed) :
    Placed r x.2.1.fields (roundUp u.tagStop payload) x.2.2 ∧
      checkOverlap (u.variantName x.2.1) (x.2.2.map (·.extent) ++ [u.tagExtent]) = .ok () :=
  List.forall₂_zip h.variants (List.of_mem_zip hx).2

/-- What is computed for a tagged union can be given instead. -/
lemma writtenOut (h : u.Derived r placed width tags payload alignment size) (hr : r.Consistent)
    (hfits : u.fits r = true) :
    (u.writtenOut placed ⟨size, alignment⟩).Derived r (placedWrittenOut placed) width tags payload
      alignment size := by
  have hlen := h.variants.length_eq
  obtain ⟨-, -, -, htagStop, hstop⟩ := (h.fits_iff hr).mp hfits
  have hnatural := isPowerOfTwo_max (isPowerOfTwo_toUInt64 width)
    (payloadAlignment_spec hr h.payload_eq).1
  constructor
  case width_eq => exact h.width_eq
  case tags_eq =>
    rw [discriminants_writtenOut hlen]
    exact resolveDiscriminants_writtenOut (Tag.checkedWidth_eq_ok_iff.mpr h.width_eq) h.tags_eq
  case payload_eq =>
    obtain ⟨facts, hfacts, hpayload⟩ := payloadAlignment_eq_ok_iff.mp h.payload_eq
    refine payloadAlignment_eq_ok_iff.mpr ⟨facts, ?_, hpayload⟩
    -- the facts are those of the types of the fields
    have htypes := map_type_writtenOut hlen ⟨size, alignment⟩ fun x hx =>
      ⟨_, (h.placed_of_mem hx).1⟩
    rw [← List.forall₂_map_left_iff (R := fun type fact => r.fact? type = some fact)] at hfacts ⊢
    rwa [htypes]
  case placed_eq =>
    rw [mapM_eq_ok_iff, placedWrittenOut_eq hlen, TaggedUnion.writtenOut,
      List.forall₂_map_left_iff, List.forall₂_map_right_iff, List.forall₂_same]
    intro x hx
    obtain ⟨hplaced, hoverlap⟩ := h.placed_of_mem hx
    refine placeVariant_eq_ok_iff.mpr ⟨hplaced.writtenOut, ?_⟩
    rwa [map_extent_writtenOut]
  case alignment_eq => exact resolveAlignment_writtenOut hnatural h.alignment_eq
  case size_eq =>
    rw [flatten_placedWrittenOut, lastStop_writtenOut]
    exact resolveSize_writtenOut h.size_eq (lastStop_le_iff.mpr ⟨htagStop, hstop⟩) hstop

end Derived

/-- A tagged union is laid out in the same way when its layout is written down. -/
lemma layout_writtenOut (hr : r.Consistent) {fact : LayoutFact κ}
    (h : u.layout r = .ok (placed, fact)) (hfits : u.fits r = true) :
    (u.writtenOut placed fact.toStorage).layout r = .ok (placedWrittenOut placed, fact) := by
  obtain ⟨width, tags, payload, alignment, size, htag, hne, hderived, rfl⟩ := layout_eq_ok_iff.mp h
  refine layout_eq_ok_iff.mpr ⟨width, tags, payload, alignment, size, htag, hne,
    hderived.writtenOut hr hfits, ?_⟩
  rw [variantChecks_writtenOut hderived.variants.length_eq]
  rfl

end TaggedUnion

/-! ### Descriptions in reachable registries -/

/-- Whatever was registered before: where a description is laid out and no sum wraps, so is the one
in which the offsets, discriminants, alignment and size that it leaves out are written down. Every
field is where it was, and the fact is the same. -/
theorem writing_out_changes_nothing [Check κ] [DecidableEq κ] (hr : r.Reachable) :
    (∀ (a : Aggregate κ) (layout : AggregateLayout κ), a.representation = .sequential →
      a.layout r = .ok layout → a.fits r = true →
      ∃ again, (a.writtenOut layout).layout r = .ok again ∧
        again.fields.map (·.offset) = layout.fields.map (·.offset) ∧
        again.fact = layout.fact ∧ layout.fact.agreesWith again.fact = true) ∧
    (∀ (u : TaggedUnion) (placed : List (List (PlacedField κ))) (fact : LayoutFact κ),
      u.layout r = .ok (placed, fact) → u.fits r = true →
      ∃ placed' fact', (u.writtenOut placed fact.toStorage).layout r = .ok (placed', fact') ∧
        placed'.map (·.map (·.offset)) = placed.map (·.map (·.offset)) ∧
        fact' = fact ∧ fact.agreesWith fact' = true) := by
  have hconsistent := Registry.ReachableBy.consistent hr
  constructor
  · intro a layout hrep h hfits
    rw [Aggregate.layout, hrep] at h
    refine ⟨⟨layout.fields.map PlacedField.writtenOut, layout.fact⟩, ?_, ?_, rfl,
      layout.fact.agreesWith_refl⟩
    · rw [Aggregate.layout, show (a.writtenOut layout).representation = .sequential from hrep]
      exact a.sequentialLayout_writtenOut hconsistent hrep h hfits
    · simp [PlacedField.writtenOut]
  · intro u placed fact h hfits
    refine ⟨_, fact, u.layout_writtenOut hconsistent h hfits, ?_, rfl, fact.agreesWith_refl⟩
    simp [TaggedUnion.placedWrittenOut, PlacedField.writtenOut]

theorem writing_out_changes_nothing_sharedWord :
    Registry.flagRegistry.Reachable ∧ mixedFields.fits Registry.flagRegistry = true ∧
      sharedWord.fits Registry.flagRegistry = true ∧
      (∃ again, (mixedFields.writtenOut mixedLayout).layout Registry.flagRegistry = .ok again ∧
        mixedLayout.fact.agreesWith again.fact = true) ∧
      ∃ placed fact, (sharedWord.writtenOut sharedFields ⟨24, 8⟩).layout Registry.flagRegistry =
        .ok (placed, fact) ∧ sharedFact.agreesWith fact = true := by
  have hr := Registry.reachable_flagRegistry.reachable
  have hmixed : mixedFields.fits Registry.flagRegistry = true := by
    rw [Registry.flagRegistry_eq]
    cbv
  have hshared : sharedWord.fits Registry.flagRegistry = true := by
    rw [Registry.flagRegistry_eq]
    cbv
  obtain ⟨haggregate, hunion⟩ := writing_out_changes_nothing hr
  obtain ⟨again, hagain, -, -, hagrees⟩ := haggregate _ _ rfl layout_mixedFields hmixed
  obtain ⟨placed, fact, hlayout, -, -, hagrees'⟩ := hunion _ _ _ layout_sharedWord hshared
  exact ⟨hr, hmixed, hshared, ⟨again, hagain, hagrees⟩, placed, fact, hlayout, hagrees'⟩

end BitValidity
