import BitValidity.Proofs.Registry.Safety

/-!
# What derived aggregates accept

The predicate of an aggregate is built in different ways, by how it is represented: out of the
predicates of the fields where they are placed, as that of the only field that is not empty, or as
one that accepts nothing because an empty field has no value. It always means the same: every field
is a value of its type, in the bytes where it is placed, and an invariant holds of the whole. No
other byte matters (`valid_iff_fields_valid`).
-/

namespace BitValidity

variable {κ : Type} {r : Registry κ}

/-! ### Fields in the bytes of the whole -/

variable [Check κ]

namespace PlacedField

/-- The bytes at the offset of the field are a value of its type. -/
def IsValidIn (p : PlacedField κ) (bytes : Bytes) : Prop :=
  p.fact.validity.Accepts (Predicate.part bytes p.offset p.fact.size)

variable {p : PlacedField κ} {bytes bytes' : Bytes}

lemma isValidIn_congr (h : ∀ i, p.extent.Occupies i → bytes'[i]? = bytes[i]?) :
    p.IsValidIn bytes' ↔ p.IsValidIn bytes := by
  have hpart : Predicate.part bytes' p.offset p.fact.size =
      Predicate.part bytes p.offset p.fact.size :=
    Predicate.part_congr fun i hle hlt => h i ⟨hle, hlt⟩
  rw [IsValidIn, IsValidIn, hpart]

lemma isValidIn_of_empty (hempty : p.fact.size = 0) :
    p.IsValidIn bytes ↔ p.fact.validity.Accepts [] := by
  simp [IsValidIn, Predicate.part, hempty]

lemma isValidIn_of_whole (hoffset : p.offset = 0) (hlen : bytes.length = p.fact.size.toNat) :
    p.IsValidIn bytes ↔ p.fact.validity.Accepts bytes := by
  rw [IsValidIn, hoffset, Predicate.part_zero_self hlen]

lemma holdsOn_check_iff (hsize : p.fact.validity.size = p.fact.size)
    (hinside : p.offset.toNat + p.fact.size.toNat ≤ bytes.length) :
    p.check.HoldsOn bytes ↔ p.IsValidIn bytes := by
  simp only [FieldCheck.HoldsOn, check, IsValidIn, hsize, hinside, true_and]

end PlacedField

/-- Checked side by side, placed fields mean that each of them is valid. -/
lemma accepts_allOf_check_iff (hr : r.Consistent) {placed : List (PlacedField κ)} {size : UInt64}
    {d : String} {invariant : Option (Predicate κ)} {bytes : Bytes}
    (hfacts : ∀ p ∈ placed, r.fact? p.field.type = some p.fact)
    (hinside : ∀ p ∈ placed, p.offset.toNat + p.fact.size.toNat ≤ size.toNat)
    (hlen : bytes.length = size.toNat) :
    (Predicate.allOf size d (placed.map (·.check)) invariant).Accepts bytes ↔
      (∀ p ∈ placed, p.IsValidIn bytes) ∧ ∀ p ∈ invariant, p.Accepts bytes := by
  rw [Predicate.accepts_allOf_iff, List.forall_mem_map]
  simp only [hlen, true_and]
  refine and_congr_left' (forall₂_congr fun p hp => ?_)
  exact PlacedField.holdsOn_check_iff (hr.size_eq _ _ (hfacts p hp)) (hlen ▸ hinside p hp)

/-! ### Aggregates -/

namespace Aggregate

variable {a : Aggregate κ} {layout : AggregateLayout κ} {bytes : Bytes}

lemma accepts_sequential_iff (hr : r.Consistent) (hrep : a.representation = .sequential)
    (hfits : a.fits r = true) (h : a.sequentialLayout r = .ok layout)
    (hlen : bytes.length = layout.fact.size.toNat) :
    layout.fact.validity.Accepts bytes ↔
      (∀ p ∈ layout.fields, p.IsValidIn bytes) ∧ ∀ p ∈ a.invariant?, p.Accepts bytes := by
  have hinside := ((a.contained_iff_of_sequentialLayout hr hrep h).mpr hfits).inside
  obtain ⟨fields, alignment, size, hplaced, -, -, -, -, rfl⟩ := sequentialLayout_eq_ok_iff.mp h
  exact accepts_allOf_check_iff hr (fun p hp => hplaced.fact_eq hp) hinside hlen

/-- The empty fields are looked at when the layout is derived, and the other one when bytes are
checked. -/
lemma accepts_transparent_iff (h : a.transparentLayout r = .ok layout)
    (hlen : bytes.length = layout.fact.size.toNat) :
    layout.fact.validity.Accepts bytes ↔ ∀ p ∈ layout.fields, p.IsValidIn bytes := by
  obtain ⟨fields, inner, markers, hfields, hmarkers, rfl⟩ := transparentLayout_eq_ok_iff.mp h
  obtain ⟨-, -, hplaced, hinner, -⟩ := transparentFields_eq_ok_iff.mp hfields
  -- the markers say of each empty field whether the empty string is a value
  have hall : markers.all id = true ↔
      ∀ p ∈ fields.filter (·.fact.size == 0), p.IsValidIn bytes := by
    apply all_iff_forall_mem
    apply (List.forall₂_and_left _ _ |>.mpr ⟨fun p hp => hp, hmarkers⟩).imp
    rintro p marker ⟨hp, hmarker⟩
    have hempty : p.fact.size = 0 := by simpa using List.of_mem_filter hp
    rw [p.isValidIn_of_empty hempty, p.fact.accepts_nil_iff_of_hasEmptyValue hempty hmarker]
  obtain ⟨hmem, -⟩ := mem_of_filter_eq hinner
  obtain ⟨field, -, hfield⟩ := exists_mem_left hplaced hmem
  have hwhole : inner.IsValidIn bytes ↔ inner.fact.validity.Accepts bytes :=
    inner.isValidIn_of_whole hfield.offset_eq hlen
  have hsplit : (∀ p ∈ fields, p.IsValidIn bytes) ↔
      inner.IsValidIn bytes ∧ ∀ p ∈ fields.filter (·.fact.size == 0), p.IsValidIn bytes := by
    constructor
    · intro hvalid
      exact ⟨hvalid inner hmem, fun p hp => hvalid p (List.mem_of_mem_filter hp)⟩
    · rintro ⟨hvalid, hempties⟩ p hp
      rcases eq_or_empty_of_filter_eq hinner hp with rfl | hempty
      · exact hvalid
      · exact hempties p (List.mem_filter.mpr ⟨hp, by simpa using hempty⟩)
  rw [hsplit, hwhole, ← hall]
  dsimp only
  split
  · rename_i hmarkers
    rw [Predicate.accepts_passthrough_iff]
    exact (and_iff_left hmarkers).symm
  · rename_i hmarkers
    apply iff_of_false Predicate.not_accepts_noneValid
    intro hvalid
    exact hmarkers hvalid.2

lemma accepts_layout_iff (hr : r.Consistent) (hfits : a.fits r = true)
    (h : a.layout r = .ok layout) (hlen : bytes.length = layout.fact.size.toNat) :
    layout.fact.validity.Accepts bytes ↔
      (∀ p ∈ layout.fields, p.IsValidIn bytes) ∧ ∀ p ∈ a.invariant?, p.Accepts bytes := by
  rcases layout_eq_ok_iff.mp h with ⟨hrep, h⟩ | ⟨-, h⟩
  · exact accepts_sequential_iff hr hrep hfits h hlen
  · obtain ⟨fields, inner, markers, hfields, -⟩ := transparentLayout_eq_ok_iff.mp h
    obtain ⟨-, hinvariant, -⟩ := transparentFields_eq_ok_iff.mp hfields
    rw [accepts_transparent_iff h hlen, hinvariant]
    simp

/-- The fields of a layout are those of the description, and where they are is up to its
representation. -/
lemma placed_of_layout (h : a.layout r = .ok layout) :
    layout.fields.map (·.field) = a.fields ∧
      (a.representation = .sequential → Placed r a.fields 0 layout.fields) ∧
      (a.representation = .transparent → ∀ p ∈ layout.fields, p.offset = 0) := by
  rcases layout_eq_ok_iff.mp h with ⟨hrep, h⟩ | ⟨hrep, h⟩
  · obtain ⟨fields, alignment, size, hplaced, -, -, -, -, rfl⟩ := sequentialLayout_eq_ok_iff.mp h
    exact ⟨hplaced.map_field, fun _ => hplaced, by simp [hrep]⟩
  · obtain ⟨fields, inner, markers, hfields, -, rfl⟩ := transparentLayout_eq_ok_iff.mp h
    obtain ⟨-, -, hplaced, -⟩ := transparentFields_eq_ok_iff.mp hfields
    refine ⟨?_, by simp [hrep], ?_⟩
    · rw [← List.forall₂_eq_eq_eq, List.forall₂_map_left_iff]
      exact hplaced.flip.imp fun p field hfield => hfield.field_eq
    · intro _ p hp
      obtain ⟨field, -, hfield⟩ := exists_mem_left hplaced hp
      exact hfield.offset_eq

/-- The predicate of a layout is about as many bytes as the type has. -/
lemma size_of_layout (hr : r.Consistent) (h : a.layout r = .ok layout) :
    layout.fact.validity.size = layout.fact.size := by
  rcases layout_eq_ok_iff.mp h with ⟨-, h⟩ | ⟨-, h⟩
  · obtain ⟨fields, alignment, size, -, -, -, -, -, rfl⟩ := sequentialLayout_eq_ok_iff.mp h
    rfl
  · obtain ⟨fields, inner, markers, hfields, -, rfl⟩ := transparentLayout_eq_ok_iff.mp h
    obtain ⟨-, -, hplaced, hinner, -⟩ := transparentFields_eq_ok_iff.mp hfields
    obtain ⟨field, -, hfield⟩ := exists_mem_left hplaced (mem_of_filter_eq hinner).1
    dsimp only
    split
    · exact hr.size_eq _ _ hfield.fact_eq
    · rfl

lemma inside_of_layout (hr : r.Consistent) (hfits : a.fits r = true) (h : a.layout r = .ok layout) :
    ∀ p ∈ layout.fields, p.offset.toNat + p.fact.size.toNat ≤ layout.fact.size.toNat := by
  rcases layout_eq_ok_iff.mp h with ⟨hrep, h⟩ | ⟨hrep, h⟩
  · exact ((a.contained_iff_of_sequentialLayout hr hrep h).mpr hfits).inside
  · obtain ⟨fields, inner, markers, hfields, -, rfl⟩ := transparentLayout_eq_ok_iff.mp h
    obtain ⟨-, -, hplaced, hinner, -⟩ := transparentFields_eq_ok_iff.mp hfields
    intro p hp
    obtain ⟨field, -, hfield⟩ := exists_mem_left hplaced hp
    rw [hfield.offset_eq, UInt64.toNat_zero, Nat.zero_add]
    rcases eq_or_empty_of_filter_eq hinner hp with rfl | hempty
    · exact le_rfl
    · simp [hempty]

end Aggregate

/-- Whatever was registered before, the bytes of an aggregate are a value exactly when the bytes
where each field is placed are a value of its type, and an invariant holds of the whole. In a
sequential aggregate the fields are placed one behind the other, and in a transparent one they are
all at the start, where an empty one is a value when the empty string is. Bytes of no field make no
difference, unless it is to the invariant. -/
theorem valid_iff_fields_valid [DecidableEq κ] (hr : r.Reachable) (hfacts : r.FactsWellFormed)
    {a : Aggregate κ} {layout : AggregateLayout κ} (hfits : a.fits r = true)
    (h : a.layout r = .ok layout) {bytes : Bytes}
    (hlen : bytes.length = layout.fact.size.toNat) :
    layout.fields.map (·.field) = a.fields ∧
    (∀ p ∈ layout.fields, r.fact? p.field.type = some p.fact ∧
      p.offset.toNat + p.fact.size.toNat ≤ bytes.length) ∧
    (a.representation = .sequential → Placed r a.fields 0 layout.fields) ∧
    (a.representation = .transparent → ∀ p ∈ layout.fields, p.offset = 0) ∧
    (layout.fact.validity.findViolation bytes = .ok none ↔
      (∀ p ∈ layout.fields,
        p.fact.validity.findViolation (Predicate.part bytes p.offset p.fact.size) = .ok none) ∧
      ∀ invariant ∈ a.invariant?, invariant.findViolation bytes = .ok none) ∧
    (∀ bytes' : Bytes, bytes'.length = bytes.length →
      (∀ p ∈ layout.fields, ∀ i, p.extent.Occupies i → bytes'[i]? = bytes[i]?) →
      (∀ invariant ∈ a.invariant?, invariant.findViolation bytes' = .ok none ↔
        invariant.findViolation bytes = .ok none) →
      (layout.fact.validity.findViolation bytes' = .ok none ↔
        layout.fact.validity.findViolation bytes = .ok none)) ∧
    ((∀ invariant ∈ a.invariant?, invariant.isWellFormed = true) →
      ∃ outcome, layout.fact.validity.findViolation bytes = .ok outcome) := by
  have hr := Registry.ReachableBy.consistent hr
  have hinside := a.inside_of_layout hr hfits h
  obtain ⟨hfields, hsequential, htransparent⟩ := a.placed_of_layout h
  have haccepts := a.accepts_layout_iff hr hfits h hlen
  refine ⟨hfields, ?_, hsequential, htransparent, haccepts, ?_, ?_⟩
  · intro p hp
    exact ⟨Aggregate.fact_eq_of_layout h p hp, hlen ▸ hinside p hp⟩
  · intro bytes' hlen' hbytes hinvariant
    have haccepts' := a.accepts_layout_iff hr hfits h (hlen'.trans hlen)
    show layout.fact.validity.Accepts bytes' ↔ layout.fact.validity.Accepts bytes
    rw [haccepts, haccepts']
    exact and_congr (forall₂_congr fun p hp => p.isValidIn_congr (hbytes p hp))
      (forall₂_congr hinvariant)
  · intro hinvariant
    have hwf := a.good_of_layout Predicate.layoutClosed_isWellFormed hr hfacts hinvariant hfits h
    exact Predicate.exists_findViolation hwf ((a.size_of_layout hr h).symm ▸ hlen)

/-- A flag, and a word that is placed behind seven bytes of padding. -/
def flaggedWord : Aggregate Empty :=
  ⟨"flagged", .sequential, [⟨"flag", ⟨1⟩, none⟩, ⟨"word", ⟨0⟩, none⟩], none, none, none⟩

def flaggedWordLayout : AggregateLayout Empty :=
  ⟨[⟨⟨"flag", ⟨1⟩, none⟩, Registry.flagFact, 0⟩,
    ⟨⟨"word", ⟨0⟩, none⟩, ⟨⟨8, 8⟩, "word", .allValid 8 "word"⟩, 8⟩],
    ⟨⟨16, 8⟩, "flagged", .allOf 16 "flagged"
      [⟨0, Registry.flagFact.validity, "flag"⟩, ⟨8, .allValid 8 "word", "word"⟩] none⟩⟩

lemma layout_flaggedWord :
    flaggedWord.layout Registry.flagRegistry = .ok flaggedWordLayout := by
  rw [Registry.flagRegistry_eq]
  cbv

theorem valid_iff_fields_valid_flaggedWord :
    let bytes : Bytes := 2 :: List.replicate 15 255
    Registry.flagRegistry.Reachable ∧ Registry.flagRegistry.FactsWellFormed ∧
      flaggedWord.fits Registry.flagRegistry = true ∧
      flaggedWord.layout Registry.flagRegistry = .ok flaggedWordLayout ∧
      bytes.length = flaggedWordLayout.fact.size.toNat ∧
      (flaggedWordLayout.fact.validity.findViolation bytes = .ok none ↔
        (∀ p ∈ flaggedWordLayout.fields,
          p.fact.validity.findViolation (Predicate.part bytes p.offset p.fact.size) = .ok none) ∧
        ∀ invariant ∈ flaggedWord.invariant?, invariant.findViolation bytes = .ok none) := by
  have hr := Registry.reachable_flagRegistry
  have hfits : flaggedWord.fits Registry.flagRegistry = true := rfl
  have hlen : (2 :: List.replicate 15 255 : Bytes).length = flaggedWordLayout.fact.size.toNat := rfl
  have h := valid_iff_fields_valid hr.reachable hr.factsWellFormed hfits layout_flaggedWord hlen
  exact ⟨hr.reachable, hr.factsWellFormed, hfits, layout_flaggedWord, hlen, h.2.2.2.2.1⟩

end BitValidity
