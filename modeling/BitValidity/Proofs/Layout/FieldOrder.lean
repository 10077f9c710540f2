import BitValidity.Proofs.Layout.Sequence

/-!
# The order of fields

Fields are placed one after the other, an overlap is looked for among neighbours only, and a check
stops at the first field that has no value. Where every field has an offset the layout depends on
none of this: each field is where it is said to be, the whole takes its alignment and its size from
all of them, and a byte string is a value when each field is. The order decides only which of
several things that are wrong is reported (`field_order_does_not_matter`).
-/

namespace BitValidity

variable {κ : Type} {r : Registry κ}

/-! ### Fields that have offsets -/

/-- Where a field goes that has an offset does not depend on the fields before it. -/
lemma Field.IsAt.of_given {field : Field} {alignment cursor offset : UInt64}
    (h : field.IsAt alignment cursor offset) (hgiven : field.offset?.isSome = true)
    (cursor' : UInt64) : field.IsAt alignment cursor' offset := by
  obtain ⟨given, hgiven⟩ := Option.isSome_iff_exists.mp hgiven
  simpa only [IsAt, hgiven] using h

/-- What a field that has an offset is placed as, wherever the fields before it end. -/
structure IsGivenField (r : Registry κ) (field : Field) (p : PlacedField κ) : Prop where
  field_eq : p.field = field
  fact_eq : r.fact? field.type = some p.fact
  isAt : ∀ cursor, field.IsAt p.fact.alignment cursor p.offset

section

variable {fields fields' : List Field} {cursor : UInt64} {placed : List (PlacedField κ)}

lemma placed_iff_of_given (hgiven : ∀ field ∈ fields, field.offset?.isSome = true) :
    Placed r fields cursor placed ↔ List.Forall₂ (IsGivenField r) fields placed := by
  constructor
  · intro h
    induction h with
    | nil cursor => exact .nil
    | cons hfact hoffset hrest ih =>
      obtain ⟨hfield, hgiven⟩ := List.forall_mem_cons.mp hgiven
      exact .cons ⟨rfl, hfact, hoffset.of_given hfield⟩ (ih hgiven)
  · intro h
    induction h generalizing cursor with
    | nil => exact .nil cursor
    | @cons field p rest placed hfield hrest ih =>
      obtain ⟨rfl, hfact, hoffset⟩ := hfield
      obtain ⟨-, hgiven⟩ := List.forall_mem_cons.mp hgiven
      exact .cons hfact (hoffset cursor) (ih hgiven)

/-- The same fields are placed in any order. -/
lemma Placed.exists_perm (h : Placed r fields cursor placed)
    (hgiven : ∀ field ∈ fields, field.offset?.isSome = true) (hperm : fields'.Perm fields) :
    ∃ placed', Placed r fields' cursor placed' ∧ placed'.Perm placed := by
  have hgiven' : ∀ field ∈ fields', field.offset?.isSome = true :=
    fun field hfield => hgiven field (hperm.mem_iff.mp hfield)
  obtain ⟨placed', hplaced, hperm⟩ :=
    List.perm_comp_forall₂ hperm ((placed_iff_of_given hgiven).mp h)
  exact ⟨placed', (placed_iff_of_given hgiven').mpr hplaced, hperm⟩

end

/-! ### Aggregates -/

namespace Aggregate

/-- Sequential aggregates that differ in the order of their fields only. Every field has an offset,
and none that is placed wraps. -/
structure IsReordering (r : Registry κ) (a a' : Aggregate κ) : Prop where
  eq : a' = { a with fields := a'.fields }
  sequential : a.representation = .sequential
  perm : a'.fields.Perm a.fields
  given : ∀ field ∈ a.fields, field.offset?.isSome = true
  sums : ∀ placed, Placed r a.fields 0 placed →
    ∀ p ∈ placed, p.offset.toNat + p.fact.size.toNat < 2 ^ 64

/-- Layouts of sequential aggregates that differ in the order of the fields only. -/
structure IsReorderedLayout (a : Aggregate κ) (layout layout' : AggregateLayout κ) : Prop where
  perm : layout'.fields.Perm layout.fields
  size_eq : layout'.fact.size = layout.fact.size
  alignment_eq : layout'.fact.alignment = layout.fact.alignment
  validity : layout.fact.validity =
    .allOf layout.fact.size a.name (layout.fields.map (·.check)) a.invariant?
  validity' : layout'.fact.validity =
    .allOf layout.fact.size a.name (layout'.fields.map (·.check)) a.invariant?

variable {a a' : Aggregate κ} {layout layout' : AggregateLayout κ}

namespace IsReordering

lemma symm (h : IsReordering r a a') : IsReordering r a' a where
  eq := by
    rw [h.eq]
  sequential := by
    rw [h.eq]
    exact h.sequential
  perm := h.perm.symm
  given field hfield := h.given field (h.perm.mem_iff.mp hfield)
  sums := by
    intro placed' hplaced'
    have hgiven := fun field hfield => h.given field (h.perm.mem_iff.mp hfield)
    obtain ⟨placed, hplaced, hperm⟩ := hplaced'.exists_perm hgiven h.perm.symm
    exact fun p hp => h.sums placed hplaced p (hperm.mem_iff.mpr hp)

variable [Check κ]

/-- A layout in one order is one in the other, of the same size and alignment. -/
lemma exists_layout (h : IsReordering r a a') (hlayout : a.layout r = .ok layout) :
    ∃ layout', a'.layout r = .ok layout' ∧ a.IsReorderedLayout layout layout' := by
  rw [Aggregate.layout, h.sequential] at hlayout
  obtain ⟨fields, alignment, size, hplaced, hoverlap, halignment, hsize, hinvariant, rfl⟩ :=
    sequentialLayout_eq_ok_iff.mp hlayout
  obtain ⟨fields', hplaced', hperm⟩ := hplaced.exists_perm h.given h.perm
  have hoverlap' := (checkOverlap_perm hperm (h.sums fields hplaced)).mpr hoverlap
  rw [← strictestAlignment_perm hperm] at halignment
  have hsize' := (resolveSize_perm hperm).mpr hsize
  refine ⟨⟨fields', ⟨⟨size, alignment⟩, a.name,
    .allOf size a.name (fields'.map (·.check)) a.invariant?⟩⟩, ?_, hperm, rfl, rfl, rfl, rfl⟩
  rw [h.eq, Aggregate.layout, h.sequential]
  exact sequentialLayout_eq_ok_iff.mpr
    ⟨fields', alignment, size, hplaced', hoverlap', halignment, hsize', hinvariant, rfl⟩

end IsReordering

namespace IsReorderedLayout

variable [Check κ]

lemma accepts_iff (h : a.IsReorderedLayout layout layout') (bytes : Bytes) :
    layout'.fact.validity.Accepts bytes ↔ layout.fact.validity.Accepts bytes := by
  rw [h.validity, h.validity', Predicate.accepts_allOf_iff, Predicate.accepts_allOf_iff]
  simp only [List.forall_mem_map, h.perm.mem_iff]

omit [Check κ] in
lemma admitsNone_eq (h : a.IsReorderedLayout layout layout') :
    layout'.fact.validity.admitsNone = layout.fact.validity.admitsNone := by
  rw [h.validity, h.validity', Bool.eq_iff_iff]
  simp [Predicate.admitsNone, h.perm.mem_iff]

end IsReorderedLayout

variable [Check κ]

/-- A proof that is derived in one order is derived in the other. -/
lemma IsReordering.deriveNicheless (h : IsReordering r a a') {proof : NichelessProof}
    (hproof : a.deriveNicheless r = .ok proof) : a'.deriveNicheless r = .ok proof := by
  obtain ⟨layout, hlayout, -⟩ := bind_eq_ok_iff.mp hproof
  obtain ⟨layout', hlayout', hreordered⟩ := h.exists_layout hlayout
  obtain ⟨hinhabited, hinvariant, hcheck, hrule⟩ := (deriveNicheless_eq_ok_iff hlayout).mp hproof
  have hrule' : a'.nichelessRule layout' = a.nichelessRule layout := by
    rw [h.eq]
    simp only [nichelessRule, h.sequential, hreordered.size_eq]
  refine (deriveNicheless_eq_ok_iff hlayout').mpr ⟨hreordered.admitsNone_eq.trans hinhabited, ?_,
    ?_, hrule' ▸ hrule⟩
  · rw [h.eq]
    exact hinvariant
  · rw [checkFields_eq_ok_iff] at hcheck ⊢
    exact fun p hp => hcheck p (hreordered.perm.mem_iff.mp hp)

/-- Whatever is registered: where every field of a sequential aggregate has an offset and no sum
wraps, its fields can be described in any order. There is a layout in one order when there is one in
the other, with the same size and alignment, the same byte strings are values, and the same proof
that every byte string is one can be derived. -/
theorem field_order_does_not_matter (hrep : a.representation = .sequential)
    (hgiven : ∀ field ∈ a.fields, field.offset?.isSome = true) (hfits : a.sumsFit r = true)
    {fields' : List Field} (hperm : fields'.Perm a.fields) :
    let a' := { a with fields := fields' }
    ((∃ fact, a'.layoutFact r = .ok fact) ↔ ∃ fact, a.layoutFact r = .ok fact) ∧
    (∀ fact fact', a.layoutFact r = .ok fact → a'.layoutFact r = .ok fact' →
      fact'.size = fact.size ∧ fact'.alignment = fact.alignment ∧
      ∀ bytes, fact'.validity.findViolation bytes = .ok none ↔
        fact.validity.findViolation bytes = .ok none) ∧
    ∀ proof, a'.deriveNicheless r = .ok proof ↔ a.deriveNicheless r = .ok proof := by
  intro a'
  have h : IsReordering r a a' := by
    refine ⟨rfl, hrep, hperm, hgiven, ?_⟩
    intro placed hplaced
    exact hplaced.sumFits_of_fieldsFit (fieldsFit_of_sumsFit hfits hplaced)
  simp only [layoutFact, map_eq_ok_iff]
  refine ⟨⟨?_, ?_⟩, ?_, fun proof => ⟨h.symm.deriveNicheless, h.deriveNicheless⟩⟩
  · rintro ⟨_, layout', hlayout', rfl⟩
    obtain ⟨layout, hlayout, -⟩ := h.symm.exists_layout hlayout'
    exact ⟨_, layout, hlayout, rfl⟩
  · rintro ⟨_, layout, hlayout, rfl⟩
    obtain ⟨layout', hlayout', -⟩ := h.exists_layout hlayout
    exact ⟨_, layout', hlayout', rfl⟩
  · rintro _ _ ⟨layout, hlayout, rfl⟩ ⟨layout', hlayout', rfl⟩
    obtain ⟨reordered, hreordered, hspec⟩ := h.exists_layout hlayout
    obtain rfl := Except.ok.inj (hreordered.symm.trans hlayout')
    exact ⟨hspec.size_eq, hspec.alignment_eq, hspec.accepts_iff⟩

end Aggregate

/-- A flag behind a word and one in front of it, with the last one first. -/
def scatteredFields : Aggregate Empty :=
  ⟨"scattered", .sequential, [⟨"b", ⟨1⟩, some 16⟩, ⟨"a", ⟨1⟩, some 1⟩, ⟨"word", ⟨0⟩, some 8⟩],
    none, none, none⟩

/-- The same, in the order of their offsets. -/
def scatteredInOrder : List Field :=
  [⟨"a", ⟨1⟩, some 1⟩, ⟨"word", ⟨0⟩, some 8⟩, ⟨"b", ⟨1⟩, some 16⟩]

theorem field_order_does_not_matter_scattered :
    scatteredFields.sumsFit Registry.flagRegistry = true ∧
      scatteredInOrder.Perm scatteredFields.fields ∧
      ∃ fact fact', scatteredFields.layoutFact Registry.flagRegistry = .ok fact ∧
        { scatteredFields with fields := scatteredInOrder }.layoutFact Registry.flagRegistry =
          .ok fact' ∧
        fact'.size = fact.size ∧ fact'.alignment = fact.alignment ∧
        ∀ bytes, fact'.validity.findViolation bytes = .ok none ↔
          fact.validity.findViolation bytes = .ok none := by
  have hgiven : ∀ field ∈ scatteredFields.fields, field.offset?.isSome = true := by
    simp [scatteredFields]
  have hfits : scatteredFields.sumsFit Registry.flagRegistry = true := by
    rw [Registry.flagRegistry_eq]
    cbv
  have hperm : scatteredInOrder.Perm scatteredFields.fields :=
    @List.perm_append_comm _ (scatteredInOrder.take 2) (scatteredInOrder.drop 2)
  have hlayout : ∃ fact, scatteredFields.layoutFact Registry.flagRegistry = .ok fact := by
    rw [Registry.flagRegistry_eq]
    exact ⟨_, by cbv⟩
  obtain ⟨hexists, hsame, -⟩ := Aggregate.field_order_does_not_matter rfl hgiven hfits hperm
  obtain ⟨fact, hfact⟩ := hlayout
  obtain ⟨fact', hfact'⟩ := hexists.mpr ⟨fact, hfact⟩
  exact ⟨hfits, hperm, fact, fact', hfact, hfact', hsame fact fact' hfact hfact'⟩

end BitValidity
