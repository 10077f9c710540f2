import BitValidity.Proofs.Host.Conversion
import BitValidity.Proofs.Layout.Repeated
import BitValidity.Proofs.Registry.Redefinition
import BitValidity.Proofs.Registry.Refusal

/-!
# Arrays

An array is registered as an aggregate of its elements. When the type of these has a fact with the
storage of the type, that aggregate comes out as an array should: the elements are placed without
padding, the bytes are a value when those of every element are, and an array of a nicheless type is
nicheless (`array_means_every_element`). This is so too when the array had a fact before, since the
registration would not have succeeded with one that differs.
-/

namespace BitValidity

variable {κ : Type} {r r' : Registry κ} {element : HostType} {fact : LayoutFact κ} {count : ℕ}

/-! ### Equivalent aggregates -/

section

variable [DecidableEq κ]

lemma Predicate.map_offset_of_fieldsEquivalent {fields fields' : List (FieldCheck (Predicate κ))}
    (h : fieldsEquivalent fields fields' = true) :
    fields.map (·.offset) = fields'.map (·.offset) := by
  induction fields generalizing fields' with
  | nil => cases fields' <;> simp_all [fieldsEquivalent]
  | cons field rest ih =>
    cases fields' with
    | nil => simp [fieldsEquivalent] at h
    | cons field' rest' =>
      simp only [fieldsEquivalent, Bool.and_eq_true, beq_iff_eq] at h
      rw [List.map_cons, List.map_cons, h.1.1, ih h.2]

/-- What is equivalent to fields side by side has fields at the same offsets. -/
lemma Predicate.exists_eq_allOf_of_equivalent {p : Predicate κ} {size : UInt64} {d : String}
    {fields : List (FieldCheck (Predicate κ))}
    (h : p.equivalent (allOf size d fields none) = true) :
    ∃ d' fields', p = allOf size d' fields' none ∧
      fields'.map (·.offset) = fields.map (·.offset) := by
  cases p with
  | allOf size' d' fields' invariant =>
    cases invariant with
    | none =>
      simp only [equivalent, Bool.and_eq_true, beq_iff_eq] at h
      exact ⟨d', fields', by rw [h.1], map_offset_of_fieldsEquivalent h.2⟩
    | some invariant => simp [equivalent] at h
  | _ => simp [equivalent] at h

end

/-! ### Elements -/

lemma Session.isRepeated_arrayDescription {type : TypeId} (hcount : 0 < count)
    (hfact : r.fact? type = some fact) (name : String) :
    (arrayDescription name type count : Aggregate κ).IsRepeated r fact where
  representation := rfl
  fields := by
    rw [arrayDescription, List.forall_mem_map]
    exact fun _ _ => ⟨rfl, hfact⟩
  nonempty := by simpa [arrayDescription] using hcount.ne'
  alignment := rfl
  size := rfl
  invariant := rfl

variable [Check κ]

/-- What a proof was found of is not seen to be uninhabited. -/
lemma LayoutFact.admitsNone_of_allows {proof : NichelessProof} (h : fact.Allows proof) :
    fact.validity.admitsNone = false := by
  rw [Bool.eq_false_iff]
  intro hnone
  cases proof with
  | derived rule => exact h (Predicate.hasImpossiblePart_of_admitsNone hnone)
  | asserted justification =>
    have huninhabited : fact.isUninhabited = .ok true := by rw [isUninhabited, if_pos hnone]
    cases huninhabited.symm.trans h

namespace Aggregate.IsTiledBy

variable {a : Aggregate κ} {layout : AggregateLayout κ}

/-- A proof for a sequence of fields of one type is derived where that type is nicheless. -/
lemma exists_deriveNicheless (h : a.IsTiledBy fact layout) (hlayout : a.layout r = .ok layout)
    (hinvariant : a.invariant? = none) (hsize : fact.size ≠ 0)
    (hsome : fact.validity.admitsNone = false)
    (hnicheless : ∀ field ∈ a.fields, r.isNicheless field.type = true) :
    ∃ proof, a.deriveNicheless r = .ok proof := by
  refine ⟨_, (a.deriveNicheless_eq_ok_iff hlayout).mpr
    ⟨h.admitsNone_eq_false hsome, hinvariant, ?_, rfl⟩⟩
  rw [checkFields_eq_ok_iff]
  intro p hp
  rw [if_neg (h.facts p hp ▸ hsize)]
  exact hnicheless _ (field_mem_of_layout hlayout p hp)

variable [DecidableEq κ] {stored : LayoutFact κ}

omit [Check κ] in
/-- A fact that agrees checks the fields at the same offsets. -/
lemma exists_checks (h : a.IsTiledBy fact layout) (hagrees : stored.agreesWith layout.fact = true) :
    ∃ d fields, stored.validity = .allOf stored.size d fields none ∧
      fields.map (·.offset.toNat) = layout.fields.map (·.offset.toNat) := by
  obtain ⟨hstorage, hequivalent⟩ := LayoutFact.agreesWith_iff.mp hagrees
  have hsize : stored.size = layout.fact.size := congrArg Storage.size hstorage
  rw [h.validity] at hequivalent
  obtain ⟨d, fields, hvalidity, hfields⟩ := Predicate.exists_eq_allOf_of_equivalent hequivalent
  refine ⟨d, fields, hsize ▸ hvalidity, ?_⟩
  calc fields.map (·.offset.toNat)
      = (fields.map (·.offset)).map (·.toNat) := by rw [List.map_map]; rfl
    _ = layout.fields.map (·.offset.toNat) := by rw [hfields, List.map_map, List.map_map]; rfl

/-- A registration records that the fields are nicheless. -/
lemma isNicheless_of_register {type : TypeId} {s : Registry κ} (h : a.IsTiledBy fact layout)
    (hlayout : a.layout r = .ok layout) (hinvariant : a.invariant? = none) (hsize : fact.size ≠ 0)
    (hsome : fact.validity.admitsNone = false)
    (hnicheless : ∀ field ∈ a.fields, r.isNicheless field.type = true)
    (hregister : r.register type layout.fact.draft = .ok s)
    (hrecord : (Session.recordIfProven type fun r => a.deriveNicheless r).run s = (.ok (), r')) :
    r'.isNicheless type = true := by
  have hle := Registry.extends_of_register hregister
  obtain ⟨derived, hderive⟩ := h.exists_deriveNicheless (a.layout_mono hle.fact hlayout)
    hinvariant hsize hsome fun field hfield => hle.isNicheless (hnicheless field hfield)
  rcases Session.run_recordIfProven_eq_ok_iff.mp hrecord with ⟨_, -, hrecord⟩ | ⟨e, hfailed, -⟩
  · exact Registry.isNicheless_of_recordProof hrecord
  · cases hfailed.symm.trans hderive

end Aggregate.IsTiledBy

/-! ### Registration -/

variable [DecidableEq κ]

/-- A registration of an array that succeeds makes the array known, lays out its description, and
registers the fact of that. -/
lemma Session.of_run_registerArray {type : TypeId}
    (hfact : r.fact? (r.findHostType element) = some fact)
    (hrun : (registerArray element count).run r = (.ok type, r')) :
    let known := (r.intern (.array element count)).2
    let a : Aggregate κ := arrayDescription fact.name (r.findHostType element) count
    r'.findHostType (.array element count) = type ∧
      ∃ layout s, a.layout known = .ok layout ∧ known.register type layout.fact.draft = .ok s ∧
        (recordIfProven type fun r => a.deriveNicheless r).run s = (.ok (), r') := by
  intro known a
  rw [registerArray, run_bind, run_idOf_of_lookup (Registry.lookup_hostTypes_of_fact? hfact)]
    at hrun
  dsimp only at hrun
  rw [run_bind, run_lookup_of_fact hfact] at hrun
  obtain ⟨htype, draft, s, hdraft, hregister, hrecord⟩ := of_run_defineHost hrun
  obtain ⟨layout, hlayout, rfl⟩ := Description.fact_aggregate_eq_ok_iff.mp hdraft
  exact ⟨htype, layout, s, hlayout, hregister, hrecord⟩

/-- Whatever led to a registry in which the type of the elements has a fact with the storage of the
type, and whatever the array was known as before. When it is registered as an array, every element
is placed where the one before it ends, in the layout and in the fact of the array alike. The fact
has the size of all elements together, and bytes are a value exactly when each of the stretches that
are as long as one element is a value of the type of the elements. The array is nicheless if that
type is. -/
theorem array_means_every_element (hr : r.Reachable) {type : TypeId}
    (hfact : r.fact? (r.findHostType element) = some fact) (hsize : fact.size = element.size)
    (halignment : fact.alignment = element.alignment) (hpos : 0 < element.size.toNat)
    (hdvd : element.alignment.toNat ∣ element.size.toNat) (hcount : 0 < count)
    (hroom : count * element.size.toNat < 2 ^ 64)
    (hrun : (Session.registerArray element count).run r = (.ok type, r')) :
    let size := element.size.toNat
    let a : Aggregate κ := Session.arrayDescription fact.name (r.findHostType element) count
    r'.findHostType (.array element count) = type ∧
    (∃ layout, a.layout r = .ok layout ∧ (∀ p ∈ layout.fields, p.fact = fact) ∧
      layout.fields.map (·.offset.toNat) = (List.range count).map (· * size)) ∧
    (∃ stored, r'.fact? type = some stored ∧ stored.size.toNat = count * size ∧
      (∃ d fields, stored.validity = .allOf stored.size d fields none ∧
        fields.map (·.offset.toNat) = (List.range count).map (· * size)) ∧
      ∀ bytes : Bytes, bytes.length = count * size →
        (stored.validity.findViolation bytes = .ok none ↔ ∀ i < count,
          fact.validity.findViolation ((bytes.drop (i * size)).take size) = .ok none)) ∧
    (r.isNicheless (r.findHostType element) = true → r'.isNicheless type = true) := by
  intro size a
  obtain ⟨htype, layout, s, hlayout, hregister, hrecord⟩ :=
    Session.of_run_registerArray hfact hrun
  obtain ⟨hfacts, hproofs, huniverses⟩ := r.intern_spec (.array element count)
  have hknown := (Registry.ReachableBy.consistent hr).congr hfacts hproofs huniverses
  have hlength : a.fields.length = count := by simp [a, Session.arrayDescription]
  -- the elements fill the array, in the fact that is derived
  have htiled : a.IsTiledBy fact layout := by
    apply (Session.isRepeated_arrayDescription hcount (hfacts ▸ hfact) fact.name).isTiledBy hknown
    · rwa [hsize, halignment]
    · rwa [hsize, hlength]
    · exact hlayout
  have hoffsets : layout.fields.map (·.offset.toNat) = (List.range count).map (· * size) := by
    rw [htiled.offsets, hlength, hsize]
  have hwhole : layout.fact.size.toNat = count * size := by rw [htiled.size, hlength, hsize]
  -- the fact that the array has agrees with it
  obtain ⟨_, stored, ⟨⟩, hstored, hagrees⟩ := Registry.agreesWith_of_register hregister
  obtain ⟨hstorage, -⟩ := LayoutFact.agreesWith_iff.mp hagrees
  obtain ⟨d, fields, hvalidity, hfields⟩ := htiled.exists_checks hagrees
  refine ⟨htype, ⟨layout, a.layout_mono (fun type fact h => hfacts ▸ h) hlayout, htiled.facts,
    hoffsets⟩, ⟨stored, (Session.of_run_recordIfProven hrecord).1.fact _ _ hstored, ?_,
    ⟨d, fields, hvalidity, hfields.trans hoffsets⟩, ?_⟩, ?_⟩
  · rw [← hwhole]
    exact congrArg (·.size.toNat) hstorage
  · intro bytes hlen
    have haccepts := htiled.accepts_iff hknown (Aggregate.fact_eq_of_layout hlayout)
      (hlen.trans hwhole.symm)
    rw [hlength, hsize] at haccepts
    exact (LayoutFact.accepts_iff_of_agreesWith hagrees bytes).trans haccepts
  · intro hnicheless
    obtain ⟨proof, hproof⟩ := Option.isSome_iff_exists.mp hnicheless
    have hsome := LayoutFact.admitsNone_of_allows
      (Registry.ReachableBy.proofsAllowed hr _ _ _ hfact hproof)
    have hnonempty : fact.size ≠ 0 := by
      intro hzero
      simp [← hsize, hzero] at hpos
    exact htiled.isNicheless_of_register hlayout rfl hnonempty hsome
      (List.forall_mem_map.mpr fun _ _ => by rwa [Registry.isNicheless, hproofs]) hregister hrecord

def shortFact : LayoutFact Empty := ⟨⟨2, 2⟩, "uint16_t", .allValid 2 "uint16_t"⟩

def shortRegistry : Registry Empty :=
  ((Registry.empty .standard).after (.idOf (.int ⟨.two, false⟩))).after
    (.define ⟨0⟩ (.leaf shortFact.draft) none)

lemma shortRegistry_eq : shortRegistry = ⟨.standard, false,
    [⟨"uint16_t", some shortFact, some (.derived .everyPattern)⟩],
    [(.int ⟨.two, false⟩, ⟨0⟩)], []⟩ := by
  rfl

/-- Three integers of two bytes each. -/
theorem array_means_every_element_short :
    let element : HostType := .int ⟨.two, false⟩
    shortRegistry.Reachable ∧
      shortRegistry.fact? (shortRegistry.findHostType element) = some shortFact ∧
      shortFact.size = element.size ∧ shortFact.alignment = element.alignment ∧
      0 < element.size.toNat ∧ element.alignment.toNat ∣ element.size.toNat ∧ 0 < 3 ∧
      3 * element.size.toNat < 2 ^ 64 ∧
      ∃ type r', (Session.registerArray element 3).run shortRegistry = (.ok type, r') ∧
        (∃ stored, r'.fact? type = some stored ∧ stored.size.toNat = 6) ∧
        r'.isNicheless type = true := by
  intro element
  have hr : shortRegistry.Reachable := ⟨.standard, .step (.step .refl trivial) trivial⟩
  have hfact : shortRegistry.fact? (shortRegistry.findHostType element) = some shortFact := rfl
  have hunknown : shortRegistry.hostTypes.lookup (.array element 3) = none := rfl
  have hok : ((Session.registerArray element 3).run shortRegistry).1 = .ok ⟨1⟩ := by
    rw [Session.registerArray, Session.run_bind,
      Session.run_idOf_of_lookup (Registry.lookup_hostTypes_of_fact? hfact)]
    dsimp only
    rw [Session.run_bind, Session.run_lookup_of_fact hfact]
    dsimp only
    rw [Session.defineAggregate, Session.defineHost, Session.run_bind, Session.idOf,
      Session.run_write, Registry.intern_of_lookup_eq_none rfl hunknown]
    have htype : shortRegistry.findHostType element = ⟨0⟩ := rfl
    rw [htype, shortRegistry_eq]
    simp only [Session.define, Session.registerChecked, Session.run_bind, Session.run_pure]
    cbv
  have hrun : (Session.registerArray element 3).run shortRegistry =
      (.ok ⟨1⟩, ((Session.registerArray element 3).run shortRegistry).2) := Prod.ext hok rfl
  obtain ⟨-, -, ⟨stored, hstored, hsize, -⟩, hnicheless⟩ :=
    array_means_every_element hr hfact rfl rfl (by decide) (by decide) (by decide) (by decide) hrun
  exact ⟨hr, hfact, rfl, rfl, by decide, by decide, by decide, by decide, _, _, hrun,
    ⟨stored, hstored, hsize⟩, hnicheless rfl⟩

end BitValidity
