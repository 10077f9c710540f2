import BitValidity.Proofs.Layout.Enumerations
import BitValidity.Proofs.Layout.Variants
import BitValidity.Proofs.Predicate.NoneValid

/-!
# Types with a value

That a type has no value can be seen from the shape of its predicate, if that was derived: of a
composite without an invariant that is not taken to have none, a value can be put together out of
values of its fields. Written where they are placed, these do not get in each other's way, nor in
that of the tag. So for types that are built from plain leaves and from ranges that hold something,
`admitsNone` is exact (`admitsNone_iff_no_value`).
-/

namespace BitValidity

variable {κ : Type} {r : Registry κ}

/-! ### Bytes put together -/

namespace Predicate

/-- A part of the bytes can be replaced by any other, and the rest stays. -/
lemma exists_replaced {bytes part : Bytes} {offset size : UInt64}
    (hpart : part.length = size.toNat) (hle : offset.toNat + size.toNat ≤ bytes.length) :
    ∃ bytes' : Bytes, bytes'.length = bytes.length ∧ Predicate.part bytes' offset size = part ∧
      ∀ i, i < offset.toNat ∨ offset.toNat + size.toNat ≤ i → bytes'[i]? = bytes[i]? := by
  have hstart : (bytes.take offset.toNat).length = offset.toNat := by simp; omega
  refine ⟨bytes.take offset.toNat ++ part ++ bytes.drop (offset.toNat + size.toNat), ?_, ?_, ?_⟩
  · simp
    omega
  · rw [Predicate.part, List.append_assoc, List.drop_append, hstart]
    simp [← hpart]
  · rintro i (hi | hi)
    · rw [List.getElem?_append_left (by simp; omega), List.getElem?_append_left (by omega),
        List.getElem?_take, if_pos hi]
    · rw [List.getElem?_append_right (by simp; omega), List.getElem?_drop]
      congr 1
      simp
      omega

end Predicate

variable [Check κ]

/-- Values of fields that share no byte can be written into given bytes, and the bytes in no field
stay. -/
lemma exists_isValidIn {placed : List (PlacedField κ)} (base : Bytes)
    (hsize : ∀ p ∈ placed, p.fact.validity.size = p.fact.size)
    (hinside : ∀ p ∈ placed, p.offset.toNat + p.fact.size.toNat ≤ base.length)
    (hdisjoint : (placed.map (·.extent)).Pairwise Extent.Disjoint)
    (hvalue : ∀ p ∈ placed, p.fact.validity.HasValue) :
    ∃ bytes : Bytes, bytes.length = base.length ∧ (∀ p ∈ placed, p.IsValidIn bytes) ∧
      ∀ i, (∀ p ∈ placed, ¬ p.extent.Occupies i) → bytes[i]? = base[i]? := by
  induction placed with
  | nil => exact ⟨base, rfl, by simp, fun _ _ => rfl⟩
  | cons p rest ih =>
    obtain ⟨hpsize, hsize⟩ := List.forall_mem_cons.mp hsize
    obtain ⟨hpinside, hinside⟩ := List.forall_mem_cons.mp hinside
    obtain ⟨hpdisjoint, hdisjoint⟩ := List.pairwise_cons.mp hdisjoint
    obtain ⟨⟨part, hpart⟩, hvalue⟩ := List.forall_mem_cons.mp hvalue
    obtain ⟨bytes, hlen, hvalid, hkept⟩ := ih hsize hinside hdisjoint hvalue
    obtain ⟨bytes', hlen', hwritten, hkept'⟩ :=
      Predicate.exists_replaced (hpsize ▸ hpart.length_eq) (hlen ▸ hpinside)
    have hsame : ∀ i, ¬ p.extent.Occupies i → bytes'[i]? = bytes[i]? := by
      intro i hi
      apply hkept'
      by_contra hnot
      rw [not_or, not_lt, not_le] at hnot
      exact hi hnot
    refine ⟨bytes', hlen'.trans hlen, List.forall_mem_cons.mpr ⟨?_, ?_⟩, ?_⟩
    · rw [PlacedField.IsValidIn, hwritten]
      exact hpart
    · intro q hq
      refine (PlacedField.isValidIn_congr fun i hi => hsame i fun hp => ?_).mpr (hvalid q hq)
      exact hpdisjoint _ (List.mem_map_of_mem hq) i ⟨hp, hi⟩
    · intro i hi
      obtain ⟨hp, hi⟩ := List.forall_mem_cons.mp hi
      rw [hsame i hp, hkept i hi]

/-! ### Composites -/

/-- Every type that is not taken to have no value has one. -/
def Registry.FactsInhabited (r : Registry κ) : Prop :=
  ∀ type fact, r.fact? type = some fact → fact.validity.admitsNone = false → fact.validity.HasValue

omit [Check κ] in
/-- The predicate of placed fields is taken to accept nothing when that of one of them is. -/
lemma admitsNone_allOf_check {placed : List (PlacedField κ)} {size : UInt64} {d : String}
    {invariant : Option (Predicate κ)} :
    (Predicate.allOf size d (placed.map (·.check)) invariant).admitsNone = false ↔
      ∀ p ∈ placed, p.fact.validity.admitsNone = false := by
  simp [Predicate.admitsNone, PlacedField.check]

lemma Aggregate.hasValue_of_layout {a : Aggregate κ} {layout : AggregateLayout κ}
    (hr : r.Consistent) (hvalues : r.FactsInhabited) (hinvariant : a.invariant? = none)
    (hfits : a.fits r = true) (h : a.layout r = .ok layout)
    (hnone : layout.fact.validity.admitsNone = false) : layout.fact.validity.HasValue := by
  rcases layout_eq_ok_iff.mp h with ⟨hrep, hlayout⟩ | ⟨-, hlayout⟩
  · have hcontained := (a.contained_iff_of_sequentialLayout hr hrep hlayout).mpr hfits
    have hfacts := fact_eq_of_layout h
    have haccepts := fun (bytes : Bytes) (hlen : bytes.length = layout.fact.size.toNat) =>
      accepts_layout_iff hr hfits h hlen
    obtain ⟨fields, alignment, size, -, -, -, -, -, rfl⟩ := sequentialLayout_eq_ok_iff.mp hlayout
    have hnone := admitsNone_allOf_check.mp hnone
    obtain ⟨bytes, hlen, hvalid, -⟩ := exists_isValidIn (List.replicate size.toNat 0)
      (fun p hp => hr.size_eq _ _ (hfacts p hp))
      (fun p hp => by simpa using hcontained.inside p hp) hcontained.disjoint
      (fun p hp => hvalues _ _ (hfacts p hp) (hnone p hp))
    refine ⟨bytes, (haccepts bytes (by simpa using hlen)).mpr ⟨hvalid, ?_⟩⟩
    simp [hinvariant]
  · obtain ⟨fields, inner, markers, hfields, -, rfl⟩ := transparentLayout_eq_ok_iff.mp hlayout
    obtain ⟨-, -, hplaced, hinner, -⟩ := transparentFields_eq_ok_iff.mp hfields
    obtain ⟨field, -, hfield⟩ := exists_mem_left hplaced (mem_of_filter_eq hinner).1
    dsimp only at hnone ⊢
    split at hnone
    · rename_i hmarkers
      obtain ⟨bytes, hbytes⟩ := hvalues _ _ hfield.fact_eq hnone
      rw [if_pos hmarkers]
      exact ⟨bytes, Predicate.accepts_passthrough_iff.mpr hbytes⟩
    · cases hnone

lemma TaggedUnion.hasValue_of_layout {u : TaggedUnion} {placed : List (List (PlacedField κ))}
    {fact : LayoutFact κ} (hr : r.Consistent) (hvalues : r.FactsInhabited)
    (hfits : u.fits r = true) (h : u.layout r = .ok (placed, fact))
    (hnone : fact.validity.admitsNone = false) : fact.validity.HasValue := by
  obtain ⟨width, tags, payload, alignment, size, hderived, rfl⟩ := derived_of_layout h
  have hcontained := hderived.isContained_of_fits hr hfits
  simp only [Predicate.admitsNone, Predicate.variantsAdmitNone_eq, List.all_eq_false,
    variantChecks, List.mem_map, Prod.exists] at hnone
  obtain ⟨_, ⟨tag, variant, fields, hmem, rfl⟩, hnone⟩ := hnone
  obtain ⟨i, hi⟩ := List.mem_iff_getElem?.mp hmem
  obtain ⟨htag, hi⟩ := List.getElem?_zip_eq_some.mp hi
  obtain ⟨-, hfields⟩ := List.getElem?_zip_eq_some.mp hi
  have hmem := List.mem_of_getElem? hfields
  have hcontains := hcontained.fields fields hmem
  obtain ⟨_, -, hplaced, -⟩ := exists_mem_left hderived.variants hmem
  have hnone := admitsNone_allOf_check.mp (Bool.not_eq_true _ ▸ hnone)
  -- the tag is written first, and no field is where the tag is
  have hencoded : (LittleEndian.encode u.tag.width.toNat tag.toNat).length =
      u.tag.width.toUInt64.toNat := by simp
  have hinside : u.tag.offset.toNat + u.tag.width.toUInt64.toNat ≤ size.toNat := by
    simpa using hcontained.tag
  obtain ⟨base, hbase, hwritten⟩ := Predicate.exists_part_eq hencoded hinside
  obtain ⟨bytes, hlen, hvalid, hkept⟩ := exists_isValidIn base
    (fun p hp => hr.size_eq _ _ (hplaced.fact_eq hp)) (hbase ▸ hcontains.inside)
    hcontains.disjoint (fun p hp => hvalues _ _ (hplaced.fact_eq hp) (hnone p hp))
  have hlen := hlen.trans hbase
  have htagBytes : u.tagBytes bytes = LittleEndian.encode u.tag.width.toNat tag.toNat := by
    rw [← hwritten]
    apply Predicate.part_congr
    intro i hle hlt
    apply hkept
    intro p hp hi
    exact hcontained.disjoint fields hmem p hp i ⟨hi, hle, hlt⟩
  have hhas : u.HasTag bytes i := by
    have hlt := lt_of_resolveDiscriminants (Tag.checkedWidth_eq_ok_iff.mpr hderived.width_eq)
      hderived.tags_eq tag (List.mem_of_getElem? htag)
    rw [hderived.hasTag_iff (hlen ▸ hcontained.tag), hderived.tagOf_eq, htagBytes, htag,
      LittleEndian.decode_encode, hderived.width_eq, shiftLeft_bytes, Nat.mod_eq_of_lt hlt,
      UInt64.ofNat_toNat]
  obtain ⟨fields', hfields', haccepts⟩ :=
    hderived.accepts_iff_of_hasTag hr hcontained hlen hhas
  obtain rfl : fields = fields' := Option.some.inj (hfields.symm.trans hfields')
  exact ⟨bytes, haccepts.mpr hvalid⟩

/-! ### Leaves and enumerations -/

/-- A leaf with ordered ranges that is not taken to accept nothing accepts something. -/
lemma Predicate.hasValue_of_isOrderedLeaf {p : Predicate κ} (h : p.isOrderedLeaf = true)
    (hnone : p.admitsNone = false) : p.HasValue := by
  cases p with
  | allValid size d =>
    exact ⟨List.replicate size.toNat 0, accepts_allValid_iff.mpr List.length_replicate⟩
  | noneValid size d => cases hnone
  | nonZero size d pointer =>
    have hpos : size.toNat ≠ 0 := by
      intro hzero
      obtain rfl : size = 0 := UInt64.toNat_inj.mp hzero
      cases hnone
    exact ⟨List.replicate size.toNat 1, accepts_nonZero_iff.mpr
      ⟨List.length_replicate, 1, List.mem_replicate.mpr ⟨hpos, rfl⟩, by decide⟩⟩
  | intRanges width signed ranges d =>
    obtain ⟨r, hr⟩ := List.isEmpty_eq_false_iff_exists_mem.mp hnone
    have hordered := List.all_eq_true.mp h r hr
    simp only [Bool.and_eq_true, IntRange.fits, shiftLeft_bytes, decide_eq_true_eq] at hordered
    obtain ⟨⟨hfirst, hlast⟩, hle⟩ := hordered
    refine ⟨LittleEndian.encode width.bytes r.first.toNat,
      accepts_intRanges_iff.mpr ⟨by simp, r, hr, ?_⟩⟩
    rw [LittleEndian.decode_encode, shiftLeft_bytes, Nat.mod_eq_of_lt hfirst, UInt64.ofNat_toNat]
    exact IntRange.contains_iff.mpr ⟨le_rfl, (IntRange.tagLE_iff hfirst hlast).mp hle⟩
  | custom size d check => cases h
  | allOf size d fields invariant => cases h
  | oneOf size d offset width signed variants => cases h
  | passthrough d inner => cases h

omit [Check κ] in
/-- The ranges of an enumeration are ordered. -/
lemma Enumeration.isOrderedLeaf_of_layoutFact {e : Enumeration} {fact : LayoutFact κ}
    (h : e.layoutFact = .ok fact) : fact.validity.isOrderedLeaf = true := by
  obtain ⟨width, tags, -, hwidth, htags, rfl⟩ := layoutFact_eq_ok_iff.mp h
  have htagsFit := lt_of_resolveDiscriminants hwidth htags
  apply List.all_eq_true.mpr
  intro range hrange
  obtain ⟨hfirst, hlast⟩ :=
    IntRange.mem_gather (P := (·.toNat < 256 ^ width.bytes)) htagsFit range hrange
  simp [IntRange.fits, shiftLeft_bytes, hfirst, hlast, IntRange.tagLE_of_mem_gather range hrange]

/-! ### Operations -/

/-- What an operation brings has a value, unless it is taken to have none. -/
lemma Operation.hasValue_of_draft? {op : Operation κ} {draft : DraftFact κ} (hr : r.Consistent)
    (hvalues : r.FactsInhabited) (hop : op.isBuiltOf Predicate.isOrderedLeaf = true)
    (hfits : op.Fits r) (h : op.draft? r = some draft) {validity : Predicate κ}
    (hvalidity : draft.validity? = some validity) (hnone : validity.admitsNone = false) :
    validity.HasValue := by
  have hleaf : ∀ {draft : DraftFact κ}, draft.validity? = some validity →
      draft.validity?.all Predicate.isOrderedLeaf = true → validity.HasValue := by
    intro draft hvalidity hordered
    rw [hvalidity] at hordered
    exact Predicate.hasValue_of_isOrderedLeaf hordered hnone
  cases op with
  | register type given =>
    obtain rfl : given = draft := Option.some.inj h
    exact hleaf hvalidity hop
  | define type description expected? =>
    have hdraft : description.fact r = .ok draft := toOption_eq_some_iff.mp h
    have hfits := hfits draft hdraft
    cases description with
    | leaf given =>
      cases hdraft
      exact hleaf hvalidity hop
    | aggregate a =>
      obtain ⟨layout, hlayout, rfl⟩ := Description.fact_aggregate_eq_ok_iff.mp hdraft
      cases hvalidity
      exact a.hasValue_of_layout hr hvalues (Option.isNone_iff_eq_none.mp hop) hfits hlayout hnone
    | taggedUnion u =>
      obtain ⟨fact, placed, hlayout, rfl⟩ := Description.fact_taggedUnion_eq_ok_iff.mp hdraft
      cases hvalidity
      exact u.hasValue_of_layout hr hvalues hfits hlayout hnone
    | enumeration e =>
      obtain ⟨fact, hfact, rfl⟩ := Description.fact_enumeration_eq_ok_iff.mp hdraft
      cases hvalidity
      exact Predicate.hasValue_of_isOrderedLeaf (e.isOrderedLeaf_of_layoutFact hfact) hnone
  | _ => cases h

namespace Registry

variable [DecidableEq κ]

lemma factsInhabited_after (hr : r.Consistent) (h : r.FactsInhabited) {op : Operation κ}
    (hop : op.BringsBuiltOf Predicate.isOrderedLeaf r) : (r.after op).FactsInhabited := by
  intro type fact hfact hnone
  rcases hop with hsame | ⟨hbuilt, hfits⟩
  · exact h type fact (hsame ▸ hfact) hnone
  · rcases (step_after r op).fact_cases hfact with
      hknown | ⟨draft, validity, hdraft, hvalidity, -, rfl⟩
    · exact h type fact hknown hnone
    · exact op.hasValue_of_draft? hr h hbuilt hfits hdraft hvalidity hnone

theorem ReachableBy.factsInhabited
    (hr : ReachableBy (Operation.BringsBuiltOf Predicate.isOrderedLeaf) r) : r.FactsInhabited := by
  apply hr.invariant
  · intro options type fact h
    simp at h
  · intro s op hs hop _ ih
    exact factsInhabited_after hs ih hop

/-- Whatever run led to a registry, as long as its facts are of plain leaves, of leaves with ordered
ranges, and of composites without invariants that are placed without wrapping: a type is taken to
have no value exactly when no byte string of its size is one. -/
theorem admitsNone_iff_no_value
    (hr : ReachableBy (Operation.BringsBuiltOf Predicate.isOrderedLeaf) r) {type : TypeId}
    {fact : LayoutFact κ} (hfact : r.fact? type = some fact) :
    fact.validity.admitsNone = true ↔
      ∀ bytes : Bytes, bytes.length = fact.size.toNat →
        fact.validity.findViolation bytes ≠ .ok none := by
  constructor
  · intro hnone bytes _
    exact Predicate.not_accepts_of_admitsNone hnone
  · intro hrejects
    by_contra hsome
    obtain ⟨bytes, hbytes⟩ := hr.factsInhabited type fact hfact (Bool.not_eq_true _ ▸ hsome)
    have hlen := hbytes.length_eq
    rw [(ReachableBy.consistent hr).size_eq type fact hfact] at hlen
    exact hrejects bytes hlen hbytes

/-- A type without bytes and without values. -/
def neverFact : LayoutFact Empty := ⟨⟨0, 1⟩, "never", .nonZero 0 "never" false⟩

/-- A word beside a field of that type. -/
def neverRecord : Aggregate Empty :=
  ⟨"record", .sequential, [⟨"word", ⟨0⟩, none⟩, ⟨"never", ⟨1⟩, none⟩], none, none, none⟩

def neverRecordFact : LayoutFact Empty :=
  ⟨⟨8, 8⟩, "record", .allOf 8 "record"
    [⟨0, .allValid 8 "word", "word"⟩, ⟨8, neverFact.validity, "never"⟩] none⟩

def neverRegistry : Registry Empty :=
  (((wordRegistry.after (.declareType "never")).after (.register ⟨1⟩ neverFact.draft)).after
    (.declareType "record")).after (.define ⟨2⟩ (.aggregate neverRecord) none)

theorem admitsNone_iff_no_value_record :
    ReachableBy (Operation.BringsBuiltOf Predicate.isOrderedLeaf) neverRegistry ∧
      neverRegistry.fact? ⟨2⟩ = some neverRecordFact ∧
      (neverRecordFact.validity.admitsNone = true ↔
        ∀ bytes : Bytes, bytes.length = neverRecordFact.size.toNat →
          neverRecordFact.validity.findViolation bytes ≠ .ok none) := by
  have hr : ReachableBy (Operation.BringsBuiltOf Predicate.isOrderedLeaf) neverRegistry :=
    ⟨.standard, .step (.step (.step (.step (.step (.step .refl (.inr ⟨rfl, trivial⟩))
      (.inr ⟨rfl, trivial⟩)) (.inr ⟨rfl, trivial⟩)) (.inr ⟨rfl, trivial⟩)) (.inr ⟨rfl, trivial⟩))
      (.inr ⟨rfl, fun _ _ => rfl⟩)⟩
  have hfact : neverRegistry.fact? ⟨2⟩ = some neverRecordFact := by
    simp only [neverRegistry, wordRegistry, after, Operation.perform, Session.run_discard,
      Session.define, Session.registerChecked, Session.run_bind, Session.run_pure]
    cbv
  exact ⟨hr, hfact, admitsNone_iff_no_value hr hfact⟩

end Registry

end BitValidity
