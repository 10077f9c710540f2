import BitValidity.Proofs.Layout.Enumerations
import BitValidity.Proofs.Layout.Meaning
import BitValidity.Proofs.Predicate.NoneValid

/-!
# Completeness of recorded proofs

Where types are built from plain leaves, enumerations and aggregates without invariants, a type that
accepts every bit pattern is found to be nicheless when it is defined. An aggregate of this kind can
accept everything only if each of its fields does, and those were found to be nicheless when they
were defined; so along a run no such type goes without a proof (`nicheless_of_accepts_all`).
-/

namespace BitValidity

variable {κ : Type} [Check κ] {r r' : Registry κ}

/-! ### Facts -/

lemma Predicate.AcceptsAll.hasValue {p : Predicate κ} (h : p.AcceptsAll) : p.HasValue :=
  ⟨List.replicate p.size.toNat 0, h _ List.length_replicate⟩

/-- Of plain leaves only that accepts everything which is seen to do so. -/
lemma Predicate.admitsAll_of_isPlainLeaf {p : Predicate κ} (hleaf : p.isPlainLeaf = true)
    (hall : p.AcceptsAll) : p.admitsAll = true := by
  cases p with
  | allValid size d => rfl
  | noneValid size d => cases hall.hasValue.admitsNone_eq
  | nonZero size d pointer =>
    obtain ⟨-, b, hb, hne⟩ :=
      accepts_nonZero_iff.mp (hall (List.replicate size.toNat 0) List.length_replicate)
    exact absurd (List.eq_of_mem_replicate hb) hne
  | _ => cases hleaf

namespace LayoutFact

variable {fact : LayoutFact κ}

lemma hasEmptyValue_of_acceptsAll (hsize : fact.validity.size = fact.size) (hempty : fact.size = 0)
    (hall : fact.validity.AcceptsAll) : fact.hasEmptyValue = .ok true := by
  have hnil : fact.validity.findViolation [] = .ok none := by
    apply hall
    rw [hsize, hempty]
    rfl
  rw [hasEmptyValue, if_pos hempty, hnil]
  rfl

lemma isUninhabited_of_acceptsAll (hsize : fact.validity.size = fact.size)
    (hall : fact.validity.AcceptsAll) : fact.isUninhabited = .ok false := by
  rw [isUninhabited, hall.hasValue.admitsNone_eq, if_neg Bool.false_ne_true]
  split
  · rename_i hempty
    rw [hasEmptyValue_of_acceptsAll hsize hempty hall]
    rfl
  · rfl

/-- Of a plain leaf that accepts everything it is derived that it is nicheless. -/
theorem exists_deriveNicheless (hsize : fact.validity.size = fact.size)
    (hleaf : fact.validity.isPlainLeaf = true) (hall : fact.validity.AcceptsAll) :
    ∃ proof, fact.deriveNicheless = .ok proof := by
  have hinhabited := isUninhabited_of_acceptsAll hsize hall
  have hadmits := Predicate.admitsAll_of_isPlainLeaf hleaf hall
  by_cases hempty : fact.size = 0
  · exact ⟨_, deriveNicheless_eq_ok_iff.mpr ⟨hinhabited, .inl ⟨hempty, rfl⟩⟩⟩
  · exact ⟨_, deriveNicheless_eq_ok_iff.mpr ⟨hinhabited, .inr ⟨hempty, hadmits, rfl⟩⟩⟩

end LayoutFact

/-! ### Aggregates -/

namespace Aggregate

variable {a : Aggregate κ} {layout : AggregateLayout κ}

/-- Any bytes of a field are those of the field in some bytes of the whole. -/
lemma acceptsAll_of_mem_fields (hr : r.Consistent) (hfits : a.fits r = true)
    (h : a.layout r = .ok layout) (hall : layout.fact.validity.AcceptsAll) :
    ∀ p ∈ layout.fields, p.fact.validity.AcceptsAll := by
  intro p hp part hpart
  rw [hr.size_eq _ _ (fact_eq_of_layout h p hp)] at hpart
  obtain ⟨bytes, hlen, rfl⟩ :=
    Predicate.exists_part_eq hpart (inside_of_layout hr hfits h p hp)
  exact ((accepts_layout_iff hr hfits h hlen).mp
    (hall bytes (size_of_layout hr h ▸ hlen))).1 p hp

/-- Of an aggregate without an invariant that accepts everything it is derived that it is nicheless,
where that is recorded of its fields. -/
theorem exists_deriveNicheless (hr : r.Consistent) (hinvariant : a.invariant? = none)
    (hfits : a.fits r = true) (h : a.layout r = .ok layout) (h' : a.layout r' = .ok layout)
    (hall : layout.fact.validity.AcceptsAll)
    (hproofs : ∀ p ∈ layout.fields, p.fact.validity.AcceptsAll →
      r'.isNicheless p.field.type = true) : ∃ proof, a.deriveNicheless r' = .ok proof := by
  have hfields := acceptsAll_of_mem_fields hr hfits h hall
  have hcheck : checkFields r' a.name layout.fields = .ok () := by
    apply checkFields_eq_ok_iff.mpr
    intro p hp
    split
    · rename_i hempty
      exact LayoutFact.hasEmptyValue_of_acceptsAll
        (hr.size_eq _ _ (fact_eq_of_layout h p hp)) hempty (hfields p hp)
    · exact hproofs p hp (hfields p hp)
  exact ⟨_, (deriveNicheless_eq_ok_iff h').mpr
    ⟨hall.hasValue.admitsNone_eq, hinvariant, hcheck, rfl⟩⟩

end Aggregate

/-! ### Registries -/

namespace Registry

/-- Every type that accepts every bit pattern is recorded as nicheless. -/
def ProofsComplete (r : Registry κ) : Prop :=
  ∀ type fact, r.fact? type = some fact → fact.validity.AcceptsAll → r.isNicheless type = true

variable [DecidableEq κ]

/-- When a type is defined plainly and then accepts every bit pattern, that it is nicheless is
derived. -/
lemma exists_deriveNicheless (hr : r.Consistent) (h : r.ProofsComplete) {type : TypeId}
    {description : Description κ} {draft : DraftFact κ} {validity : Predicate κ}
    (hbuilt : description.isBuiltOf Predicate.isPlainLeaf = true)
    (hunion : description.isTaggedUnion = false) (hfits : description.fits r = true)
    (hdraft : description.fact r = .ok draft) (hregister : r.register type draft = .ok r')
    (hvalidity : draft.validity? = some validity)
    (hfact : r'.fact? type = some (draft.toFact validity)) (hall : validity.AcceptsAll) :
    ∃ proof, description.deriveNicheless r' type = .ok proof := by
  have hle := extends_of_register hregister
  cases description with
  | leaf given =>
    cases hdraft
    have hleaf : validity.isPlainLeaf = true := by
      simpa [Description.isBuiltOf, hvalidity] using hbuilt
    obtain ⟨proof, hproof⟩ := LayoutFact.exists_deriveNicheless
      ((hr.register hregister).size_eq _ _ hfact) hleaf hall
    show ∃ proof, r'.deriveNicheless type = .ok proof
    rw [deriveNicheless]
    split
    · exact ⟨_, rfl⟩
    · rw [lookup_eq_ok_iff.mpr hfact]
      exact ⟨proof, hproof⟩
  | aggregate a =>
    obtain ⟨layout, hlayout, rfl⟩ := Description.fact_aggregate_eq_ok_iff.mp hdraft
    cases hvalidity
    apply a.exists_deriveNicheless hr (Option.isNone_iff_eq_none.mp hbuilt) hfits hlayout
      (Aggregate.layout_mono hle.fact hlayout) hall
    intro p hp hfield
    exact hle.isNicheless (h _ _ (Aggregate.fact_eq_of_layout hlayout p hp) hfield)
  | taggedUnion u => cases hunion
  | enumeration e =>
    obtain ⟨fact, hlayoutFact, rfl⟩ := Description.fact_enumeration_eq_ok_iff.mp hdraft
    cases hvalidity
    obtain ⟨proof, hproof⟩ := e.exists_deriveNicheless hlayoutFact hall
    exact ⟨proof, liftM_error_eq_ok_iff.mpr hproof⟩

/-- The proof that is derived when a type is defined is recorded, unless there is one already. -/
lemma proofsComplete_after (hr : r.Consistent) (h : r.ProofsComplete) {op : Operation κ}
    (hop : op.DefinesPlainly r) : (r.after op).ProofsComplete := by
  intro type fact hfact hall
  by_cases hknown : r.fact? type = some fact
  · exact (step_after r op).extends.isNicheless (h type fact hknown hall)
  rcases hop with hsame | ⟨type', description, expected?, rfl, hbuilt, hunion, hfits⟩
  · exact absurd (hsame ▸ hfact) hknown
  rw [after_define] at hfact ⊢
  rcases Session.run_define type' description expected? r with
    ⟨e, hrun⟩ | ⟨draft, _, s, hdraft, hregister, -, hrest⟩
  · rw [hrun] at hfact
    exact absurd hfact hknown
  · have hderives : s.fact? type = some fact →
        type' = type ∧ ∃ proof, description.deriveNicheless s type' = .ok proof := by
      intro hfact
      obtain rfl := eq_of_register hregister hknown hfact
      rcases fact_of_register hregister hfact with hold | ⟨validity, hvalidity, -, -, rfl⟩
      · exact absurd hold hknown
      · exact ⟨rfl, exists_deriveNicheless hr h hbuilt hunion (hfits draft hdraft) hdraft hregister
          hvalidity hfact hall⟩
    rcases hrest with ⟨proof, s', -, hrecord, hrun⟩ | ⟨e, hfail, hrun⟩ | ⟨b, hfail, hrun⟩ <;>
    rw [hrun] at hfact ⊢
    · obtain ⟨rfl, -⟩ := hderives ((recordProof_spec hrecord).2.1 ▸ hfact)
      exact isNicheless_of_recordProof hrecord
    · obtain ⟨-, proof, hderive⟩ := hderives hfact
      cases hderive.symm.trans hfail
    · obtain ⟨-, proof, hderive⟩ := hderives hfact
      cases hderive.symm.trans hfail

theorem ReachableBy.proofsComplete (hr : ReachableBy Operation.DefinesPlainly r) :
    r.ProofsComplete := by
  apply hr.invariant
  · intro options type fact h
    simp at h
  · intro s op hs hop _ ih
    exact proofsComplete_after hs ih hop

/-- Whatever run led to a registry, as long as its facts are of plain leaves, of enumerations, and
of aggregates without invariants that are placed without wrapping, each of which was defined: if
every byte string of the size of a type is a value, a proof is recorded that the type is nicheless.
-/
theorem nicheless_of_accepts_all (hr : ReachableBy Operation.DefinesPlainly r) {type : TypeId}
    {fact : LayoutFact κ} (hfact : r.fact? type = some fact)
    (hall : ∀ bytes : Bytes, bytes.length = fact.size.toNat →
      fact.validity.findViolation bytes = .ok none) : ∃ proof, r.proof? type = some proof := by
  apply Option.isSome_iff_exists.mp
  apply hr.proofsComplete type fact hfact
  intro bytes hlen
  rw [(ReachableBy.consistent hr).size_eq type fact hfact] at hlen
  exact hall bytes hlen

/-- Two words. -/
def wordPair : Aggregate Empty :=
  ⟨"pair", .sequential, [⟨"first", ⟨0⟩, none⟩, ⟨"second", ⟨0⟩, none⟩], none, none, none⟩

def wordPairFact : LayoutFact Empty :=
  ⟨⟨16, 8⟩, "pair", .allOf 16 "pair"
    [⟨0, .allValid 8 "word", "first"⟩, ⟨8, .allValid 8 "word", "second"⟩] none⟩

/-- A registry in which words and pairs of words are defined. -/
def wordPairRegistry : Registry Empty :=
  ((((Registry.empty .standard).after (.declareType "word")).after
    (.define ⟨0⟩ (.leaf ⟨⟨8, 8⟩, "word", some (.allValid 8 "word")⟩) none)).after
    (.declareType "pair")).after (.define ⟨1⟩ (.aggregate wordPair) none)

theorem nicheless_of_accepts_all_wordPair :
    ReachableBy Operation.DefinesPlainly wordPairRegistry ∧
      wordPairRegistry.fact? ⟨1⟩ = some wordPairFact ∧
      (∀ bytes : Bytes, bytes.length = wordPairFact.size.toNat →
        wordPairFact.validity.findViolation bytes = .ok none) ∧
      ∃ proof, wordPairRegistry.proof? ⟨1⟩ = some proof := by
  have hr : ReachableBy Operation.DefinesPlainly wordPairRegistry := by
    refine ⟨.standard, .step (.step (.step (.step .refl ?_) ?_) ?_) ?_⟩
    · exact .inl (fact?_allocate "word")
    · exact .inr ⟨_, _, _, rfl, rfl, rfl, fun _ _ => rfl⟩
    · exact .inl (fact?_allocate "pair")
    · exact .inr ⟨_, _, _, rfl, rfl, rfl, fun _ _ => rfl⟩
  have hfact : wordPairRegistry.fact? ⟨1⟩ = some wordPairFact := by
    simp only [wordPairRegistry, after, Operation.perform, Session.run_discard, Session.define,
      Session.registerChecked, Session.run_bind, Session.run_pure]
    cbv
  have hall : wordPairFact.validity.AcceptsAll := Predicate.acceptsAll_of_admitsAll rfl rfl
  exact ⟨hr, hfact, hall, nicheless_of_accepts_all hr hfact hall⟩

end Registry

end BitValidity
