import BitValidity.Proofs.Layout.Containment
import BitValidity.Proofs.Layout.Discriminants
import BitValidity.Proofs.Predicate.AllValid

/-!
# Soundness of derivations

Where no sum wraps, the predicate of a derived layout is as good as the predicates that it is made
of: those of the fields, and what the description supplies. This holds of every condition on
predicates that the predicates of layouts are closed under, and so both of being well-formed and of
being sound, which is to be well-formed with ranges that fit.
-/

namespace BitValidity

variable {κ : Type} {r : Registry κ}

/-- The predicate of every fact is well-formed. -/
def Registry.FactsWellFormed (r : Registry κ) : Prop := r.FactsSatisfy Predicate.isWellFormed

/-- The predicate of every fact is sound. -/
def Registry.FactsSound (r : Registry κ) : Prop :=
  ∀ type fact, r.fact? type = some fact → fact.validity.isSound = true

/-! ### Conditions on predicates -/

namespace Predicate

/-- The condition holds of the predicate of a layout when it holds of the predicates of its parts,
and these lie inside the whole. -/
structure LayoutClosed (good : Predicate κ → Bool) : Prop where
  noneValid : ∀ size d, good (noneValid size d) = true
  intRanges : ∀ width signed ranges d, (∀ range ∈ ranges, range.fits width = true) →
    good (intRanges width signed ranges d) = true
  allOf : ∀ size d fields invariant,
    (∀ field ∈ fields, field.offset.toNat + field.predicate.size.toNat ≤ size.toNat ∧
      good field.predicate = true) →
    (∀ p ∈ invariant, p.size = size ∧ good p = true) → good (allOf size d fields invariant) = true
  oneOf : ∀ size d offset width signed variants,
    offset.toNat + IntWidth.bytes width ≤ size.toNat →
    (∀ variant ∈ variants, variant.payload.size = size ∧ good variant.payload = true) →
    good (oneOf size d offset width signed variants) = true
  passthrough : ∀ d inner, good inner = true → good (passthrough d inner) = true

lemma layoutClosed_isWellFormed : LayoutClosed (isWellFormed : Predicate κ → Bool) where
  noneValid _ _ := rfl
  intRanges _ _ _ _ _ := rfl
  allOf _ _ _ _ hfields hinvariant := isWellFormed_allOf_iff.mpr ⟨hfields, hinvariant⟩
  oneOf _ _ _ _ _ _ htag hvariants := isWellFormed_oneOf_iff.mpr ⟨htag, hvariants⟩
  passthrough _ _ hinner := hinner

lemma layoutClosed_isSound : LayoutClosed (isSound : Predicate κ → Bool) where
  noneValid _ _ := rfl
  intRanges _ _ _ _ hranges := isSound_intRanges_iff.mpr hranges
  allOf _ _ _ _ hfields hinvariant := isSound_allOf_iff.mpr ⟨hfields, hinvariant⟩
  oneOf _ _ _ _ _ _ htag hvariants := isSound_oneOf_iff.mpr ⟨htag, hvariants⟩
  passthrough _ _ hinner := hinner

end Predicate

variable {good : Predicate κ → Bool}

/-! ### Aggregates -/

lemma good_check {placed : List (PlacedField κ)} {total : UInt64} (hr : r.Consistent)
    (hfacts : r.FactsSatisfy good)
    (hplaced : ∀ p ∈ placed, r.fact? p.field.type = some p.fact)
    (hinside : ∀ p ∈ placed, p.offset.toNat + p.fact.size.toNat ≤ total.toNat) :
    ∀ field ∈ placed.map (·.check),
      field.offset.toNat + field.predicate.size.toNat ≤ total.toNat ∧
        good field.predicate = true := by
  refine List.forall_mem_map.mpr ?_
  intro p hp
  have hsize : p.fact.validity.size = p.fact.size := hr.size_eq _ _ (hplaced p hp)
  constructor
  · simpa [PlacedField.check, hsize] using hinside p hp
  · exact hfacts _ _ (hplaced p hp)

namespace Aggregate

variable {a : Aggregate κ} {layout : AggregateLayout κ}

lemma good_of_sequentialLayout (hgood : Predicate.LayoutClosed good) (hr : r.Consistent)
    (hfacts : r.FactsSatisfy good)
    (hsupplied : ∀ p ∈ a.invariant?, good p = true) (hrep : a.representation = .sequential)
    (hfits : a.fits r = true) (h : a.sequentialLayout r = .ok layout) :
    good layout.fact.validity = true := by
  have hinside := ((a.contained_iff_of_sequentialLayout hr hrep h).mpr hfits).inside
  obtain ⟨fields, alignment, size, hplaced, -, -, -, hinvariant, rfl⟩ :=
    sequentialLayout_eq_ok_iff.mp h
  rw [checkInvariant_eq_ok_iff] at hinvariant
  apply hgood.allOf
  · exact good_check hr hfacts (fun p hp => hplaced.fact_eq hp) hinside
  · intro p hp
    exact ⟨hinvariant p hp, hsupplied p hp⟩

lemma mem_of_filter_eq {fields : List (PlacedField κ)} {inner : PlacedField κ}
    (h : fields.filter (·.fact.size != 0) = [inner]) : inner ∈ fields ∧ inner.fact.size ≠ 0 := by
  have hmem : inner ∈ fields.filter (·.fact.size != 0) := h ▸ List.mem_singleton_self inner
  simpa using List.mem_filter.mp hmem

lemma eq_or_empty_of_filter_eq {fields : List (PlacedField κ)} {inner p : PlacedField κ}
    (h : fields.filter (·.fact.size != 0) = [inner]) (hp : p ∈ fields) :
    p = inner ∨ p.fact.size = 0 := by
  by_cases hempty : p.fact.size = 0
  · exact .inr hempty
  · have hmem : p ∈ fields.filter (·.fact.size != 0) :=
      List.mem_filter.mpr ⟨hp, by simpa using hempty⟩
    exact .inl (List.mem_singleton.mp (h ▸ hmem))

variable [Check κ]

lemma good_of_transparentLayout (hgood : Predicate.LayoutClosed good)
    (hfacts : r.FactsSatisfy good)
    (h : a.transparentLayout r = .ok layout) : good layout.fact.validity = true := by
  obtain ⟨fields, inner, markers, hfields, -, rfl⟩ := transparentLayout_eq_ok_iff.mp h
  obtain ⟨-, -, hfields, hinner, -⟩ := transparentFields_eq_ok_iff.mp hfields
  obtain ⟨field, -, hfield⟩ := exists_mem_left hfields (mem_of_filter_eq hinner).1
  dsimp only
  split
  · exact hgood.passthrough _ _ (hfacts _ _ hfield.fact_eq)
  · exact hgood.noneValid _ _

/-- The predicate of an aggregate is as good as those of its fields when these lie inside it. -/
theorem good_of_layout (hgood : Predicate.LayoutClosed good) (hr : r.Consistent)
    (hfacts : r.FactsSatisfy good)
    (hsupplied : ∀ p ∈ a.invariant?, good p = true) (hfits : a.fits r = true)
    (h : a.layout r = .ok layout) : good layout.fact.validity = true := by
  rcases layout_eq_ok_iff.mp h with ⟨hrep, h⟩ | ⟨-, h⟩
  · exact good_of_sequentialLayout hgood hr hfacts hsupplied hrep hfits h
  · exact good_of_transparentLayout hgood hfacts h

end Aggregate

/-! ### Tagged unions -/

theorem TaggedUnion.good_of_layout {u : TaggedUnion} {placed : List (List (PlacedField κ))}
    {fact : LayoutFact κ} (hgood : Predicate.LayoutClosed good) (hr : r.Consistent)
    (hfacts : r.FactsSatisfy good)
    (hfits : u.fits r = true) (h : u.layout r = .ok (placed, fact)) :
    good fact.validity = true := by
  obtain ⟨width, tags, payload, alignment, size, hderived, rfl⟩ := derived_of_layout h
  have hcontained := hderived.isContained_of_fits hr hfits
  refine hgood.oneOf _ _ _ _ _ _ (hderived.width_eq ▸ hcontained.tag) ?_
  refine List.forall_mem_map.mpr ?_
  rintro ⟨tag, variant, fields⟩ hmem
  refine ⟨rfl, ?_⟩
  have hzip : (variant, fields) ∈ u.variants.zip placed := (List.of_mem_zip hmem).2
  have hplaced := (List.forall₂_zip hderived.variants hzip).1
  have hinside := (hcontained.fields fields (List.of_mem_zip hzip).2).inside
  exact hgood.allOf _ _ _ _ (good_check hr hfacts (fun p hp => hplaced.fact_eq hp) hinside)
    (by simp)

/-! ### Enumerations -/

namespace IntRange

variable {width : IntWidth} {signed : Bool} {P : UInt64 → Prop}

lemma mem_gatherFrom {tags : List UInt64} {opened : IntRange}
    (hopened : P opened.first ∧ P opened.last) (htags : ∀ tag ∈ tags, P tag) :
    ∀ range ∈ gatherFrom width signed opened tags, P range.first ∧ P range.last := by
  induction tags generalizing opened with
  | nil => simpa [gatherFrom] using hopened
  | cons tag rest ih =>
    obtain ⟨htag, hrest⟩ := List.forall_mem_cons.mp htags
    rw [gatherFrom]
    split
    · exact ih ⟨hopened.1, htag⟩ hrest
    · exact List.forall_mem_cons.mpr ⟨hopened, ih ⟨htag, htag⟩ hrest⟩

/-- The ends of gathered ranges are among the tags. -/
lemma mem_gather {tags : List UInt64} (htags : ∀ tag ∈ tags, P tag) :
    ∀ range ∈ gather width signed tags, P range.first ∧ P range.last := by
  have hsorted : ∀ tag ∈ tags.mergeSort (tagLE width signed), P tag := by
    intro tag htag
    exact htags tag (List.mem_mergeSort.mp htag)
  simp only [gather]
  split
  · simp
  · rename_i tag rest heq
    obtain ⟨htag, hrest⟩ := List.forall_mem_cons.mp (heq ▸ hsorted)
    exact mem_gatherFrom ⟨htag, htag⟩ hrest

end IntRange

theorem Enumeration.good_of_layoutFact {e : Enumeration} {fact : LayoutFact κ}
    (hgood : Predicate.LayoutClosed good) (h : e.layoutFact = .ok fact) :
    good fact.validity = true := by
  obtain ⟨width, tags, -, hwidth, htags, rfl⟩ := layoutFact_eq_ok_iff.mp h
  have htagsFit := lt_of_resolveDiscriminants hwidth htags
  apply hgood.intRanges
  intro range hrange
  obtain ⟨hfirst, hlast⟩ :=
    IntRange.mem_gather (P := (·.toNat < 256 ^ width.bytes)) htagsFit range hrange
  simp [IntRange.fits, shiftLeft_bytes, hfirst, hlast]

/-! ### Descriptions -/

/-- The predicate of what is defined is as good as what is supplied if no sum wraps. -/
theorem Description.good_of_fact [Check κ] {description : Description κ} {draft : DraftFact κ}
    (hgood : Predicate.LayoutClosed good) (hr : r.Consistent)
    (hfacts : r.FactsSatisfy good)
    (hsupplied : ∀ p ∈ description.supplied, good p = true)
    (hfits : description.fits r = true) (h : description.fact r = .ok draft) :
    ∀ validity ∈ draft.validity?, good validity = true := by
  cases description with
  | leaf fact =>
    cases h
    intro validity hvalidity
    exact hsupplied validity (Option.mem_toList.mpr hvalidity)
  | aggregate a =>
    obtain ⟨layout, hlayout, rfl⟩ := fact_aggregate_eq_ok_iff.mp h
    have hinvariant : ∀ p ∈ a.invariant?, good p = true := by
      intro p hp
      exact hsupplied p (Option.mem_toList.mpr hp)
    rintro _ ⟨⟩
    exact a.good_of_layout hgood hr hfacts hinvariant hfits hlayout
  | taggedUnion u =>
    obtain ⟨fact, placed, hlayout, rfl⟩ := fact_taggedUnion_eq_ok_iff.mp h
    rintro _ ⟨⟩
    exact u.good_of_layout hgood hr hfacts hfits hlayout
  | enumeration e =>
    obtain ⟨fact, hfact, rfl⟩ := fact_enumeration_eq_ok_iff.mp h
    rintro _ ⟨⟩
    exact e.good_of_layoutFact hgood hfact

/-! ### Steps -/

/-- What an operation registers is as good as what it brings if no sum wraps. -/
lemma Operation.good_of_draft? [Check κ] {op : Operation κ} {draft : DraftFact κ}
    (hgood : Predicate.LayoutClosed good) (hr : r.Consistent) (hfacts : r.FactsSatisfy good)
    (hsupplied : ∀ p ∈ op.supplied, good p = true) (hfits : op.Fits r)
    (h : op.draft? r = some draft) : ∀ validity ∈ draft.validity?, good validity = true := by
  cases op with
  | register type given =>
    obtain rfl : given = draft := Option.some.inj h
    intro validity hvalidity
    exact hsupplied validity (Option.mem_toList.mpr hvalidity)
  | define type description expected? =>
    have hdraft : description.fact r = .ok draft := toOption_eq_some_iff.mp h
    exact Description.good_of_fact hgood hr hfacts hsupplied (hfits draft hdraft) hdraft
  | _ => cases h

/-- A step that brings good predicates and places without wrapping keeps every predicate good. -/
theorem Registry.Step.factsSatisfy [Check κ] [DecidableEq κ] {r' : Registry κ} {op : Operation κ}
    (hgood : Predicate.LayoutClosed good) (hstep : Step r op r') (hr : r.Consistent)
    (hfacts : r.FactsSatisfy good) (hsupplied : ∀ p ∈ op.supplied, good p = true)
    (hfits : op.Fits r) : r'.FactsSatisfy good := by
  intro type fact hfact
  rcases hstep.fact_cases hfact with hknown | ⟨draft, validity, hdraft, hvalidity, -, rfl⟩
  · exact hfacts type fact hknown
  · exact Operation.good_of_draft? hgood hr hfacts hsupplied hfits hdraft validity hvalidity

end BitValidity
