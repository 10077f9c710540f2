import BitValidity.Proofs.Layout.Nicheless
import BitValidity.Proofs.Registry.Permanence
import BitValidity.Registry.Provenance

/-!
# Soundness of recorded proofs

Callers promise three things of the operations that they perform: what they supply is well-formed,
no sum wraps in what they describe, and what they assert is true. Along a run that keeps to this
every fact has a sound predicate, and every type that is recorded as nicheless accepts every bit
pattern of its size, on whichever way the proof was found. The fact of a type need not be the one
that its proof was derived for, but the two agree, and then they accept the same bytes.
-/

namespace BitValidity

variable {κ : Type} [Check κ]

namespace Registry

variable {r r' : Registry κ} {type : TypeId}

/-- What was registered, or was there before and agrees with it, accepts every bit pattern. -/
lemma acceptsAll_of_register [DecidableEq κ] {draft : DraftFact κ} {validity : Predicate κ}
    (h : r.register type draft = .ok r') (hvalidity : draft.validity? = some validity)
    (hall : validity.AcceptsAll) {fact : LayoutFact κ} (hfact : r'.fact? type = some fact) :
    fact.validity.AcceptsAll := by
  obtain ⟨validity', fact', hvalidity', hfact', hagrees⟩ := agreesWith_of_register h
  obtain rfl : validity = validity' := Option.some.inj (hvalidity.symm.trans hvalidity')
  obtain rfl : fact = fact' := Option.some.inj (hfact.symm.trans hfact')
  have hsize : fact.validity.size = validity.size :=
    Predicate.size_eq_of_equivalent (LayoutFact.agreesWith_iff.mp hagrees).2
  intro bytes hlen
  exact (LayoutFact.accepts_iff_of_agreesWith hagrees bytes).mpr (hall bytes (hsize ▸ hlen))

/-! ### Derivations -/

/-- Of those of the types that are recorded as nicheless, this is right. -/
def PremisesHold (r : Registry κ) (premises : List TypeId) : Prop :=
  ∀ premise ∈ premises, ∀ fact, r.isNicheless premise = true → r.fact? premise = some fact →
    fact.validity.AcceptsAll

/-- Where no proof is recorded, one is derived from the fact alone, and is right of it. -/
lemma acceptsAll_of_deriveNicheless (hr : r.Consistent) (hfacts : r.FactsSound)
    {proof : NichelessProof} (hold : r.isNicheless type = false)
    (hderive : r.deriveNicheless type = .ok proof) {fact : LayoutFact κ}
    (hfact : r.fact? type = some fact) : fact.validity.AcceptsAll := by
  rw [deriveNicheless_eq (proof?_eq_none_iff.mpr hold) hfact] at hderive
  exact fact.acceptsAll_of_deriveNicheless (hr.size_eq _ _ hfact) (hfacts _ _ hfact) hderive

/-- The first proof that is recorded of a type when it is defined is right of the fact that it then
has, if the proofs are right that were consulted. -/
lemma acceptsAll_of_define [DecidableEq κ] (hr : r.Consistent) (hfacts : r.FactsSound)
    {description : Description κ} {draft : DraftFact κ} {proof : NichelessProof}
    (hsupplied : ∀ p ∈ description.supplied, p.isSound = true)
    (hfits : description.fits r = true) (hdraft : description.fact r = .ok draft)
    (hregister : r.register type draft = .ok r') (hold : r.isNicheless type = false)
    (hproof : description.deriveNicheless r' type = .ok proof)
    (hpremises : r.PremisesHold (description.premises r)) {fact : LayoutFact κ}
    (hfact : r'.fact? type = some fact) : fact.validity.AcceptsAll := by
  have hle := extends_of_register hregister
  have hgood :=
    Description.good_of_fact Predicate.layoutClosed_isSound hr hfacts hsupplied hfits hdraft
  have hsame : r'.isNicheless = r.isNicheless := by
    obtain ⟨-, -, -, -, -, -, hsame, -⟩ := register_spec hregister
    funext other
    rw [isNicheless, isNicheless, hsame]
  cases description with
  | leaf draft =>
    exact acceptsAll_of_deriveNicheless (hr.register hregister)
      (FactsSatisfy.register hfacts hgood hregister) (hsame ▸ hold) hproof hfact
  | aggregate a =>
    obtain ⟨layout, hlayout, rfl⟩ := Description.fact_aggregate_eq_ok_iff.mp hdraft
    -- the proof is derived after the registration, when the layout is still the same
    have hlayout' := Aggregate.layout_mono hle.fact hlayout
    apply acceptsAll_of_register hregister rfl _ hfact
    apply a.acceptsAll_of_deriveNicheless (hr.register hregister) hlayout' (hgood _ rfl) _ hproof
    intro p hp hsize hnicheless
    have hknown := Aggregate.fact_eq_of_layout hlayout p hp
    refine hpremises p.field.type ?_ p.fact (hsame ▸ hnicheless) hknown
    have hfield := List.mem_map_of_mem (f := (·.type)) (Aggregate.field_mem_of_layout hlayout p hp)
    exact List.mem_filter.mpr ⟨hfield, by simpa [hknown] using hsize⟩
  | taggedUnion u => exact absurd hproof (u.deriveNicheless_ne_ok proof)
  | enumeration e =>
    obtain ⟨_, hlayoutFact, rfl⟩ := Description.fact_enumeration_eq_ok_iff.mp hdraft
    have hall := e.acceptsAll_of_deriveNicheless hlayoutFact (liftM_error_eq_ok_iff.mp hproof)
    exact acceptsAll_of_register hregister rfl hall hfact

/-! ### Steps -/

variable [DecidableEq κ]

/-- A step that makes a type nicheless asserts that it is, or derives it. What is derived is right
if the proofs are right that were consulted. -/
theorem Step.of_isNicheless {op : Operation κ} (hstep : Step r op r') (hr : r.Consistent)
    (hsound : r.FactsSound) (hop : op.IsCareful r) (hold : r.isNicheless type = false)
    (hnew : r'.isNicheless type = true) :
    (∃ justification, op = .assertNicheless type justification ∧
      (op.perform.run r).1 = .ok () ∧ r'.fact? = r.fact? ∧
        r'.proof? type = some (.asserted justification)) ∨
    op.provenType? = some type ∧ ∀ fact, r'.fact? type = some fact →
      r.PremisesHold (op.premises r) → fact.validity.AcceptsAll := by
  obtain ⟨proof, hproof⟩ := Option.isSome_iff_exists.mp hnew
  rcases hstep.proof_cases hproof with hknown | ⟨-, hrecorded⟩
  · rw [proof?_eq_none_iff.mpr hold] at hknown
    cases hknown
  · rcases hrecorded with ⟨justification, rfl, hok, rfl, hfacts⟩ | ⟨rfl, hderive, hfacts⟩ |
      ⟨description, expected?, draft, s, rfl, hdraft, hregister, hderive, hfacts⟩
    · exact .inl ⟨justification, rfl, hok, hfacts, hproof⟩
    · refine .inr ⟨rfl, fun fact hfact _ => ?_⟩
      exact acceptsAll_of_deriveNicheless hr hsound hold hderive (hfacts ▸ hfact)
    · refine .inr ⟨rfl, fun fact hfact hpremises => ?_⟩
      exact acceptsAll_of_define hr hsound hop.supplies (hop.fits _ hdraft) hdraft hregister hold
        hderive hpremises (hfacts ▸ hfact)

/-! ### Soundness -/

/-- Predicates are sound, and recorded proofs are right. -/
structure Sound (r : Registry κ) : Prop where
  facts : r.FactsSound
  proofs : r.ProofsSound

omit [DecidableEq κ] in
lemma Sound.empty (options : RegistryOptions) : (Registry.empty options : Registry κ).Sound where
  facts type fact h := by simp at h
  proofs type fact h := by simp [isNicheless] at h

/-- A step that keeps to what callers promise preserves soundness. -/
theorem Step.sound {op : Operation κ} (hstep : Step r op r') (hr : r.Consistent) (h : r.Sound)
    (hop : op.IsAdmissible r) : r'.Sound := by
  constructor
  · exact hstep.factsSatisfy Predicate.layoutClosed_isSound hr h.facts hop.supplies hop.fits
  · intro type fact hnicheless hfact
    cases hold : r.isNicheless type with
    | true => exact h.proofs type fact hold (hr.fact_of_extends hstep.extends hold hfact)
    | false =>
      rcases hstep.of_isNicheless hr h.facts ⟨hop.supplies, hop.fits⟩ hold hnicheless with
        ⟨justification, rfl, hok, hfacts, -⟩ | ⟨-, hright⟩
      · rw [hfacts] at hfact
        intro bytes hlen
        exact hop.asserts hok fact hfact bytes (hr.size_eq _ _ hfact ▸ hlen)
      · exact hright fact hfact fun premise _ => h.proofs premise

/-! ### Runs -/

theorem Leads.sound (hleads : Leads Operation.IsAdmissible r r') (hr : r.Consistent)
    (h : r.Sound) : r'.Consistent ∧ r'.Sound := by
  induction hleads with
  | refl => exact ⟨hr, h⟩
  | @step s op hleads hop ih =>
    obtain ⟨hr, h⟩ := ih
    have hstep := step_after s op
    exact ⟨hstep.consistent hr, hstep.sound hr h hop⟩

theorem ReachableBy.sound (hr : ReachableBy Operation.IsAdmissible r) : r.Sound := by
  obtain ⟨options, hleads⟩ := hr
  exact (hleads.sound (.empty options) (.empty options)).2

/-- Whatever run led to a registry, as long as it kept to what callers promise: a type of which it
is recorded that it is nicheless has a fact, and every byte string of its size passes the check. -/
theorem nicheless_accepts_every_pattern (hr : ReachableBy Operation.IsAdmissible r)
    {proof : NichelessProof} (hproof : r.proof? type = some proof) :
    ∃ fact, r.fact? type = some fact ∧
      ∀ bytes : Bytes, bytes.length = fact.size.toNat →
        fact.validity.findViolation bytes = .ok none := by
  have hnicheless : r.isNicheless type = true := by simp [isNicheless, hproof]
  obtain ⟨fact, hfact⟩ := ReachableBy.consistent hr |>.proven type hnicheless
  refine ⟨fact, hfact, ?_⟩
  intro bytes hlen
  rw [← (ReachableBy.consistent hr).size_eq type fact hfact] at hlen
  exact hr.sound.proofs type fact hnicheless hfact bytes hlen

/-- Words with an invariant that holds of all of them, which no derivation looks into. -/
def guardedWord : DraftFact Empty :=
  ⟨⟨8, 8⟩, "word", some (.allOf 8 "word" [] (some (.anyValue 8)))⟩

/-- A registry in which words are nicheless by assertion. -/
def assertedRegistry : Registry Empty :=
  (((Registry.empty .standard).after (.declareType "word")).after
    (.register ⟨0⟩ guardedWord)).after (.assertNicheless ⟨0⟩ "the invariant holds of every word")

lemma reachable_assertedRegistry : ReachableBy Operation.IsAdmissible assertedRegistry := by
  refine ⟨.standard, .step (.step (.step .refl ⟨?_, trivial, trivial⟩) ⟨?_, trivial, trivial⟩)
    ⟨?_, trivial, ?_⟩⟩
  · simp [Operation.SuppliesSound, Operation.supplied]
  · simp only [Operation.SuppliesSound, Operation.supplied, guardedWord, Option.toList_some,
      List.mem_singleton, forall_eq]
    rfl
  · simp [Operation.SuppliesSound, Operation.supplied]
  · rintro - fact ⟨⟩ bytes hlen
    have hany : (Predicate.anyValue 8 : Predicate Empty).Accepts bytes :=
      Predicate.accepts_allValid_iff.mpr hlen
    exact Predicate.accepts_allOf_iff.mpr ⟨hlen, by simp, by simpa using hany⟩

theorem nicheless_accepts_every_pattern_word :
    ReachableBy Operation.IsAdmissible assertedRegistry ∧
      assertedRegistry.proof? ⟨0⟩ = some (.asserted "the invariant holds of every word") ∧
      ∃ fact, assertedRegistry.fact? ⟨0⟩ = some fact ∧
        ∀ bytes : Bytes, bytes.length = fact.size.toNat →
          fact.validity.findViolation bytes = .ok none :=
  ⟨reachable_assertedRegistry, rfl,
    nicheless_accepts_every_pattern reachable_assertedRegistry rfl⟩

end Registry

end BitValidity
