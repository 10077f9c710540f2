import BitValidity.Proofs.Predicate.Equivalence
import BitValidity.Proofs.Registry.Permanence
import BitValidity.Proofs.Registry.Safety
import BitValidity.Proofs.Registry.Universes

/-!
# Tagged choices are not nicheless

No derivation takes a tagged choice to accept everything, whatever its tags and payloads are. Nor
does one overlook a choice inside a type: an aggregate is found to be nicheless by the proofs of its
fields, and what has no bytes has no room for a tag. So without assertions no proof is ever recorded
of a type with a choice in its predicate, however deep (`no_proof_of_choice`).
-/

namespace BitValidity

variable {κ : Type}

/-! ### Predicates -/

namespace Predicate

mutual

/-- The predicate is a tagged choice or has one in its parts. -/
def containsChoice : Predicate κ → Bool
  | allValid _ _ | noneValid _ _ | nonZero _ _ _ | intRanges _ _ _ _ | custom _ _ _ => false
  | allOf _ _ fields none => fieldsContainChoice fields
  | allOf _ _ fields (some invariant) =>
    fieldsContainChoice fields || invariant.containsChoice
  | oneOf _ _ _ _ _ _ => true
  | passthrough _ inner => inner.containsChoice

def fieldsContainChoice : List (FieldCheck (Predicate κ)) → Bool
  | [] => false
  | field :: rest => field.predicate.containsChoice || fieldsContainChoice rest

end

@[simp] lemma fieldsContainChoice_eq (fields : List (FieldCheck (Predicate κ))) :
    fieldsContainChoice fields = fields.any fun field => field.predicate.containsChoice := by
  induction fields with
  | nil => rfl
  | cons field rest ih => simp [fieldsContainChoice, ih]

lemma containsChoice_allOf_iff {size : UInt64} {d : String}
    {fields : List (FieldCheck (Predicate κ))} {invariant : Option (Predicate κ)} :
    (allOf size d fields invariant).containsChoice ↔
      (∃ field ∈ fields, field.predicate.containsChoice) ∨ ∃ p ∈ invariant, p.containsChoice := by
  cases invariant <;> simp [containsChoice]

/-- Nothing with a choice in it is taken to accept everything. -/
lemma admitsAll_of_containsChoice {p : Predicate κ} (h : p.containsChoice) :
    p.admitsAll = false := by
  induction p using Predicate.induct with
  | allOf size d fields invariant ihfields ihinvariant =>
    cases invariant with
    | none =>
      obtain ⟨field, hfield, h⟩ | ⟨_, ⟨⟩, -⟩ := containsChoice_allOf_iff.mp h
      rw [admitsAll, fieldsAdmitAll_eq, List.all_eq_false]
      exact ⟨field, hfield, by simp [ihfields field hfield h]⟩
    | some invariant => rfl
  | oneOf size d offset width signed variants ih => rfl
  | passthrough d inner ih => exact ih h
  | _ => cases h

/-- A well-formed choice has bytes, for there is a tag in it. -/
lemma size_pos_of_containsChoice {p : Predicate κ} (hwf : p.isWellFormed)
    (h : p.containsChoice) : 0 < p.size.toNat := by
  induction p using Predicate.induct with
  | allOf size d fields invariant ihfields ihinvariant =>
    obtain ⟨hfields, hinvariant⟩ := isWellFormed_allOf_iff.mp hwf
    obtain ⟨field, hfield, h⟩ | ⟨p, hp, h⟩ := containsChoice_allOf_iff.mp h
    · obtain ⟨hinside, hwf⟩ := hfields field hfield
      exact (ihfields field hfield hwf h).trans_le (le_of_add_le_right hinside)
    · obtain ⟨hsize, hwf⟩ := hinvariant p hp
      exact hsize ▸ ihinvariant p hp hwf h
  | oneOf size d offset width signed variants ih =>
    have hpos : 0 < width.bytes := by cases width <;> decide
    exact hpos.trans_le (le_of_add_le_right (isWellFormed_oneOf_iff.mp hwf).1)
  | passthrough d inner ih => exact ih hwf h
  | _ => cases h

@[simp] lemma containsChoice_anonymous (p : Predicate κ) :
    p.anonymous.containsChoice = p.containsChoice := by
  induction p using Predicate.induct with
  | allOf size d fields invariant ihfields ihinvariant =>
    have hfields : (anonymousFields fields).any (·.predicate.containsChoice) =
        fields.any (·.predicate.containsChoice) := by
      rw [anonymousFields_eq_map, List.any_map, Bool.eq_iff_iff, List.any_eq_true, List.any_eq_true]
      exact exists_congr fun field => and_congr_right fun hfield => by
        rw [Function.comp_apply, ihfields field hfield]
    cases invariant with
    | none => simpa only [anonymous, containsChoice, fieldsContainChoice_eq] using hfields
    | some invariant =>
      simp only [anonymous, containsChoice, fieldsContainChoice_eq, hfields,
        ihinvariant invariant rfl]
  | passthrough d inner ih => exact ih
  | _ => rfl

/-- Of equivalent predicates, both or neither have a choice in them. -/
lemma containsChoice_eq_of_equivalent [DecidableEq κ] {p q : Predicate κ}
    (h : p.equivalent q = true) : p.containsChoice = q.containsChoice := by
  rw [← containsChoice_anonymous p, equivalent_iff.mp h, containsChoice_anonymous]

variable [Check κ]

/-- Where some variant has the tag, the first that has it decides. -/
lemma findVariantViolation_of_covered {variants : List (VariantCheck (Predicate κ))}
    {width : IntWidth} {tag : UInt64} {unknown : Violation} {bytes : Bytes}
    (hcovered : ∃ variant ∈ variants, variant.tag &&& byteMask width.bytes = tag)
    (hpayloads : ∀ variant ∈ variants, variant.payload.Accepts bytes) :
    findVariantViolation variants width tag unknown bytes = .ok none := by
  induction variants with
  | nil => simp at hcovered
  | cons first rest ih =>
    obtain ⟨hfirst, hrest⟩ := List.forall_mem_cons.mp hpayloads
    rw [findVariantViolation]
    split
    · exact hfirst
    · rename_i hne
      obtain ⟨variant, hmem, htag⟩ := hcovered
      rcases List.mem_cons.mp hmem with rfl | hmem
      · exact absurd htag hne
      · exact ih ⟨variant, hmem, htag⟩ hrest

/-- A choice among all tags accepts everything if each of its payloads does. This does not show from
its shape. -/
theorem acceptsAll_oneOf {size : UInt64} {d : String} {offset : UInt64} {width : IntWidth}
    {signed : Bool} {variants : List (VariantCheck (Predicate κ))}
    (hwf : (oneOf size d offset width signed variants).isWellFormed)
    (hcovered : ∀ tag : UInt64, tag.toNat < 256 ^ width.bytes →
      ∃ variant ∈ variants, variant.tag &&& byteMask width.bytes = tag)
    (hpayloads : ∀ variant ∈ variants, variant.payload.AcceptsAll) :
    (oneOf size d offset width signed variants).AcceptsAll := by
  intro bytes hlen
  have hlen : bytes.length = size.toNat := hlen
  obtain ⟨hinside, hvariants⟩ := isWellFormed_oneOf_iff.mp hwf
  rw [Accepts, findViolation_oneOf hlen hinside]
  refine findVariantViolation_of_covered (hcovered _ (tagOf_lt (hlen ▸ hinside))) ?_
  intro variant hvariant
  exact hpayloads variant hvariant bytes (hlen.trans (by rw [(hvariants variant hvariant).1]))

end Predicate

variable [Check κ] {r r' : Registry κ}

/-- A choice that is the predicate of a type was not found to be nicheless. -/
def Registry.ChoicesUnproven (r : Registry κ) : Prop :=
  ∀ type fact, r.isNicheless type = true → r.fact? type = some fact →
    ¬ fact.validity.containsChoice

/-! ### Derivations -/

/-- What is derived from a fact alone is about a predicate without a choice. -/
lemma LayoutFact.not_containsChoice_of_deriveNicheless {fact : LayoutFact κ}
    {proof : NichelessProof} (hsize : fact.validity.size = fact.size)
    (hwf : fact.validity.isWellFormed) (h : fact.deriveNicheless = .ok proof) :
    ¬ fact.validity.containsChoice := by
  intro hchoice
  obtain ⟨-, ⟨hempty, -⟩ | ⟨-, hall, -⟩⟩ := deriveNicheless_eq_ok_iff.mp h
  · have hpos := Predicate.size_pos_of_containsChoice hwf hchoice
    rw [hsize, hempty] at hpos
    cases hpos
  · cases hall.symm.trans (Predicate.admitsAll_of_containsChoice hchoice)

namespace Aggregate

variable {a : Aggregate κ} {layout : AggregateLayout κ}

lemma not_containsChoice_of_checkFields (hr : r.Consistent) (hfacts : r.FactsWellFormed)
    (hproofs : r.ChoicesUnproven) {owner : String} {fields : List (PlacedField κ)}
    (hfields : ∀ p ∈ fields, r.fact? p.field.type = some p.fact)
    (h : checkFields r owner fields = .ok ()) :
    ∀ p ∈ fields, ¬ p.fact.validity.containsChoice := by
  intro p hp hchoice
  have hfact := hfields p hp
  have h := checkFields_eq_ok_iff.mp h p hp
  split at h
  · rename_i hempty
    have hpos := Predicate.size_pos_of_containsChoice (hfacts _ _ hfact) hchoice
    rw [hr.size_eq _ _ hfact, hempty] at hpos
    cases hpos
  · exact hproofs _ _ h hfact hchoice

/-- What is derived from the description of an aggregate is about a predicate without a choice, if
no choice among its fields was found to be nicheless. -/
lemma not_containsChoice_of_deriveNicheless (hr : r.Consistent) (hfacts : r.FactsWellFormed)
    (hproofs : r.ChoicesUnproven) {proof : NichelessProof} (hlayout : a.layout r = .ok layout)
    (h : a.deriveNicheless r = .ok proof) : ¬ layout.fact.validity.containsChoice := by
  obtain ⟨-, hinvariant, hcheck, -⟩ := (deriveNicheless_eq_ok_iff hlayout).mp h
  have hfields := not_containsChoice_of_checkFields hr hfacts hproofs
    (fact_eq_of_layout hlayout) hcheck
  rcases layout_eq_ok_iff.mp hlayout with ⟨-, hlayout⟩ | ⟨-, hlayout⟩
  · obtain ⟨fields, alignment, size, -, -, -, -, -, rfl⟩ := sequentialLayout_eq_ok_iff.mp hlayout
    intro hchoice
    obtain ⟨field, hfield, hchoice⟩ | ⟨p, hp, -⟩ := Predicate.containsChoice_allOf_iff.mp hchoice
    · obtain ⟨p, hp, rfl⟩ := List.mem_map.mp hfield
      exact hfields p hp hchoice
    · cases hinvariant ▸ hp
  · obtain ⟨fields, inner, markers, hplaced, -, rfl⟩ := transparentLayout_eq_ok_iff.mp hlayout
    obtain ⟨-, -, -, hinner, -⟩ := transparentFields_eq_ok_iff.mp hplaced
    dsimp only
    split
    · exact hfields inner (mem_of_filter_eq hinner).1
    · nofun

end Aggregate

/-! ### Steps -/

namespace Registry

variable [DecidableEq κ] {type : TypeId} {fact : LayoutFact κ} {proof : NichelessProof}

/-- When a type is defined, no proof is derived of it if there is a choice in its predicate. -/
lemma not_containsChoice_of_define (hr : r.Consistent) (hproofs : r.ChoicesUnproven)
    {description : Description κ} {draft : DraftFact κ} (hdraft : description.fact r = .ok draft)
    (hregister : r.register type draft = .ok r') (hfacts : r'.FactsWellFormed)
    (hnone : r.proof? type = none) (hfact : r'.fact? type = some fact)
    (h : description.deriveNicheless r' type = .ok proof) : ¬ fact.validity.containsChoice := by
  have hle := extends_of_register hregister
  have hr' := hr.register hregister
  obtain ⟨-, -, -, -, -, -, hsame, -⟩ := register_spec hregister
  -- the fact may have been there before the description, but then the two agree
  obtain ⟨validity, _, hvalidity, hknown, hagrees⟩ := agreesWith_of_register hregister
  obtain rfl := Option.some.inj (hknown.symm.trans hfact)
  have hchoice := Predicate.containsChoice_eq_of_equivalent (LayoutFact.agreesWith_iff.mp hagrees).2
  cases description with
  | leaf draft =>
    rw [Description.deriveNicheless, deriveNicheless_eq (hsame ▸ hnone) hfact] at h
    exact LayoutFact.not_containsChoice_of_deriveNicheless (hr'.size_eq _ _ hfact)
      (hfacts _ _ hfact) h
  | aggregate a =>
    obtain ⟨layout, hlayout, rfl⟩ := Description.fact_aggregate_eq_ok_iff.mp hdraft
    cases hvalidity
    rw [hchoice]
    refine a.not_containsChoice_of_deriveNicheless hr' hfacts ?_
      (Aggregate.layout_mono hle.fact hlayout) h
    intro type fact hnicheless hfact
    rw [isNicheless, hsame] at hnicheless
    exact hproofs type fact hnicheless (hr.fact_of_extends hle hnicheless hfact)
  | taggedUnion u => exact absurd h (u.deriveNicheless_ne_ok proof)
  | enumeration e =>
    obtain ⟨_, hlayoutFact, rfl⟩ := Description.fact_enumeration_eq_ok_iff.mp hdraft
    cases hvalidity
    rw [hchoice]
    intro hchoice
    obtain ⟨-, hall, -⟩ := (e.deriveNicheless_eq_ok_iff hlayoutFact).mp (liftM_error_eq_ok_iff.mp h)
    cases hall.symm.trans (Predicate.admitsAll_of_containsChoice hchoice)

/-- A step that asserts nothing leaves choices without proofs. -/
theorem Step.choicesUnproven {op : Operation κ} (hstep : Step r op r') (hr : r.Consistent)
    (hfacts : r.FactsWellFormed) (hfacts' : r'.FactsWellFormed) (hop : op.isAssertion = false)
    (h : r.ChoicesUnproven) : r'.ChoicesUnproven := by
  intro type fact hnicheless hfact
  obtain ⟨proof, hproof⟩ := Option.isSome_iff_exists.mp hnicheless
  rcases hstep.proof_cases hproof with hknown | ⟨hnone, hrecorded⟩
  · have hnicheless : r.isNicheless type = true := by simp [isNicheless, hknown]
    exact h type fact hnicheless (hr.fact_of_extends hstep.extends hnicheless hfact)
  · rcases hrecorded with ⟨justification, rfl, -⟩ | ⟨rfl, hderive, hsame⟩ |
      ⟨description, expected?, draft, s, rfl, hdraft, hregister, hderive, hsame⟩
    · cases hop
    · rw [hsame] at hfact
      rw [deriveNicheless_eq hnone hfact] at hderive
      exact LayoutFact.not_containsChoice_of_deriveNicheless (hr.size_eq _ _ hfact)
        (hfacts _ _ hfact) hderive
    · exact not_containsChoice_of_define hr h hdraft hregister (hfacts'.congr hsame.symm) hnone
        (hsame ▸ hfact) hderive

/-! ### Runs -/

theorem ReachableBy.choicesUnproven
    (hr : ReachableBy (fun r op => op.IsBounded r ∧ op.isAssertion = false) r) :
    r.FactsWellFormed ∧ r.ChoicesUnproven := by
  apply hr.invariant
  · intro options
    refine ⟨FactsSatisfy.empty options, ?_⟩
    intro type fact hnicheless hfact
    simp at hfact
  · rintro s op hs ⟨hbounded, hassertion⟩ hstep ⟨hfacts, ih⟩
    have hfacts' := hstep.factsWellFormed hs hfacts hbounded
    exact ⟨hfacts', hstep.choicesUnproven hs hfacts hfacts' hassertion ih⟩

/-- Whatever bounded run without assertions led to a registry: no proof is recorded of a type with a
tagged choice anywhere in its predicate, whatever the tags and payloads of the choice are. So the
type is a universe of no type, itself included, and listed as one of none. -/
theorem no_proof_of_choice
    (hr : ReachableBy (fun r op => op.IsBounded r ∧ op.isAssertion = false) r)
    (hfact : r.fact? type = some fact) (hchoice : fact.validity.containsChoice) :
    r.proof? type = none ∧
      ∀ target, r.isUniverse type target = false ∧ type ∉ r.universesOf target := by
  have hconsistent := ReachableBy.consistent hr
  have hnot : r.isNicheless type = false := by
    rw [Bool.eq_false_iff]
    intro hnicheless
    exact (ReachableBy.choicesUnproven hr).2 type fact hnicheless hfact hchoice
  refine ⟨proof?_eq_none_iff.mpr hnot, ?_⟩
  intro target
  have huniverse : r.isUniverse type target = false := by
    rw [Bool.eq_false_iff]
    intro huniverse
    cases (hconsistent.of_isUniverse huniverse).1.symm.trans hnot
  refine ⟨huniverse, ?_⟩
  rw [← hconsistent.isUniverse_iff_mem_universesOf, huniverse]
  nofun

/-- A choice among all bytes, none of which asks anything of the payload. -/
def anyByte : Predicate Empty :=
  .oneOf 1 "choice" 0 .one false
    ((List.range 256).map fun tag => ⟨UInt64.ofNat tag, .allValid 1 "payload", "variant"⟩)

/-- An aggregate of such a choice and a word. -/
def chosenWord : Aggregate Empty :=
  ⟨"record", .sequential, [⟨"choice", ⟨2⟩, none⟩, ⟨"word", ⟨0⟩, none⟩], none, none, none⟩

def chosenFact : LayoutFact Empty :=
  ⟨⟨16, 8⟩, "record", .allOf 16 "record" [⟨0, anyByte, "choice"⟩, ⟨8, .allValid 8 "word", "word"⟩]
    none⟩

/-- The registry of words and flags, with the choice. -/
def choiceRegistry : Registry Empty :=
  ((flagRegistry.after (.declareType "choice")).after
    (.register ⟨2⟩ ⟨⟨1, 1⟩, "choice", some anyByte⟩)).after (.declareType "record")

lemma isWellFormed_anyByte : anyByte.isWellFormed := by
  simp [anyByte, Predicate.isWellFormed, Predicate.size, IntWidth.bytes]

lemma acceptsAll_anyByte : anyByte.AcceptsAll := by
  refine Predicate.acceptsAll_oneOf isWellFormed_anyByte ?_ ?_
  · intro tag htag
    refine ⟨_, List.mem_map.mpr ⟨tag.toNat, List.mem_range.mpr htag, rfl⟩, ?_⟩
    rw [UInt64.ofNat_toNat, and_byteMask_of_lt htag]
  · refine List.forall_mem_map.mpr ?_
    intro tag _ bytes hlen
    exact Predicate.accepts_allValid_iff.mpr hlen

lemma choiceRegistry_eq :
    choiceRegistry = ⟨.standard, false,
      [⟨"word", some ⟨⟨8, 8⟩, "word", .allValid 8 "word"⟩, none⟩, ⟨"flag", some flagFact, none⟩,
        ⟨"choice", some ⟨⟨1, 1⟩, "choice", anyByte⟩, none⟩, ⟨"record", none, none⟩], [], []⟩ := rfl

/-- The registry in which the aggregate is defined too. -/
def chosenRegistry : Registry Empty :=
  choiceRegistry.after (.define ⟨3⟩ (.aggregate chosenWord) none)

set_option maxRecDepth 4000 in
lemma fact_chosenRegistry : chosenRegistry.fact? ⟨3⟩ = some chosenFact := by
  rw [chosenRegistry, choiceRegistry_eq]
  simp only [after, Operation.perform, Session.run_discard, Session.define,
    Session.registerChecked, Session.run_bind, Session.run_pure]
  cbv

set_option maxRecDepth 4000 in
lemma fits_chosenWord : chosenWord.fits choiceRegistry = true := by
  rw [choiceRegistry_eq]
  cbv

lemma reachable_chosenRegistry :
    ReachableBy (fun r op => op.IsBounded r ∧ op.isAssertion = false) chosenRegistry := by
  refine ⟨.standard, .step (.step (.step (.step (.step (.step (.step (.step .refl
    ⟨⟨?_, trivial⟩, rfl⟩) ⟨⟨?_, trivial⟩, rfl⟩) ⟨⟨?_, trivial⟩, rfl⟩) ⟨⟨?_, trivial⟩, rfl⟩)
    ⟨⟨?_, trivial⟩, rfl⟩) ⟨⟨?_, trivial⟩, rfl⟩) ⟨⟨?_, trivial⟩, rfl⟩)
    ⟨⟨?_, fun _ _ => fits_chosenWord⟩, rfl⟩⟩
  all_goals
    simp only [Operation.SuppliesWellFormed, Operation.supplied, LayoutFact.draft, flagFact,
      Description.supplied, chosenWord, Option.toList_some, Option.toList_none, List.mem_singleton,
      forall_eq, List.not_mem_nil, IsEmpty.forall_iff, implies_true]
  · rfl
  · rfl
  · exact isWellFormed_anyByte

/-- The choice leaves out no byte, and still the aggregate is not a universe of itself. -/
theorem no_proof_of_choice_chosenWord :
    ReachableBy (fun r op => op.IsBounded r ∧ op.isAssertion = false) chosenRegistry ∧
      chosenRegistry.fact? ⟨3⟩ = some chosenFact ∧ chosenFact.validity.containsChoice ∧
      anyByte.AcceptsAll ∧ chosenRegistry.isUniverse ⟨3⟩ ⟨3⟩ = false :=
  ⟨reachable_chosenRegistry, fact_chosenRegistry, rfl, acceptsAll_anyByte,
    ((no_proof_of_choice reachable_chosenRegistry fact_chosenRegistry rfl).2 ⟨3⟩).1⟩

end Registry

end BitValidity
