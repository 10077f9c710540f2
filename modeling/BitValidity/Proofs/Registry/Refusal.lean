import BitValidity.Proofs.Layout.ImpossibleParts
import BitValidity.Proofs.Predicate.Equivalence
import BitValidity.Proofs.Registry.Permanence

/-!
# Refused proofs

No proof is derived of an aggregate with an impossible part, at any time after it is defined. But an
assertion is only refused if the part shows in the fact of the aggregate
(`refuses_iff_shows_impossible_part`): an invariant that accepts nothing, or an empty field that has
no value, does not show in a sequential aggregate that has bytes, and then a proof can be recorded
by the word of a caller.
-/

namespace BitValidity

variable {κ : Type} [Check κ]

/-! ### Facts -/

namespace LayoutFact

variable {fact : LayoutFact κ} {proof : NichelessProof}

/-- The proof is one that can be found of a type with the fact. -/
def Allows (fact : LayoutFact κ) : NichelessProof → Prop
  | .derived _ => ¬ fact.validity.HasImpossiblePart
  | .asserted _ => fact.isUninhabited = .ok false

lemma allows_of_deriveNicheless (h : fact.deriveNicheless = .ok proof) : fact.Allows proof := by
  obtain ⟨⟨rule, rfl⟩, hpart⟩ := not_hasImpossiblePart_of_deriveNicheless h
  exact hpart

variable [DecidableEq κ]

lemma hasImpossiblePart_iff_of_agreesWith {a b : LayoutFact κ} (h : a.agreesWith b = true) :
    a.validity.HasImpossiblePart ↔ b.validity.HasImpossiblePart :=
  Predicate.hasImpossiblePart_iff_of_equivalent (agreesWith_iff.mp h).2

/-- Of facts that agree, both or neither are seen to be uninhabited. -/
lemma isUninhabited_iff_of_agreesWith {a b : LayoutFact κ} (h : a.agreesWith b = true)
    (hpart : b.validity.HasImpossiblePart) :
    a.isUninhabited = .ok true ↔ b.isUninhabited = .ok true := by
  rw [isUninhabited_eq_true_iff ((hasImpossiblePart_iff_of_agreesWith h).mpr hpart),
    isUninhabited_eq_true_iff hpart]
  obtain ⟨hstorage, hequivalent⟩ := agreesWith_iff.mp h
  have hnone : a.validity.admitsNone = b.validity.admitsNone := by
    rw [← Predicate.admitsNone_anonymous, Predicate.equivalent_iff.mp hequivalent,
      Predicate.admitsNone_anonymous]
  rw [hnone, congrArg Storage.size hstorage]
  apply or_congr_right
  exact and_congr_right' (Predicate.exists_findViolation_iff_of_equivalent hequivalent [])

end LayoutFact

/-! ### Sessions -/

/-- What becomes of an assertion of a type with a fact is up to the fact, and then to whether a
proof can be recorded. -/
lemma Session.run_assertNicheless_of_fact {r : Registry κ} {type : TypeId} {fact : LayoutFact κ}
    (hfact : r.fact? type = some fact) (justification : String) :
    (Session.assertNicheless type justification).run r =
      match fact.checkAssertion justification with
      | .ok () => (recordProof type (.asserted justification)).run r
      | .error failure => (.error failure, r) := by
  rw [assertNicheless, run_bind, lookup, ask, run_read, Registry.lookup_eq_ok_iff.mpr hfact]
  show (read (fun _ => fact.checkAssertion justification) >>= fun _ =>
    recordProof type (.asserted justification)).run r = _
  rw [run_bind, run_read]
  cases fact.checkAssertion justification <;> rfl

namespace Registry

variable {r r' : Registry κ} {type : TypeId} {fact : LayoutFact κ} {proof : NichelessProof}

omit [Check κ] in
/-- A proof of a type with a fact is only refused by a registry that is frozen. -/
lemma kind_of_recordProof (hfact : r.fact? type = some fact) {e : Error}
    (h : r.recordProof type proof = .error e) : e.kind = .registryFrozen := by
  cases hfrozen : r.frozen with
  | true =>
    rw [recordProof, if_pos hfrozen] at h
    cases h
    rfl
  | false =>
    obtain ⟨r', hrecord⟩ := exists_recordProof hfrozen hfact proof
    cases hrecord.symm.trans h

/-! ### Recorded proofs -/

/-- Every recorded proof is one that the fact of its type allows. -/
def ProofsAllowed (r : Registry κ) : Prop :=
  ∀ type fact proof, r.fact? type = some fact → r.proof? type = some proof → fact.Allows proof

variable [DecidableEq κ]

/-- The first proof that is recorded of a type when it is defined is one that its fact allows. -/
lemma allows_of_define (hr : r.Consistent) {description : Description κ} {draft : DraftFact κ}
    (hdraft : description.fact r = .ok draft) (hregister : r.register type draft = .ok r')
    (hnone : r.proof? type = none) (hfact : r'.fact? type = some fact)
    (h : description.deriveNicheless r' type = .ok proof) : fact.Allows proof := by
  have hle := extends_of_register hregister
  -- the fact may have been there before the description, but then the two agree
  obtain ⟨validity, _, hvalidity, hknown, hagrees⟩ := agreesWith_of_register hregister
  obtain rfl := Option.some.inj (hknown.symm.trans hfact)
  have hpart := LayoutFact.hasImpossiblePart_iff_of_agreesWith hagrees
  cases description with
  | leaf draft =>
    obtain ⟨-, -, -, -, -, -, hsame, -⟩ := register_spec hregister
    have hnone : r'.proof? type = none := hsame ▸ hnone
    exact LayoutFact.allows_of_deriveNicheless (deriveNicheless_eq hnone hfact ▸ h)
  | aggregate a =>
    obtain ⟨layout, hlayout, rfl⟩ := Description.fact_aggregate_eq_ok_iff.mp hdraft
    cases hvalidity
    obtain ⟨⟨rule, rfl⟩, hnot⟩ := a.not_hasImpossiblePart_of_deriveNicheless
      (hr.register hregister) (Aggregate.layout_mono hle.fact hlayout) h
    exact hpart.not.mpr hnot
  | taggedUnion u => exact absurd h (u.deriveNicheless_ne_ok proof)
  | enumeration e =>
    obtain ⟨_, hlayoutFact, rfl⟩ := Description.fact_enumeration_eq_ok_iff.mp hdraft
    cases hvalidity
    obtain ⟨hsome, hall, rfl⟩ :=
      (e.deriveNicheless_eq_ok_iff hlayoutFact).mp (liftM_error_eq_ok_iff.mp h)
    exact hpart.not.mpr (Predicate.not_hasImpossiblePart_of_admitsAll hall hsome)

/-- A step records no proof but one that the fact allows. -/
theorem Step.proofsAllowed {op : Operation κ} (hstep : Step r op r') (hr : r.Consistent)
    (h : r.ProofsAllowed) : r'.ProofsAllowed := by
  intro type fact proof hfact hproof
  rcases hstep.proof_cases hproof with hknown | ⟨hnone, hrecorded⟩
  · have hnicheless : r.isNicheless type = true := by simp [isNicheless, hknown]
    exact h type fact proof (hr.fact_of_extends hstep.extends hnicheless hfact) hknown
  · rcases hrecorded with ⟨justification, rfl, hok, rfl, hfacts⟩ | ⟨rfl, hderive, hfacts⟩ |
      ⟨description, expected?, draft, s, rfl, hdraft, hregister, hderive, hfacts⟩
    · rw [hfacts] at hfact
      rw [Operation.perform, Session.run_assertNicheless_of_fact hfact] at hok
      cases hcheck : fact.checkAssertion justification with
      | ok _ => exact (LayoutFact.checkAssertion_eq_ok_iff.mp hcheck).2
      | error failure =>
        rw [hcheck] at hok
        cases hok
    · have hderive := deriveNicheless_eq hnone (hfacts ▸ hfact) ▸ hderive
      exact LayoutFact.allows_of_deriveNicheless hderive
    · exact allows_of_define hr hdraft hregister hnone (hfacts ▸ hfact) hderive

/-! ### Runs -/

variable {Allowed : Registry κ → Operation κ → Prop}

theorem ReachableBy.proofsAllowed (hr : ReachableBy Allowed r) : r.ProofsAllowed := by
  apply hr.invariant
  · intro options type fact proof hfact
    simp at hfact
  · intro s op hs _ hstep ih
    exact hstep.proofsAllowed hs ih

/-! ### Refusals -/

omit [DecidableEq κ] in
/-- No proof is recorded of the type, and none can be: it is not derived, and whatever reason is
given for it, it is not accepted. Nothing changes when this is tried. -/
structure Refuses (r : Registry κ) (type : TypeId) : Prop where
  unproven : r.proof? type = none
  derivation : ∃ e, (Session.proveNicheless type).run r = (.error (.error e), r) ∧
    e.kind = .notNicheless
  assertion : ∀ justification, ∃ e,
    (Session.assertNicheless type justification).run r = (.error (.error e), r) ∧
      e.kind = .notNicheless

omit [DecidableEq κ] in
/-- With a reason, an assertion is only answered like this if the type is seen to be uninhabited. -/
lemma isUninhabited_of_run_assertNicheless (hfact : r.fact? type = some fact)
    {justification : String} (hjustified : justification.isEmpty = false) {e : Error}
    (hkind : e.kind = .notNicheless)
    (h : (Session.assertNicheless type justification).run r = (.error (.error e), r)) :
    fact.isUninhabited = .ok true := by
  rw [Session.run_assertNicheless_of_fact hfact] at h
  cases hcheck : fact.checkAssertion justification with
  | error failure =>
    rw [hcheck] at h
    obtain rfl := Except.error.inj (congrArg Prod.fst h)
    exact LayoutFact.isUninhabited_of_checkAssertion hjustified hcheck
  | ok _ =>
    rw [hcheck, Session.recordProof, Session.run_update] at h
    cases hrecord : r.recordProof type (.asserted justification) with
    | ok r' =>
      rw [hrecord] at h
      cases congrArg Prod.fst h
    | error e' =>
      rw [hrecord] at h
      cases congrArg Prod.fst h
      cases (kind_of_recordProof hfact hrecord).symm.trans hkind

omit [DecidableEq κ] in
/-- No proof is recorded of what has an impossible part and is seen to be uninhabited. -/
lemma ProofsAllowed.proof?_eq_none (h : r.ProofsAllowed) (hfact : r.fact? type = some fact)
    (hpart : fact.validity.HasImpossiblePart) (huninhabited : fact.isUninhabited = .ok true) :
    r.proof? type = none := by
  cases hproof : r.proof? type with
  | none => rfl
  | some proof =>
    have hallowed := h type fact proof hfact hproof
    cases proof with
    | derived rule => exact absurd hpart hallowed
    | asserted justification => cases huninhabited.symm.trans hallowed

omit [DecidableEq κ] in
/-- Of a type whose fact has an impossible part, proofs are refused just where the fact is seen to
be uninhabited. -/
lemma refuses_iff_isUninhabited (h : r.ProofsAllowed) (hfact : r.fact? type = some fact)
    (hpart : fact.validity.HasImpossiblePart) :
    r.Refuses type ↔ fact.isUninhabited = .ok true := by
  constructor
  · intro hrefuses
    -- any reason will do
    obtain ⟨e, hrun, hkind⟩ := hrefuses.assertion "trusted"
    exact isUninhabited_of_run_assertNicheless hfact rfl hkind hrun
  · intro huninhabited
    have hnone := h.proof?_eq_none hfact hpart huninhabited
    refine ⟨hnone, ⟨.notNicheless fact.name .uninhabited, ?_, rfl⟩, ?_⟩
    · have hderive : r.deriveNicheless type =
          .error (.error (.notNicheless fact.name .uninhabited)) := by
        rw [deriveNicheless_eq hnone hfact]
        exact LayoutFact.deriveNicheless_of_isUninhabited huninhabited
      rw [Session.proveNicheless, Session.run_bind, Session.run_read, hderive]
    · intro justification
      obtain ⟨e, hcheck, hkind⟩ :=
        LayoutFact.checkAssertion_of_isUninhabited huninhabited justification
      refine ⟨e, ?_, hkind⟩
      rw [Session.run_assertNicheless_of_fact hfact, hcheck]

/-- The fact of a type that was defined as an aggregate, at any time after. -/
lemma exists_fact_of_define {a : Aggregate κ} {layout : AggregateLayout κ}
    {expected? : Option Storage} (hlayout : a.layout r = .ok layout)
    (hdefine : ((Operation.define type (.aggregate a) expected?).perform.run r).1 = .ok ())
    (hle : (r.after (.define type (.aggregate a) expected?)).Extends r') :
    ∃ fact, r'.fact? type = some fact ∧ fact.agreesWith layout.fact = true := by
  have hregistered : r.registered? (.define type (.aggregate a) expected?) =
      some (type, layout.fact.draft) := by
    rw [Operation.perform, Session.run_discard] at hdefine
    obtain ⟨answer, hok, -⟩ := map_eq_ok_iff.mp hdefine
    simp [registered?, hok, Except.isOk, Except.toBool, Description.fact, Aggregate.layoutFact,
      hlayout, Except.map, Except.toOption]
  obtain ⟨s, hregister, hle'⟩ := register_of_registered? hregistered
  obtain ⟨validity, fact, hvalidity, hfact, hagrees⟩ := agreesWith_of_register hregister
  cases hvalidity
  exact ⟨fact, (hle'.trans hle).fact type fact hfact, hagrees⟩

/-- Whatever led to a registry, when an aggregate with an impossible part is defined in it and at
any time after: if a proof is recorded of the type, it is one by assertion, and proofs of the type
are refused just if the impossible part shows in the fact of the aggregate. -/
theorem refuses_iff_shows_impossible_part (hr : r.Reachable) {a : Aggregate κ}
    {layout : AggregateLayout κ} {expected? : Option Storage} (hlayout : a.layout r = .ok layout)
    (hdefine : ((Operation.define type (.aggregate a) expected?).perform.run r).1 = .ok ())
    (hpart : a.HasImpossiblePart layout)
    (hleads : Leads (fun _ _ => True) (r.after (.define type (.aggregate a) expected?)) r') :
    (∀ proof, r'.proof? type = some proof → proof.origin = .asserted) ∧
      (r'.Refuses type ↔ a.ShowsImpossiblePart layout) := by
  have hconsistent := ReachableBy.consistent hr
  have hproofs : r'.ProofsAllowed := by
    obtain ⟨options, hr⟩ := hr
    exact ReachableBy.proofsAllowed ⟨options, (hr.step trivial).trans hleads⟩
  obtain ⟨fact, hfact, hagrees⟩ := exists_fact_of_define hlayout hdefine hleads.extends
  have hlayoutPart := a.hasImpossiblePart_of_layout hconsistent hlayout hpart
  have hfactPart := (LayoutFact.hasImpossiblePart_iff_of_agreesWith hagrees).mpr hlayoutPart
  constructor
  · intro proof hproof
    cases proof with
    | derived rule => exact absurd hfactPart (hproofs type fact _ hfact hproof)
    | asserted justification => rfl
  · rw [a.showsImpossiblePart_iff hconsistent hlayout hpart,
      ← LayoutFact.isUninhabited_iff_of_agreesWith hagrees hlayoutPart]
    exact refuses_iff_isUninhabited hproofs hfact hfactPart

/-- A predicate of types without bytes that holds of nothing, which is not seen from its shape. -/
def mark : Predicate Empty := .allOf 0 "mark" [] (some (.noneValid 0 "never"))

/-- A registry of bytes and of marks. -/
def markRegistry : Registry Empty :=
  (((((Registry.empty .standard).after (.declareType "byte")).after
    (.register ⟨0⟩ ⟨⟨1, 1⟩, "byte", some (.allValid 1 "byte")⟩)).after (.declareType "mark")).after
    (.register ⟨1⟩ ⟨⟨0, 1⟩, "mark", some mark⟩)).after (.declareType "record")

lemma reachable_markRegistry : markRegistry.Reachable :=
  ⟨.standard, .step (.step (.step (.step (.step .refl trivial) trivial) trivial) trivial) trivial⟩

/-- A byte with a mark. -/
def markedByte : Aggregate Empty :=
  ⟨"record", .transparent, [⟨"byte", ⟨0⟩, none⟩, ⟨"mark", ⟨1⟩, none⟩], none, none, none⟩

def markedLayout : AggregateLayout Empty :=
  ⟨[⟨⟨"byte", ⟨0⟩, none⟩, ⟨⟨1, 1⟩, "byte", .allValid 1 "byte"⟩, 0⟩,
      ⟨⟨"mark", ⟨1⟩, none⟩, ⟨⟨0, 1⟩, "mark", mark⟩, 0⟩],
    ⟨⟨1, 1⟩, "record", .noneValid 1 "record"⟩⟩

/-- The aggregate is transparent, so the mark is looked at, and every proof is refused. -/
theorem refuses_iff_shows_impossible_part_markedByte :
    markRegistry.Reachable ∧ markedByte.layout markRegistry = .ok markedLayout ∧
      ((Operation.define ⟨2⟩ (.aggregate markedByte) none).perform.run markRegistry).1 = .ok () ∧
      markedByte.HasImpossiblePart markedLayout ∧
      (markRegistry.after (.define ⟨2⟩ (.aggregate markedByte) none)).Refuses ⟨2⟩ := by
  have hlayout : markedByte.layout markRegistry = .ok markedLayout := rfl
  have hdefine : ((Operation.define ⟨2⟩ (.aggregate markedByte) none).perform.run
      markRegistry).1 = .ok () := rfl
  have hpart : markedByte.HasImpossiblePart markedLayout :=
    .inl ⟨_, List.mem_cons_of_mem _ (List.mem_singleton_self _), .inr ⟨rfl, _, rfl⟩⟩
  exact ⟨reachable_markRegistry, hlayout, hdefine, hpart,
    (refuses_iff_shows_impossible_part reachable_markRegistry hlayout hdefine hpart .refl).2.mpr
      (.inl rfl)⟩

/-- A byte with an invariant that never holds. -/
def forbiddenByte : Aggregate Empty :=
  ⟨"record", .sequential, [⟨"byte", ⟨0⟩, none⟩], none, none, some (.noneValid 1 "never")⟩

def forbiddenLayout : AggregateLayout Empty :=
  ⟨[⟨⟨"byte", ⟨0⟩, none⟩, ⟨⟨1, 1⟩, "byte", .allValid 1 "byte"⟩, 0⟩],
    ⟨⟨1, 1⟩, "record", .allOf 1 "record" [⟨0, .allValid 1 "byte", "byte"⟩]
      (some (.noneValid 1 "never"))⟩⟩

/-- The registry in which it is defined. -/
def forbiddenRegistry : Registry Empty :=
  { markRegistry with
    entries := markRegistry.entries.set 2 ⟨"record", some forbiddenLayout.fact, none⟩ }

/-- The invariant does not show, and a proof is recorded by the word of a caller. -/
theorem proof_of_forbiddenByte :
    markRegistry.Reachable ∧ forbiddenByte.layout markRegistry = .ok forbiddenLayout ∧
      ((Operation.define ⟨2⟩ (.aggregate forbiddenByte) none).perform.run markRegistry).1 =
        .ok () ∧
      forbiddenByte.HasImpossiblePart forbiddenLayout ∧
      ((markRegistry.after (.define ⟨2⟩ (.aggregate forbiddenByte) none)).after
        (.assertNicheless ⟨2⟩ "trusted")).proof? ⟨2⟩ = some (.asserted "trusted") := by
  have hdefine : (Operation.define ⟨2⟩ (.aggregate forbiddenByte) none).perform.run markRegistry =
      (.ok (), forbiddenRegistry) := by
    simp only [forbiddenRegistry, markRegistry, after, Operation.perform, Session.run_discard,
      Session.define, Session.registerChecked, Session.run_bind, Session.run_pure]
    cbv
  have hlayout : forbiddenByte.layout markRegistry = .ok forbiddenLayout := by
    simp only [markRegistry, after, Operation.perform, Session.run_discard]
    cbv
  have hafter : markRegistry.after (.define ⟨2⟩ (.aggregate forbiddenByte) none) =
      forbiddenRegistry := congrArg Prod.snd hdefine
  refine ⟨reachable_markRegistry, hlayout, congrArg Prod.fst hdefine, .inr ⟨_, rfl, rfl⟩, ?_⟩
  rw [hafter]
  rfl

end Registry

end BitValidity
