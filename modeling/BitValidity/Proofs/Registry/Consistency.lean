import BitValidity.Proofs.Registry.Step

/-!
# Consistency of reachable registries

Along a run of operations a registry only grows (`Leads.extends`), and what it holds stays in order:
facts passed the tests of their registration, proofs are of types with facts, and the declared
universes are nicheless and have the storage of their types (`ReachableBy.consistent`). Nothing is
assumed of the operations. What more is asked of the predicates of facts (`FactsSatisfy`) is up to
those who register them.
-/

namespace BitValidity

variable {κ : Type}

/-- The draft that an operation puts forward, if it has one. -/
def Operation.draft? [Check κ] (r : Registry κ) : Operation κ → Option (DraftFact κ)
  | register _ draft => some draft
  | define _ description _ => (description.fact r).toOption
  | _ => none

namespace Registry

variable {r r' : Registry κ}

/-! ### Consistency -/

/-- What holds of every registry, whatever it was given. -/
structure Consistent (r : Registry κ) : Prop where
  size_eq : ∀ type fact, r.fact? type = some fact → fact.validity.size = fact.size
  aligned : ∀ type fact, r.fact? type = some fact → isPowerOfTwo fact.alignment = true
  proven : ∀ type, r.isNicheless type = true → ∃ fact, r.fact? type = some fact
  universes : ∀ p ∈ r.universes, r.isNicheless p.1 = true ∧
    ∃ u t, r.fact? p.1 = some u ∧ r.fact? p.2 = some t ∧ u.toStorage = t.toStorage

namespace Consistent

lemma empty (options : RegistryOptions) : (Registry.empty options : Registry κ).Consistent where
  size_eq type fact h := by simp at h
  aligned type fact h := by simp at h
  proven type h := by simp [isNicheless] at h
  universes p h := by simp [Registry.empty] at h

lemma congr (h : r.Consistent) (hfact : r'.fact? = r.fact?) (hproof : r'.proof? = r.proof?)
    (huniverses : r'.universes = r.universes) : r'.Consistent where
  size_eq := hfact ▸ h.size_eq
  aligned := hfact ▸ h.aligned
  proven type hnicheless := by
    simp only [isNicheless, hfact, hproof] at hnicheless ⊢
    exact h.proven type hnicheless
  universes := by
    simp only [isNicheless, hfact, hproof, huniverses]
    exact h.universes

/-- Declared universes stay in order when the registry grows. -/
lemma universes_of_extends (h : r.Consistent) (hle : r.Extends r') {p : TypeId × TypeId}
    (hp : p ∈ r.universes) : r'.isNicheless p.1 = true ∧
      ∃ u t, r'.fact? p.1 = some u ∧ r'.fact? p.2 = some t ∧ u.toStorage = t.toStorage := by
  obtain ⟨hnicheless, u, t, hu, ht, hstorage⟩ := h.universes p hp
  exact ⟨hle.isNicheless hnicheless, u, t, hle.fact _ _ hu, hle.fact _ _ ht, hstorage⟩

/-- A universe of a type is nicheless and has the storage of the type, whether it was declared or is
the type itself. -/
lemma of_isUniverse (h : r.Consistent) {source target : TypeId}
    (huniverse : r.isUniverse source target = true) : r.isNicheless source = true ∧
      ∃ u t, r.fact? source = some u ∧ r.fact? target = some t ∧ u.toStorage = t.toStorage := by
  simp only [isUniverse, Bool.or_eq_true, Bool.and_eq_true, beq_iff_eq,
    List.contains_iff_mem] at huniverse
  rcases huniverse with ⟨rfl, hnicheless⟩ | hmem
  · obtain ⟨fact, hfact⟩ := h.proven source hnicheless
    exact ⟨hnicheless, fact, fact, hfact, hfact, rfl⟩
  · exact h.universes _ hmem

/-- When the registry grows, a nicheless type has the fact that it had. -/
lemma fact_of_extends (h : r.Consistent) (hle : r.Extends r') {type : TypeId}
    (hnicheless : r.isNicheless type = true) {fact : LayoutFact κ}
    (hfact : r'.fact? type = some fact) : r.fact? type = some fact := by
  obtain ⟨known, hknown⟩ := h.proven type hnicheless
  have hkept := hle.fact type known hknown
  obtain rfl : known = fact := Option.some.inj (hkept.symm.trans hfact)
  exact hknown

lemma register [DecidableEq κ] (h : r.Consistent) {type : TypeId} {draft : DraftFact κ}
    (hregister : r.register type draft = .ok r') : r'.Consistent := by
  have hle := extends_of_register hregister
  obtain ⟨-, -, -, -, -, -, hproof, -, huniverses⟩ := register_spec hregister
  constructor
  · intro other fact hother
    rcases fact_of_register hregister hother with hknown | ⟨validity, -, hsize, -, rfl⟩
    · exact h.size_eq other fact hknown
    · exact hsize
  · intro other fact hother
    rcases fact_of_register hregister hother with hknown | ⟨validity, -, -, halignment, rfl⟩
    · exact h.aligned other fact hknown
    · exact halignment
  · intro other hnicheless
    rw [isNicheless, hproof] at hnicheless
    obtain ⟨fact, hother⟩ := h.proven other hnicheless
    exact ⟨fact, hle.fact other fact hother⟩
  · intro p hp
    exact h.universes_of_extends hle (huniverses ▸ hp)

lemma recordProof (h : r.Consistent) {type : TypeId} {proof : NichelessProof}
    (hrecord : r.recordProof type proof = .ok r') : r'.Consistent := by
  have hle := extends_of_recordProof hrecord
  obtain ⟨hknown, hfact, hproof, -, huniverses⟩ := recordProof_spec hrecord
  refine ⟨hfact ▸ h.size_eq, hfact ▸ h.aligned, ?_, ?_⟩
  · intro other hnicheless
    rw [hfact]
    by_cases htype : other = type
    · exact htype ▸ hknown
    · rw [isNicheless, hproof, Function.update_of_ne htype] at hnicheless
      exact h.proven other hnicheless
  · intro p hp
    exact h.universes_of_extends hle (huniverses ▸ hp)

lemma declareUniverse (h : r.Consistent) {source target : TypeId}
    (hdeclare : r.declareUniverse source target = .ok r') : r'.Consistent := by
  have hle := extends_of_declareUniverse hdeclare
  obtain ⟨⟨u, t, hu, ht, hstorage⟩, hnicheless, -, hfact, hproof, -, huniverses⟩ :=
    declareUniverse_spec hdeclare
  refine ⟨hfact ▸ h.size_eq, hfact ▸ h.aligned, ?_, ?_⟩
  · intro other hother
    rw [isNicheless, hproof] at hother
    exact hfact ▸ h.proven other hother
  · intro p hp
    rcases (huniverses p).mp hp with hp | rfl
    · exact h.universes_of_extends hle hp
    · exact ⟨hle.isNicheless hnicheless, u, t, hle.fact _ _ hu, hle.fact _ _ ht, hstorage⟩

end Consistent

/-! ### Conditions on predicates -/

/-- The condition holds of the predicate of every fact. -/
def FactsSatisfy (r : Registry κ) (good : Predicate κ → Bool) : Prop :=
  ∀ type fact, r.fact? type = some fact → good fact.validity = true

namespace FactsSatisfy

variable {good : Predicate κ → Bool}

lemma empty (options : RegistryOptions) : (Registry.empty options).FactsSatisfy good := by
  intro type fact h
  simp at h

lemma congr (h : r.FactsSatisfy good) (hfact : r'.fact? = r.fact?) : r'.FactsSatisfy good := by
  intro type fact htype
  exact h type fact (hfact ▸ htype)

/-- A registration brings the predicate of the draft and no other. -/
lemma register [DecidableEq κ] (h : r.FactsSatisfy good) {type : TypeId} {draft : DraftFact κ}
    (hdraft : ∀ validity ∈ draft.validity?, good validity = true)
    (hregister : r.register type draft = .ok r') : r'.FactsSatisfy good := by
  intro other fact hfact
  rcases fact_of_register hregister hfact with hknown | ⟨validity, hvalidity, -, -, rfl⟩
  · exact h other fact hknown
  · exact hdraft validity hvalidity

end FactsSatisfy

/-! ### Steps -/

variable [Check κ] [DecidableEq κ] {op : Operation κ}

/-- No operation takes anything back. -/
theorem Step.extends (h : Step r op r') : r.Extends r' := by
  cases h with
  | refused => exact .refl r
  | interned t => exact extends_intern r t
  | allocated name => exact extends_allocate r name
  | registered h | defined _ h => exact extends_of_register h
  | definedNicheless _ h _ hrecord =>
    exact (extends_of_register h).trans (extends_of_recordProof hrecord)
  | proved _ h | asserted _ h => exact extends_of_recordProof h
  | declared h => exact extends_of_declareUniverse h
  | frozen => exact extends_freeze r

theorem Step.consistent (h : Step r op r') (hr : r.Consistent) : r'.Consistent := by
  cases h with
  | refused => exact hr
  | interned t =>
    obtain ⟨hfact, hproof, huniverses⟩ := r.intern_spec t
    exact hr.congr hfact hproof huniverses
  | allocated name => exact hr.congr (fact?_allocate name) (proof?_allocate name) rfl
  | registered h | defined _ h => exact hr.register h
  | definedNicheless _ h _ hrecord => exact (hr.register h).recordProof hrecord
  | proved _ h | asserted _ h => exact hr.recordProof h
  | declared h => exact hr.declareUniverse h
  | frozen => exact hr.congr rfl rfl rfl

/-- The options of a registry are set when it is made. -/
theorem Step.options_eq (h : Step r op r') : r'.options = r.options := by
  cases h with
  | refused | allocated | frozen => rfl
  | interned t => exact options_intern t
  | registered h | defined _ h => exact (register_frame h).1
  | definedNicheless _ h _ h' => exact (recordProof_frame h').1.trans (register_frame h).1
  | proved _ h | asserted _ h => exact (recordProof_frame h).1
  | declared h =>
    obtain ⟨-, -, -, rfl⟩ := declareUniverse_cases h
    rfl

/-- Only to freeze a registry freezes it. -/
theorem Step.frozen_eq (h : Step r op r') (hop : op ≠ .freeze) : r'.frozen = r.frozen := by
  cases h with
  | refused | allocated => rfl
  | interned t => exact frozen_intern t
  | registered h | defined _ h => exact (register_frame h).2.1
  | definedNicheless _ h _ h' => exact (recordProof_frame h').2.1.trans (register_frame h).2.1
  | proved _ h | asserted _ h => exact (recordProof_frame h).2.1
  | declared h =>
    obtain ⟨-, -, -, rfl⟩ := declareUniverse_cases h
    rfl
  | frozen => exact absurd rfl hop

/-- A fact after a step was known before, or it is that of the draft that was registered. -/
theorem Step.fact_cases (h : Step r op r') {type : TypeId} {fact : LayoutFact κ}
    (hfact : r'.fact? type = some fact) :
    r.fact? type = some fact ∨ ∃ draft validity, op.draft? r = some draft ∧
      draft.validity? = some validity ∧ validity.size = draft.size ∧
        fact = draft.toFact validity := by
  have hregistered : ∀ {type' : TypeId} {draft : DraftFact κ} {s : Registry κ},
      op.draft? r = some draft → r.register type' draft = .ok s → s.fact? type = some fact →
      r.fact? type = some fact ∨ ∃ draft validity, op.draft? r = some draft ∧
        draft.validity? = some validity ∧ validity.size = draft.size ∧
          fact = draft.toFact validity := by
    intro type' draft s hdraft hregister hfact
    rcases fact_of_register hregister hfact with hknown | ⟨validity, hvalidity, hsize, -, rfl⟩
    · exact .inl hknown
    · exact .inr ⟨draft, validity, hdraft, hvalidity, hsize, rfl⟩
  cases h with
  | refused | frozen => exact .inl hfact
  | interned t => exact .inl ((r.intern_spec t).1 ▸ hfact)
  | allocated name => exact .inl (fact?_allocate name ▸ hfact)
  | registered h => exact hregistered rfl h hfact
  | defined hdraft h => exact hregistered (congrArg Except.toOption hdraft) h hfact
  | definedNicheless hdraft h _ hrecord =>
    exact hregistered (congrArg Except.toOption hdraft) h ((recordProof_spec hrecord).2.1 ▸ hfact)
  | proved _ h | asserted _ h => exact .inl ((recordProof_spec h).2.1 ▸ hfact)
  | declared h =>
    obtain ⟨-, -, -, hsame, -⟩ := declareUniverse_spec h
    exact .inl (hsame ▸ hfact)

/-- A proof after a step was recorded before, or the step records the first one of the type: that
which was asserted, one derived from what is known of the type, or one derived from its description
when the fact is registered. -/
theorem Step.proof_cases (h : Step r op r') {type : TypeId} {proof : NichelessProof}
    (hproof : r'.proof? type = some proof) :
    r.proof? type = some proof ∨ r.proof? type = none ∧
      ((∃ justification, op = .assertNicheless type justification ∧
          (op.perform.run r).1 = .ok () ∧ proof = .asserted justification ∧ r'.fact? = r.fact?) ∨
        (op = .proveNicheless type ∧ r.deriveNicheless type = .ok proof ∧ r'.fact? = r.fact?) ∨
        ∃ description expected? draft s, op = .define type description expected? ∧
          description.fact r = .ok draft ∧ r.register type draft = .ok s ∧
          description.deriveNicheless s type = .ok proof ∧ r'.fact? = s.fact?) := by
  cases h with
  | refused | frozen => exact .inl hproof
  | interned t => exact .inl ((r.intern_spec t).2.1 ▸ hproof)
  | allocated name => exact .inl (proof?_allocate name ▸ hproof)
  | registered h | defined _ h =>
    obtain ⟨-, -, -, -, -, -, hsame, -⟩ := register_spec h
    exact .inl (hsame ▸ hproof)
  | definedNicheless hdraft h hderived hrecord =>
    obtain ⟨-, -, -, -, -, -, hsame, -⟩ := register_spec h
    rcases proof_of_recordProof hrecord hproof with hknown | ⟨hnone, rfl, rfl⟩
    · exact .inl (hsame ▸ hknown)
    · exact .inr ⟨hsame ▸ hnone, .inr (.inr ⟨_, _, _, _, rfl, hdraft, h, hderived,
        (recordProof_spec hrecord).2.1⟩)⟩
  | proved hderived hrecord =>
    rcases proof_of_recordProof hrecord hproof with hknown | ⟨hnone, rfl, rfl⟩
    · exact .inl hknown
    · exact .inr ⟨hnone, .inr (.inl ⟨rfl, hderived, (recordProof_spec hrecord).2.1⟩)⟩
  | asserted hok hrecord =>
    rcases proof_of_recordProof hrecord hproof with hknown | ⟨hnone, rfl, rfl⟩
    · exact .inl hknown
    · exact .inr ⟨hnone, .inl ⟨_, rfl, hok, rfl, (recordProof_spec hrecord).2.1⟩⟩
  | declared h =>
    obtain ⟨-, -, -, -, hsame, -⟩ := declareUniverse_spec h
    exact .inl (hsame ▸ hproof)

/-! ### Runs -/

variable {Allowed : Registry κ → Operation κ → Prop}

/-- One run can follow another. -/
theorem Leads.trans {r'' : Registry κ} (h : Leads Allowed r r') (h' : Leads Allowed r' r'') :
    Leads Allowed r r'' := by
  induction h' with
  | refl => exact h
  | step _ hallowed ih => exact .step ih hallowed

/-- A run may be allowed more. -/
theorem Leads.mono {Allowed' : Registry κ → Operation κ → Prop} (h : Leads Allowed r r')
    (himp : ∀ s op, Allowed s op → Allowed' s op) : Leads Allowed' r r' := by
  induction h with
  | refl => exact .refl
  | step _ hallowed ih => exact .step ih (himp _ _ hallowed)

/-- A run of allowed operations is a run. -/
theorem ReachableBy.reachable (h : ReachableBy Allowed r) : r.Reachable := by
  obtain ⟨options, h⟩ := h
  exact ⟨options, h.mono fun _ _ _ => trivial⟩

/-- No run takes anything back. -/
theorem Leads.extends (h : Leads Allowed r r') : r.Extends r' := by
  induction h with
  | refl => exact .refl r
  | step h hallowed ih => exact ih.trans (step_after _ _).extends

theorem Leads.options_eq (h : Leads Allowed r r') : r'.options = r.options := by
  induction h with
  | refl => rfl
  | step h hallowed ih => exact (step_after _ _).options_eq.trans ih

theorem Leads.frozen_eq (h : Leads (fun _ op => op ≠ .freeze) r r') : r'.frozen = r.frozen := by
  induction h with
  | refl => rfl
  | step _ hop ih => exact ((step_after _ _).frozen_eq hop).trans ih

theorem ReachableBy.consistent (h : ReachableBy Allowed r) : r.Consistent := by
  obtain ⟨options, h⟩ := h
  induction h with
  | refl => exact .empty options
  | step h hallowed ih => exact (step_after _ _).consistent ih

/-- What holds of the empty registry and is preserved by every step of an allowed operation holds of
every registry that a run of allowed operations leads to. The steps may count on the consistency of
what they start from. -/
theorem ReachableBy.invariant {P : Registry κ → Prop} (h : ReachableBy Allowed r)
    (hempty : ∀ options, P (empty options))
    (hstep : ∀ s op, s.Consistent → Allowed s op → Step s op (s.after op) → P s → P (s.after op)) :
    P r := by
  obtain ⟨options, h⟩ := h
  induction h with
  | refl => exact hempty options
  | @step s op h hallowed ih =>
    exact hstep s op (ReachableBy.consistent ⟨options, h⟩) hallowed (step_after s op) ih

end Registry

end BitValidity
