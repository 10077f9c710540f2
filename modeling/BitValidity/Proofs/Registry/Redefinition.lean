import BitValidity.Proofs.Host.Operations
import BitValidity.Proofs.Registry.Permanence
import BitValidity.Proofs.Registry.Safety

/-!
# Defining a type again

A definition that succeeded can be repeated as long as something can be written at all. What it
derives is derived from facts that stay, so the same fact comes of it, and the type has one that
agrees with that. A proof is a different matter: it is derived from the proofs of other types, and
there may be more of these by now. So to repeat a definition changes nothing, or it fills in a proof
that could not be derived before (`redefinition_is_stable`).
-/

namespace BitValidity

variable {κ : Type} [Check κ] {r r' s : Registry κ}

/-! ### Derived proofs -/

/-- A proof that is derived from a description stays derivable when the registry grows. -/
lemma Aggregate.deriveNicheless_mono {a : Aggregate κ} {proof : NichelessProof}
    (hle : r.Extends r') (h : a.deriveNicheless r = .ok proof) :
    a.deriveNicheless r' = .ok proof := by
  obtain ⟨layout, hlayout, -⟩ := bind_eq_ok_iff.mp h
  obtain ⟨hinhabited, hinvariant, hcheck, hproof⟩ := (deriveNicheless_eq_ok_iff hlayout).mp h
  refine (deriveNicheless_eq_ok_iff (a.layout_mono hle.fact hlayout)).mpr
    ⟨hinhabited, hinvariant, ?_, hproof⟩
  rw [checkFields_eq_ok_iff] at hcheck ⊢
  intro p hp
  have hp := hcheck p hp
  split
  · rename_i hempty
    rwa [if_pos hempty] at hp
  · rename_i hsize
    rw [if_neg hsize] at hp
    exact hle.isNicheless hp

/-- A registered type that is proven or provable stays so. The proof that is recorded may be another
than the one that could be derived. -/
lemma Registry.exists_deriveNicheless_of_extends (hle : r.Extends r') {type : TypeId}
    {proof : NichelessProof} (h : r.deriveNicheless type = .ok proof) :
    ∃ proof', r'.deriveNicheless type = .ok proof' := by
  cases hproof' : r'.proof? type with
  | some proof' => exact ⟨proof', by rw [deriveNicheless, hproof']⟩
  | none =>
    rw [deriveNicheless, hle.proof?_eq_none hproof'] at h
    obtain ⟨fact, hfact, h⟩ := bind_eq_ok_iff.mp h
    rw [liftM_error_eq_ok_iff, lookup_eq_ok_iff] at hfact
    exact ⟨proof, (deriveNicheless_eq hproof' (hle.fact type fact hfact)).trans h⟩

variable [DecidableEq κ]

namespace Description

variable {description : Description κ} {type : TypeId} {draft : DraftFact κ}

omit [DecidableEq κ] in
lemma exists_deriveNicheless_of_extends (hle : r.Extends r') {proof : NichelessProof}
    (h : description.deriveNicheless r type = .ok proof) :
    ∃ proof', description.deriveNicheless r' type = .ok proof' := by
  cases description with
  | leaf leaf => exact Registry.exists_deriveNicheless_of_extends hle h
  | aggregate a => exact ⟨proof, a.deriveNicheless_mono hle h⟩
  | taggedUnion u => exact absurd h (u.deriveNicheless_ne_ok proof)
  | enumeration e => exact ⟨proof, h⟩

/-- Behind a registration the derivation of a proof settles also when more is registered later, if
it settled at first. No field is of a type that became known later, and a leaf has the fact that it
had. -/
lemma settles_deriveNicheless_of_extends (hr : r.Consistent) (hfacts : r.FactsWellFormed)
    (hdraft : description.fact r = .ok draft) (hregister : r.register type draft = .ok r')
    (hsettles : Settles (description.deriveNicheless r' type)) (hle : r'.Extends s)
    (hs : s.Consistent) : Settles (description.deriveNicheless s type) := by
  cases description with
  | leaf leaf =>
    obtain ⟨-, fact, -, hfact, -⟩ := Registry.agreesWith_of_register hregister
    show Settles (s.deriveNicheless type)
    cases hproof : s.proof? type with
    | some proof =>
      rw [Registry.deriveNicheless, hproof]
      exact settles_ok proof
    | none =>
      have hnone := hle.proof?_eq_none hproof
      rw [Registry.deriveNicheless_eq hproof (hle.fact type fact hfact)]
      exact Registry.deriveNicheless_eq hnone hfact ▸ hsettles
  | aggregate a =>
    obtain ⟨layout, hlayout, -⟩ := fact_aggregate_eq_ok_iff.mp hdraft
    have hlayout' := a.layout_mono ((Registry.extends_of_register hregister).trans hle).fact hlayout
    exact a.settles_deriveNicheless hr hfacts (hlayout'.trans hlayout.symm)
  | taggedUnion u => exact u.settles_deriveNicheless hs
  | enumeration e => exact settles_liftM_error _

end Description

/-! ### Writes that are repeated -/

namespace Registry

variable {type : TypeId}

omit [Check κ] in
/-- What was registered can be registered again, to no effect. -/
lemma register_of_extends {draft : DraftFact κ} (h : r.register type draft = .ok r')
    (hle : r'.Extends s) (hfrozen : s.frozen = false) (hstrict : s.options.strict = false) :
    s.register type draft = .ok s := by
  obtain ⟨validity, hvalidity, hsize, halignment, -⟩ := register_spec h
  obtain ⟨validity', fact, hvalidity', hfact, hagrees⟩ := agreesWith_of_register h
  obtain rfl := Option.some.inj (hvalidity.symm.trans hvalidity')
  obtain ⟨entry, hentry, hknown⟩ := Option.bind_eq_some_iff.mp (hle.fact type fact hfact)
  simp only [register, hfrozen, Bool.false_eq_true, if_false, hentry, hvalidity, hsize, ne_eq,
    not_true_eq_false, halignment, Bool.not_true, hknown, hstrict, Bool.false_or]
  rw [if_neg]
  simpa [DraftFact.toFact] using hagrees

omit [Check κ] [DecidableEq κ] in
/-- A pair that was declared can be declared again, to no effect. -/
lemma declareUniverse_of_extends {source target : TypeId}
    (h : r.declareUniverse source target = .ok r') (hle : r'.Extends s) (hfrozen : s.frozen = false) :
    s.declareUniverse source target = .ok s := by
  obtain ⟨⟨u, t, hu, ht, hstorage⟩, hnicheless, -, hfact, hproof, -, huniverses⟩ :=
    declareUniverse_spec h
  rw [← hfact] at hu ht
  rw [isNicheless, ← hproof] at hnicheless
  rw [declareUniverse_eq_ok hfrozen (hle.fact _ _ hu) (hle.fact _ _ ht)
    (hle.isNicheless hnicheless) hstorage, if_pos (hle.declared _ ((huniverses _).mpr (.inr rfl)))]

/-- The second registry is the first, or it has a proof of the type where that has none. -/
def SameButProof (type : TypeId) (r r' : Registry κ) : Prop :=
  r' = r ∨ ∃ entry proof, r.entry? type = some entry ∧ entry.proof? = none ∧
    r' = r.setEntry type { entry with proof? := some proof }

variable {proof : NichelessProof}

omit [Check κ] [DecidableEq κ] in
lemma sameButProof_of_recordProof (h : r.recordProof type proof = .ok r') :
    r.SameButProof type r' := by
  obtain ⟨name, fact, proof?, hentry, ⟨known, -, rfl⟩ | ⟨rfl, rfl⟩⟩ := recordProof_cases h
  · exact .inl rfl
  · exact .inr ⟨_, proof, hentry, rfl, rfl⟩

end Registry

/-! ### Sessions that succeed -/

namespace Session

section

omit [Check κ] [DecidableEq κ]

variable {type : TypeId} {derive : Registry κ → Except Failure NichelessProof} {a : Unit}

lemma run_recordIfProven_eq_ok_iff : (recordIfProven type derive).run r = (.ok a, s) ↔
    (∃ proof, derive r = .ok proof ∧ r.recordProof type proof = .ok s) ∨
      ∃ e, derive r = .error (.error e) ∧ r = s := by
  simp only [run, recordIfProven]
  cases derive r with
  | ok proof =>
    show (update (·.recordProof type proof)).run r = _ ↔ _
    rw [run_update_eq_ok_iff]
    simp
  | error failure => cases failure <;> simp

lemma of_run_recordIfProven (h : (recordIfProven type derive).run r = (.ok a, s)) :
    r.Extends s ∧ s.frozen = r.frozen ∧ Settles (derive r) := by
  rcases run_recordIfProven_eq_ok_iff.mp h with ⟨proof, hderive, hrecord⟩ | ⟨e, hderive, rfl⟩ <;>
  rw [hderive]
  · exact ⟨Registry.extends_of_recordProof hrecord, Registry.frozen_of_recordProof hrecord,
      settles_ok proof⟩
  · exact ⟨.refl r, rfl, settles_error e⟩

/-- What could not be recorded at first cannot be recorded right behind that, and what was recorded
stays. -/
lemma run_recordIfProven_idem (h : (recordIfProven type derive).run r = (.ok a, s)) :
    ((recordIfProven type derive).run s).2 = s := by
  rcases run_recordIfProven_eq_ok_iff.mp h with ⟨proof, -, hrecord⟩ | ⟨e, -, rfl⟩
  · obtain ⟨-, -, hproof, -⟩ := Registry.recordProof_spec hrecord
    have hknown : s.proof? type = some ((r.proof? type).getD proof) := by
      rw [hproof, Function.update_self]
    simp only [run, recordIfProven]
    cases derive s with
    | ok proof' =>
      show ((update (·.recordProof type proof')).run s).2 = s
      exact run_update_cases (P := (· = s)) rfl fun s' hrecord' =>
        Registry.eq_of_recordProof hknown hrecord'
    | error failure => cases failure <;> rfl
  · rw [h]

variable (derive) in
lemma exists_run_recordIfProven (hfrozen : r.frozen = false) {fact : LayoutFact κ}
    (hfact : r.fact? type = some fact) (hsettles : Settles (derive r)) :
    ∃ s, (recordIfProven type derive).run r = (.ok (), s) ∧ r.SameButProof type s := by
  rcases run_recordIfProven type derive hfrozen hfact with
    ⟨proof, s, -, hrecord, hrun⟩ | ⟨e, -, hrun⟩ | ⟨b, hderive, -⟩
  · exact ⟨s, hrun, Registry.sameButProof_of_recordProof hrecord⟩
  · exact ⟨r, hrun, .inl rfl⟩
  · exact absurd hderive (hsettles b)

end

variable {type : TypeId} {description : Description κ} {expected? : Option Storage}
  {draft : DraftFact κ} {fact : LayoutFact κ}

omit [Check κ] in
lemma run_registerChecked_eq_ok_iff :
    (registerChecked type draft expected?).run r = (.ok fact, s) ↔
      draft.checkExpected expected? = .ok () ∧ r.register type draft = .ok s ∧
        s.fact? type = some fact := by
  simp only [registerChecked, register, lookup, ask, run_bind_eq_ok_iff, run_read_eq_ok_iff,
    run_update_eq_ok_iff, liftM_error_eq_ok_iff, Registry.lookup_eq_ok_iff]
  constructor
  · rintro ⟨⟨⟩, _, ⟨hexpected, rfl⟩, ⟨⟩, _, hregister, hfact, rfl⟩
    exact ⟨hexpected, hregister, hfact⟩
  · rintro ⟨hexpected, hregister, hfact⟩
    exact ⟨(), r, ⟨hexpected, rfl⟩, (), s, hregister, hfact, rfl⟩

/-- Behind a registration that succeeds a definition comes to what the recording of a proof comes
to. -/
lemma run_define_of_register (hdraft : description.fact r = .ok draft)
    (hexpected : draft.checkExpected expected? = .ok ()) (hregister : r.register type draft = .ok r')
    (hfact : r'.fact? type = some fact) :
    let recorded := (recordIfProven type fun r => description.deriveNicheless r type).run r'
    (define type description expected?).run r = (recorded.1.map fun _ => fact, recorded.2) := by
  have hchecked : (registerChecked type draft expected?).run r = (.ok fact, r') :=
    run_registerChecked_eq_ok_iff.mpr ⟨hexpected, hregister, hfact⟩
  rw [define, run_bind, run_read, hdraft]
  dsimp only
  rw [run_bind, hchecked]
  dsimp only
  rw [run_bind]
  rcases (recordIfProven type fun r => description.deriveNicheless r type).run r' with ⟨_ | _, s⟩ <;>
  rfl

/-- A definition succeeds when the fact is derived, as expected and registered, and the derivation
of a proof settles. -/
lemma run_define_eq_ok_iff : (define type description expected?).run r = (.ok fact, s) ↔
    ∃ draft r', description.fact r = .ok draft ∧ draft.checkExpected expected? = .ok () ∧
      r.register type draft = .ok r' ∧ r'.fact? type = some fact ∧
      (recordIfProven type fun r => description.deriveNicheless r type).run r' = (.ok (), s) := by
  simp only [define, run_bind_eq_ok_iff, run_read_eq_ok_iff, run_registerChecked_eq_ok_iff,
    run_pure, Prod.mk.injEq, Except.ok.injEq]
  constructor
  · rintro ⟨draft, _, ⟨hdraft, rfl⟩, fact, r', ⟨hexpected, hregister, hfact⟩, ⟨⟩, _, hrecord, rfl,
      rfl⟩
    exact ⟨draft, r', hdraft, hexpected, hregister, hfact, hrecord⟩
  · rintro ⟨draft, r', hdraft, hexpected, hregister, hfact, hrecord⟩
    exact ⟨draft, r, ⟨hdraft, rfl⟩, fact, r', ⟨hexpected, hregister, hfact⟩, (), s, hrecord, rfl,
      rfl⟩

/-- To define a type of the host is to define it under its identity. -/
lemma run_defineHost_eq_ok_iff {t : HostType} :
    (defineHost t description expected?).run r = (.ok type, s) ↔
      type = (r.intern t).1 ∧ ∃ fact,
        (define type description expected?).run (r.intern t).2 = (.ok fact, s) := by
  simp only [defineHost, run_bind_eq_ok_iff, run_idOf_eq_ok_iff, run_pure, Prod.mk.injEq,
    Except.ok.injEq]
  constructor
  · rintro ⟨_, _, hintern, fact, _, hdefine, rfl, rfl⟩
    rw [hintern]
    exact ⟨rfl, fact, hdefine⟩
  · rintro ⟨rfl, fact, hdefine⟩
    exact ⟨_, _, rfl, fact, s, hdefine, rfl, rfl⟩

/-- A type of the host that is defined is known, and what is derived for it has been registered. -/
lemma of_run_defineHost {t : HostType}
    (h : (defineHost t description expected?).run r = (.ok type, s)) :
    s.findHostType t = type ∧ ∃ draft r', description.fact (r.intern t).2 = .ok draft ∧
      (r.intern t).2.register type draft = .ok r' ∧
      (recordIfProven type fun r => description.deriveNicheless r type).run r' = (.ok (), s) := by
  obtain ⟨rfl, _, hdefine⟩ := run_defineHost_eq_ok_iff.mp h
  obtain ⟨draft, r', hdraft, -, hregister, -, hrecord⟩ := run_define_eq_ok_iff.mp hdefine
  refine ⟨?_, draft, r', hdraft, hregister, hrecord⟩
  have hopen : r.frozen = false :=
    (Registry.frozen_intern t).symm.trans (Registry.register_cases hregister).1
  have hle := (Registry.extends_of_register hregister).trans (of_run_recordIfProven hrecord).1
  exact Registry.findHostType_of_lookup (hle.hostType _ _ (Registry.lookup_intern hopen t))

end Session

/-! ### Definitions that are repeated -/

namespace Registry

variable {type : TypeId} {description : Description κ} {expected? : Option Storage}
  {fact : LayoutFact κ}

/-- A definition that succeeded succeeds again when the registry has grown. The answer is the fact
that it was at first. -/
theorem run_define_of_extends (hr : r.Consistent) (hfacts : r.FactsWellFormed)
    (hrun : (Session.define type description expected?).run r = (.ok fact, r'))
    (hle : r'.Extends s) (hs : s.Consistent) (hfrozen : s.frozen = false)
    (hstrict : s.options.strict = false) :
    s.fact? type = some fact ∧
      ∃ s', (Session.define type description expected?).run s = (.ok fact, s') ∧
        s.SameButProof type s' := by
  obtain ⟨draft, r₁, hdraft, hexpected, hregister, hfact, hrecord⟩ :=
    Session.run_define_eq_ok_iff.mp hrun
  obtain ⟨hle₁, -, hsettles⟩ := Session.of_run_recordIfProven hrecord
  have hle := hle₁.trans hle
  have hdraft' := Description.fact_mono ((extends_of_register hregister).trans hle).fact hdraft
  have hregister' := register_of_extends hregister hle hfrozen hstrict
  have hfact' := hle.fact type fact hfact
  have hsettles' :=
    Description.settles_deriveNicheless_of_extends hr hfacts hdraft hregister hsettles hle hs
  obtain ⟨s', hrecord', hsame⟩ := Session.exists_run_recordIfProven
    (fun r => description.deriveNicheless r type) hfrozen hfact' hsettles'
  exact ⟨hfact', s', Session.run_define_eq_ok_iff.mpr
    ⟨draft, s, hdraft', hexpected, hregister', hfact', hrecord'⟩, hsame⟩

/-- Right behind a definition that succeeded the same definition changes nothing. The proof that can
be derived, if there is one, was derived by the first. -/
theorem after_define_idem (hstrict : r.options.strict = false)
    (hok : ((Session.define type description expected?).run r).1 = .ok fact) :
    let op : Operation κ := .define type description expected?
    (r.after op).after op = r.after op := by
  intro op
  have hrun : (Session.define type description expected?).run r = (.ok fact, r.after op) :=
    Prod.ext hok (after_define r type description expected?).symm
  have hstrict : (r.after op).options.strict = false := by rwa [(step_after r op).options_eq]
  rw [after_define]
  generalize r.after op = s at hrun hstrict ⊢
  obtain ⟨draft, r₁, hdraft, hexpected, hregister, hfact, hrecord⟩ :=
    Session.run_define_eq_ok_iff.mp hrun
  obtain ⟨hle, hfrozen, -⟩ := Session.of_run_recordIfProven hrecord
  have hdraft' := Description.fact_mono ((extends_of_register hregister).trans hle).fact hdraft
  have hregister' := register_of_extends hregister hle
    (hfrozen.trans (frozen_of_register hregister)) hstrict
  rw [Session.run_define_of_register hdraft' hexpected hregister' (hle.fact type fact hfact)]
  exact Session.run_recordIfProven_idem hrecord

/-- Whatever bounded run led to a registry that is not strict, and whatever is done later: a
definition that succeeds there succeeds again as long as the registry is not frozen. The fact that
is derived from the description is the same, it agrees with the one that the type has, and that is
the answer. Nothing changes but that a proof may be filled in where there was none, and when the
definition is repeated at once nothing changes at all. A proof that can be derived from a
description can be derived ever after. -/
theorem redefinition_is_stable (hr : ReachableBy Operation.IsBounded r)
    (hstrict : r.options.strict = false) :
    (∀ (type : TypeId) (description : Description κ) (expected? : Option Storage)
        (fact : LayoutFact κ),
      ((Session.define type description expected?).run r).1 = .ok fact →
      let op : Operation κ := .define type description expected?
      (r.after op).after op = r.after op ∧
      ∃ draft validity, description.fact r = .ok draft ∧ draft.validity? = some validity ∧
        fact.agreesWith (draft.toFact validity) = true ∧
        ∀ later : List (Action κ),
          let r' := (r.after op).afterActions later
          r'.frozen = false →
            description.fact r' = .ok draft ∧ r'.fact? type = some fact ∧
              ((Session.define type description expected?).run r').1 = .ok fact ∧
              r'.SameButProof type (r'.after op) ∧ (r'.after op).after op = r'.after op) ∧
    ∀ (description : Description κ) (type : TypeId) (proof : NichelessProof),
      description.deriveNicheless r type = .ok proof →
      ∀ later : List (Action κ),
        ∃ proof', description.deriveNicheless (r.afterActions later) type = .ok proof' := by
  constructor
  · intro type description expected? fact hok op
    have hrun : (Session.define type description expected?).run r = (.ok fact, r.after op) :=
      Prod.ext hok (after_define r type description expected?).symm
    obtain ⟨draft, _, hdraft, -, hregister, hfact, -⟩ := Session.run_define_eq_ok_iff.mp hrun
    obtain ⟨validity, known, hvalidity, hknown, hagrees⟩ := agreesWith_of_register hregister
    obtain rfl := Option.some.inj (hknown.symm.trans hfact)
    refine ⟨after_define_idem hstrict hok, draft, validity, hdraft, hvalidity, hagrees, ?_⟩
    intro later r' hfrozen
    have hlater := leads_afterActions (r.after op) later
    have hleads : Leads (fun _ _ => True) r r' := (Leads.refl.step trivial).trans hlater
    have hstrict' : r'.options.strict = false := by rwa [hleads.options_eq]
    have hconsistent' : r'.Consistent := by
      obtain ⟨options, hreach⟩ := hr.reachable
      exact ReachableBy.consistent ⟨options, hreach.trans hleads⟩
    obtain ⟨hfact', s, hagain, hsame⟩ := run_define_of_extends hr.consistent hr.factsWellFormed
      hrun hlater.extends hconsistent' hfrozen hstrict'
    have hok' : ((Session.define type description expected?).run r').1 = .ok known := by
      rw [hagain]
    refine ⟨Description.fact_mono hleads.extends.fact hdraft, hfact', hok', ?_,
      after_define_idem hstrict' hok'⟩
    rw [after_define, hagain]
    exact hsame
  · intro description type proof h later
    exact Description.exists_deriveNicheless_of_extends (leads_afterActions r later).extends h

/-- A record of a single word. -/
def box : Aggregate Empty := ⟨"box", .sequential, [⟨"word", ⟨0⟩, none⟩], none, none, none⟩

def boxFact : LayoutFact Empty :=
  ⟨⟨8, 8⟩, "box", .allOf 8 "box" [⟨0, .allValid 8 "word", "word"⟩] none⟩

def boxRegistry : Registry Empty := flagRegistry.after (.declareType "box")

lemma boxRegistry_eq :
    boxRegistry = ⟨.standard, false,
      [⟨"word", some ⟨⟨8, 8⟩, "word", .allValid 8 "word"⟩, none⟩, ⟨"flag", some flagFact, none⟩,
        ⟨"box", none, none⟩], [], []⟩ := rfl

lemma reachable_boxRegistry : ReachableBy Operation.IsBounded boxRegistry := by
  obtain ⟨options, hreach⟩ := reachable_flagRegistry
  exact ⟨options, hreach.step ⟨(fun p hp => nomatch hp), trivial⟩⟩

/-- The registry in which boxes are defined and words are nicheless. -/
def reviewedRegistry : Registry Empty :=
  (boxRegistry.after (.define ⟨2⟩ (.aggregate box) none)).afterActions
    [.byIdentity (.assertNicheless ⟨0⟩ "reviewed")]

lemma after_define_box :
    boxRegistry.after (.define ⟨2⟩ (.aggregate box) none) = ⟨.standard, false,
      [⟨"word", some ⟨⟨8, 8⟩, "word", .allValid 8 "word"⟩, none⟩, ⟨"flag", some flagFact, none⟩,
        ⟨"box", some boxFact, none⟩], [], []⟩ := by
  rw [boxRegistry_eq]
  simp only [after, Operation.perform, Session.run_discard, Session.define,
    Session.registerChecked, Session.run_bind, Session.run_pure]
  cbv

lemma reviewedRegistry_eq :
    reviewedRegistry = ⟨.standard, false,
      [⟨"word", some ⟨⟨8, 8⟩, "word", .allValid 8 "word"⟩, some (.asserted "reviewed")⟩,
        ⟨"flag", some flagFact, none⟩, ⟨"box", some boxFact, none⟩], [], []⟩ := by
  rw [reviewedRegistry, after_define_box]
  rfl

/-- A box is defined while no proof of words is known. It can be defined again when there is one. -/
theorem redefinition_is_stable_box :
    ReachableBy Operation.IsBounded boxRegistry ∧ reviewedRegistry.proof? ⟨2⟩ = none ∧
      ((Session.define ⟨2⟩ (.aggregate box) none).run reviewedRegistry).1 = .ok boxFact ∧
      reviewedRegistry.SameButProof ⟨2⟩
        (reviewedRegistry.after (.define ⟨2⟩ (.aggregate box) none)) := by
  have h := redefinition_is_stable reachable_boxRegistry rfl
  have hdefine :
      ((Session.define ⟨2⟩ (.aggregate box) none).run boxRegistry).1 = .ok boxFact := by
    rw [boxRegistry_eq]
    simp only [Session.define, Session.registerChecked, Session.run_bind, Session.run_pure]
    cbv
  obtain ⟨-, draft, validity, -, -, -, hlater⟩ := h.1 ⟨2⟩ (.aggregate box) none boxFact hdefine
  have hfrozen : reviewedRegistry.frozen = false := by rw [reviewedRegistry_eq]
  have hproof : reviewedRegistry.proof? ⟨2⟩ = none := by
    rw [reviewedRegistry_eq]
    rfl
  obtain ⟨-, -, hagain, hsame, -⟩ := hlater _ hfrozen
  exact ⟨reachable_boxRegistry, hproof, hagain, hsame⟩

end Registry

end BitValidity
